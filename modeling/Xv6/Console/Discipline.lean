import Xv6.Console.Model

/-!
# The line discipline

The three counters stay in order within one turn of the buffer, whatever they have wrapped. Keys change
nothing in front of `w`, so that readers get the committed bytes in their order, each once, and a ^D as
an empty read.
-/

namespace Xv6.Console

open Function (update update_self update_of_ne)

namespace Input

variable {x x' : Input}

structure Wf (x : Input) : Prop where
  le : (x.w - x.r).toNat ≤ (x.e - x.r).toNat
  full : (x.e - x.r).toNat ≤ inputBuf

theorem toNat_sub (a b : UInt32) : (a - b).toNat = (2 ^ 32 - b.toNat + a.toNat) % 2 ^ 32 :=
  UInt32.toNat_sub a b

theorem toNat_succ (a : UInt32) : (a + 1).toNat = (a.toNat + 1) % 2 ^ 32 := UInt32.toNat_add a 1

theorem eq_iff (a b : UInt32) : a = b ↔ (a - b).toNat = 0 := by
  have ha := a.toNat_lt
  have hb := b.toNat_lt
  rw [← UInt32.toNat_inj, toNat_sub]
  omega

theorem inputBuf_dvd : inputBuf ∣ 2 ^ 32 := by decide

/-- A counter that stands `k` places behind another names the place `k` behind. -/
theorem mod_inputBuf (a b : UInt32) : a.toNat % inputBuf = (b.toNat + (a - b).toNat) % inputBuf := by
  have ha := a.toNat_lt
  have hb := b.toNat_lt
  rw [toNat_sub]
  simp only [inputBuf]
  omega

/-! ### Keys -/

/-- What a key leaves: the reader's counter and the bytes in front of `w`. -/
structure Spares (x x' : Input) : Prop where
  r : x'.r = x.r
  w : (x'.w - x'.r).toNat = (x.w - x.r).toNat + (x'.w - x.w).toNat
  buf : ∀ k < (x.w - x.r).toNat, x'.buf ((x.r.toNat + k) % inputBuf) = x.buf ((x.r.toNat + k) % inputBuf)

theorem Spares.pending (h : Spares x x') : x'.pending = x.pending ++
    Ring.contents inputBuf x'.buf x.w.toNat (x'.w - x.w).toNat := by
  have hstart : Ring.contents inputBuf x'.buf (x.r.toNat + (x.w - x.r).toNat) (x'.w - x.w).toNat =
      Ring.contents inputBuf x'.buf x.w.toNat (x'.w - x.w).toNat := by
    refine Ring.contents_congr fun k _ => ?_
    rw [Nat.add_mod, ← mod_inputBuf, ← Nat.add_mod]
  unfold Input.pending
  rw [h.w, Ring.contents_add, h.r, hstart]
  exact congrArg (· ++ _) (Ring.contents_congr h.buf)

theorem sub_self_toNat (a : UInt32) : (a - a).toNat = 0 := (eq_iff a a).mp rfl

theorem Spares.refl (x : Input) : Spares x x :=
  ⟨rfl, by rw [sub_self_toNat, Nat.add_zero], fun _ _ => rfl⟩

theorem Wf.stepBack (hx : x.Wf) (hne : x.e ≠ x.w) : ({ x with e := x.e - 1 } : Input).Wf := by
  obtain ⟨hle, hfull⟩ := hx
  have hr := x.r.toNat_lt
  have hw := x.w.toNat_lt
  have he := x.e.toNat_lt
  have hpred : (x.e - 1).toNat = (2 ^ 32 - 1 + x.e.toNat) % 2 ^ 32 := toNat_sub x.e 1
  rw [Ne, ← UInt32.toNat_inj] at hne
  simp only [toNat_sub, inputBuf] at hle hfull
  constructor
  · dsimp only
    simp only [toNat_sub, hpred]
    omega
  · dsimp only
    simp only [toNat_sub, hpred, inputBuf]
    omega

theorem killLine_spec (fuel : Nat) (x : Input) (hx : x.Wf) : (killLine fuel x).Wf ∧
    (killLine fuel x).buf = x.buf ∧ (killLine fuel x).r = x.r ∧ (killLine fuel x).w = x.w := by
  induction fuel generalizing x with
  | zero => exact ⟨hx, rfl, rfl, rfl⟩
  | succ fuel ih =>
    unfold killLine
    split
    · rename_i hcond
      exact ih _ (hx.stepBack hcond.1)
    · exact ⟨hx, rfl, rfl, rfl⟩

theorem killLine_done (fuel : Nat) (x : Input) (hfuel : (x.e - x.w).toNat ≤ fuel) :
    (killLine fuel x).e = (killLine fuel x).w ∨
      (killLine fuel x).byteAt ((killLine fuel x).e - 1) = 10 := by
  induction fuel generalizing x with
  | zero => exact .inl ((eq_iff x.e x.w).mpr (Nat.le_zero.mp hfuel))
  | succ fuel ih =>
    unfold killLine
    split
    · rename_i hcond
      refine ih _ ?_
      have hw := x.w.toNat_lt
      have he := x.e.toNat_lt
      have hpred : (x.e - 1).toNat = (2 ^ 32 - 1 + x.e.toNat) % 2 ^ 32 := toNat_sub x.e 1
      have hne := hcond.1
      rw [Ne, ← UInt32.toNat_inj] at hne
      rw [toNat_sub] at hfuel
      dsimp only
      rw [toNat_sub, hpred]
      omega
    · rename_i hcond
      rw [not_and_or, not_not, not_not] at hcond
      exact hcond

theorem Wf.backspace (hx : x.Wf) : x.backspace.Wf ∧ x.backspace.buf = x.buf ∧ x.backspace.r = x.r ∧
    x.backspace.w = x.w := by
  unfold Input.backspace
  split
  · rename_i hne
    exact ⟨hx.stepBack hne, rfl, rfl, rfl⟩
  · exact ⟨hx, rfl, rfl, rfl⟩

theorem Spares.of_eq (hbuf : x'.buf = x.buf) (hr : x'.r = x.r) (hw : x'.w = x.w) : Spares x x' :=
  ⟨hr, by rw [hr, hw, sub_self_toNat, Nat.add_zero], fun _ _ => by rw [hbuf]⟩

theorem Wf.store (hx : x.Wf) (hroom : (x.e - x.r).toNat < inputBuf) (c : UInt8) (commit : Bool) :
    let x' : Input :=
      { x with
        buf := update x.buf (x.e.toNat % inputBuf) c
        w := if commit then x.e + 1 else x.w
        e := x.e + 1 }
    x'.Wf ∧ Spares x x' := by
  obtain ⟨hle, hfull⟩ := hx
  have hr := x.r.toNat_lt
  have hw := x.w.toNat_lt
  have he := x.e.toNat_lt
  have hsucc := toNat_succ x.e
  have hbuf : ∀ k < (x.w - x.r).toNat, update x.buf (x.e.toNat % inputBuf) c ((x.r.toNat + k) % inputBuf) =
        x.buf ((x.r.toNat + k) % inputBuf) := by
    intro k hk
    rw [mod_inputBuf x.e x.r]
    exact update_of_ne (Ring.mod_ne_mod (by omega) hroom) ..
  simp only [toNat_sub, inputBuf] at hle hfull hroom
  cases commit with
  | true =>
    refine ⟨⟨le_rfl, ?_⟩, rfl, ?_, hbuf⟩
    · simp only [toNat_sub, hsucc, inputBuf]
      omega
    · simp only [toNat_sub, hsucc, if_true]
      omega
  | false =>
    refine ⟨⟨?_, ?_⟩, rfl, ?_, hbuf⟩
    · simp only [toNat_sub, hsucc, Bool.false_eq_true, if_false]
      omega
    · simp only [toNat_sub, hsucc, inputBuf]
      omega
    · simp only [Bool.false_eq_true, if_false, sub_self_toNat, Nat.add_zero]

theorem Wf.enter (hx : x.Wf) (c : Nat) : (x.enter c).Wf ∧ Spares x (x.enter c) := by
  unfold Input.enter
  split
  · rename_i hcond
    dsimp only
    generalize (if c = 13 then newline else c) = c
    split
    · exact hx.store hcond.2 _ true
    · exact hx.store hcond.2 _ false
  · exact ⟨hx, .refl x⟩

theorem Wf.key (hx : x.Wf) (c : Nat) : (x.key c).Wf ∧ Spares x (x.key c) := by
  unfold Input.key
  split_ifs
  · exact ⟨hx, .refl x⟩
  · obtain ⟨hwf, hbuf, hr, hw⟩ := killLine_spec (x.e - x.w).toNat x hx
    exact ⟨hwf, .of_eq hbuf hr hw⟩
  · obtain ⟨hwf, hbuf, hr, hw⟩ := hx.backspace
    exact ⟨hwf, .of_eq hbuf hr hw⟩
  · exact hx.enter c

theorem Wf.edit (hx : x.Wf) {c : Nat} (hc : c = 8 ∨ c = 127 ∨ c = 21) : (x.key c).pending = x.pending := by
  have hsame : (x.key c).buf = x.buf ∧ (x.key c).r = x.r ∧ (x.key c).w = x.w := by
    unfold Input.key
    rcases hc with rfl | rfl | rfl
    · exact hx.backspace.2
    · exact hx.backspace.2
    · exact (killLine_spec (x.e - x.w).toNat x hx).2
  obtain ⟨hbuf, hr, hw⟩ := hsame
  rw [Input.pending, hbuf, hr, hw, Input.pending]

/-! ### Reading -/

theorem Wf.take (hx : x.Wf) (hne : x.r ≠ x.w) : ({ x with r := x.r + 1 } : Input).Wf ∧
    x.pending = x.byteAt x.r :: ({ x with r := x.r + 1 } : Input).pending := by
  obtain ⟨hle, hfull⟩ := hx
  have hr := x.r.toNat_lt
  have hw := x.w.toNat_lt
  have he := x.e.toNat_lt
  have hsucc := toNat_succ x.r
  rw [Ne, ← UInt32.toNat_inj] at hne
  have hcount : (x.w - x.r).toNat = (x.w - (x.r + 1)).toNat + 1 := by
    simp only [toNat_sub, hsucc]
    omega
  constructor
  · simp only [toNat_sub, inputBuf] at hle hfull
    constructor
    · simp only [toNat_sub, hsucc]
      omega
    · simp only [toNat_sub, hsucc, inputBuf]
      omega
  · unfold Input.pending
    rw [hcount, Ring.contents_pop]
    dsimp only
    rw [hsucc, Ring.contents_mod inputBuf_dvd]
    rfl

end Input

/-- What a call for `n` bytes returns with: the number of its bytes, unless it was killed. It has all it
asked for, or a newline at the end; or nothing, for a ^D; or too few bytes, in front of a ^D. -/
def Stop.Fits (n : Int) (got : List UInt8) (result : Int) : Stop → Prop
  | .full => result = got.length ∧ got.length = n.toNat
  | .newline => result = got.length ∧ got.getLast? = some 10
  | .eof => got = [] ∧ result = 0 ∧ 0 < n
  | .saved => got ≠ [] ∧ result = got.length ∧ result < n
  | .killed => result = -1

def taken : Option (Stop × Int) → List UInt8
  | some (.eof, _) => [4]
  | _ => []

theorem readLoop_spec (killed : Bool) {n : Int} (m : Nat) (x : Input) (got : List UInt8) (hx : x.Wf)
    (hlen : got.length + m = n.toNat) :
    ∃ x' bs stop, readLoop killed n.toNat m x got = (x', got ++ bs, stop) ∧ x'.Wf ∧
      x.pending = bs ++ taken stop ++ x'.pending ∧ (∀ b ∈ bs, b ≠ 4) ∧ (got ++ bs).length ≤ n.toNat ∧
      ∀ st result, stop = some (st, result) → st.Fits n (got ++ bs) result := by
  induction m generalizing x got with
  | zero =>
    refine ⟨x, [], _, by rw [List.append_nil]; rfl, hx, rfl, nofun, ?_, ?_⟩
    · rw [List.append_nil]
      omega
    · rintro _ _ ⟨⟩
      rw [List.append_nil]
      exact ⟨by omega, by omega⟩
  | succ m ih =>
    unfold readLoop
    by_cases hrw : x.r = x.w
    · rw [if_pos hrw]
      refine ⟨x, [], _, by rw [List.append_nil], hx, ?_, nofun, ?_, ?_⟩
      · cases killed <;> rfl
      · rw [List.append_nil]
        omega
      · cases killed with
        | true =>
          rintro _ _ ⟨⟩
          rfl
        | false => exact nofun
    rw [if_neg hrw]
    obtain ⟨htake, hpending⟩ := hx.take hrw
    dsimp only
    by_cases hc : x.byteAt x.r = 4
    · rw [if_pos hc]
      by_cases hshort : m + 1 < n.toNat
      · rw [if_pos hshort, UInt32.add_sub_cancel]
        refine ⟨x, [], _, by rw [List.append_nil], hx, rfl, nofun, ?_, ?_⟩
        · rw [List.append_nil]
          omega
        · rintro _ _ ⟨⟩
          rw [List.append_nil]
          refine ⟨fun hnil => ?_, ?_, ?_⟩
          · rw [hnil, List.length_nil] at hlen
            omega
          · omega
          · omega
      · rw [if_neg hshort]
        have hnil : got = [] := List.length_eq_zero_iff.mp (by omega)
        subst hnil
        refine ⟨_, [], _, rfl, htake, by rw [hpending, hc]; rfl, nofun, Nat.zero_le _, ?_⟩
        rintro _ _ ⟨⟩
        rw [List.length_nil] at hlen
        exact ⟨rfl, by omega, by omega⟩
    rw [if_neg hc]
    by_cases hnl : x.byteAt x.r = 10
    · rw [if_pos hnl]
      refine ⟨_, [x.byteAt x.r], _, rfl, htake, hpending, ?_, ?_, ?_⟩
      · rintro b hb
        rw [List.mem_singleton.mp hb]
        exact hc
      · rw [List.length_append, List.length_singleton]
        omega
      · rintro _ _ ⟨⟩
        refine ⟨?_, by rw [hnl, List.getLast?_append]; rfl⟩
        rw [List.length_append, List.length_singleton]
        omega
    · rw [if_neg hnl]
      obtain ⟨x', bs, stop, hloop, hwf, htail, hbs, hmost, hfits⟩ :=
        ih { x with r := x.r + 1 } (got ++ [x.byteAt x.r]) htake
          (by rw [List.length_append, List.length_singleton]; omega)
      rw [List.append_assoc, List.singleton_append] at hloop hmost hfits
      refine ⟨x', x.byteAt x.r :: bs, stop, hloop, hwf, ?_, ?_, hmost, hfits⟩
      · rw [hpending, htail]
        rfl
      · rintro b hb
        obtain rfl | hb := List.mem_cons.mp hb
        · exact hc
        · exact hbs b hb

/-! ### Runs -/

namespace State

variable {s s' : State}

def gotBy (s : State) (p : Nat) : List UInt8 :=
  (s.delivered.filter fun x => x.1 = p).filterMap Prod.snd

def readBy (s : State) (p : Nat) : List UInt8 :=
  ((s.finished.filter fun x => x.1 = p).flatMap fun x => x.2.got) ++ (s.call p).elim [] Call.got

/-- The committed bytes were delivered in their order, up to `rest`: each byte to the process whose call
has it, each ^D as an empty read. -/
structure Delivers (s : State) (rest : List UInt8) : Prop where
  order : s.committed = s.delivered.map (fun x => x.2.getD 4) ++ rest
  bytes : ∀ x ∈ s.delivered, x.2 ≠ some 4
  got : ∀ p, s.gotBy p = s.readBy p
  fits : ∀ x ∈ s.finished, x.2.stop.Fits x.2.n x.2.got x.2.result
  eofs : (s.delivered.filter fun x => x.2 = none).map Prod.fst =
    (s.finished.filter fun x => x.2.stop = .eof).map Prod.fst

structure Inv (s : State) : Prop where
  wf : s.input.Wf
  delivers : s.Delivers s.input.pending
  started : ∀ p c, s.call p = some c → c.got.length ≤ c.n.toNat

theorem Inv.key (h : s.Inv) (c : Nat) : (s.key c).Inv := by
  obtain ⟨hwf, hspares⟩ := h.wf.key c
  refine ⟨hwf, ⟨?_, h.delivers.bytes, h.delivers.got, h.delivers.fits, h.delivers.eofs⟩, h.started⟩
  change s.committed ++ _ = s.delivered.map _ ++ (s.input.key c).pending
  rw [hspares.pending, ← List.append_assoc, ← h.delivers.order]

theorem Inv.intr (h : s.Inv) (cs : List Nat) : (cs.foldl State.key s).Inv := by
  induction cs generalizing s with
  | nil => exact h
  | cons c cs ih => exact ih (h.key c)

theorem call_give (s : State) (p : Nat) (c : Call) (bs : List UInt8) (x : Input) :
    (s.give p c bs x).call = update s.call p (some { c with got := c.got ++ bs }) := rfl

theorem call_finish (s : State) (p : Nat) (d : Done) : (s.finish p d).call = update s.call p none := rfl

theorem gotBy_give (s : State) (p q : Nat) (c : Call) (bs : List UInt8) (x : Input) :
    (s.give p c bs x).gotBy q = s.gotBy q ++ if p = q then bs else [] := by
  simp only [give, gotBy, List.filter_append, List.filterMap_append, List.filter_map, List.filterMap_map]
  split_ifs with hpq
  · simp [Function.comp_def, hpq]
  · simp [Function.comp_def, hpq]

theorem readBy_give (s : State) (p q : Nat) (c : Call) (bs : List UInt8) (x : Input)
    (hgot : (s.call p).elim [] Call.got = c.got) :
    (s.give p c bs x).readBy q = s.readBy q ++ if p = q then bs else [] := by
  unfold readBy
  split_ifs with hpq
  · subst hpq
    simp only [give, update_self, Option.elim_some, hgot, List.append_assoc]
  · simp only [give, update_of_ne (Ne.symm hpq), List.append_nil]

theorem Delivers.give {p : Nat} {c : Call} {bs rest : List UInt8} (h : s.Delivers (bs ++ rest))
    (hbs : ∀ b ∈ bs, b ≠ 4) (hgot : (s.call p).elim [] Call.got = c.got) (x : Input) :
    (s.give p c bs x).Delivers rest := by
  have hmap : (bs.map fun b => (p, some b)).map (fun x => x.2.getD 4) = bs := by
    rw [List.map_map]
    exact List.map_id bs
  have hnone : (bs.map fun b => (p, some b)).filter (fun x => x.2 = none) = [] := by
    rw [List.filter_map]
    simp [Function.comp_def]
  constructor
  · change s.committed = (s.delivered ++ _).map _ ++ rest
    rw [List.map_append, hmap, List.append_assoc]
    exact h.order
  · rintro y hy
    obtain hy | hy := List.mem_append.mp hy
    · exact h.bytes y hy
    · obtain ⟨b, hb, rfl⟩ := List.mem_map.mp hy
      exact fun heq => hbs b hb (Option.some.inj heq)
  · intro q
    rw [gotBy_give, readBy_give s p q c bs x hgot, h.got q]
  · exact h.fits
  · change ((s.delivered ++ _).filter _).map _ = _
    rw [List.filter_append, hnone, List.append_nil]
    exact h.eofs

theorem gotBy_finish (s : State) (p q : Nat) (d : Done) : (s.finish p d).gotBy q = s.gotBy q := by
  simp only [finish, gotBy, List.filter_append, List.filterMap_append]
  split_ifs
  · by_cases hpq : p = q <;> simp [hpq]
  · simp

theorem readBy_finish (s : State) (p q : Nat) (d : Done)
    (hgot : (s.call p).elim [] Call.got = d.got) : (s.finish p d).readBy q = s.readBy q := by
  unfold readBy
  simp only [finish, List.filter_append, List.flatMap_append]
  by_cases hpq : q = p
  · subst hpq
    rw [update_self, hgot]
    simp
  · have hqp : ¬ p = q := fun h => hpq h.symm
    rw [update_of_ne hpq]
    simp [hqp]

theorem Delivers.finish {p : Nat} {d : Done} {rest : List UInt8}
    (h : s.Delivers ((if d.stop = .eof then [4] else []) ++ rest))
    (hgot : (s.call p).elim [] Call.got = d.got) (hfits : d.stop.Fits d.n d.got d.result) :
    (s.finish p d).Delivers rest := by
  constructor
  · change s.committed = (s.delivered ++ _).map _ ++ rest
    rw [h.order, List.map_append, List.append_assoc]
    split_ifs <;> rfl
  · rintro y hy
    obtain hy | hy := List.mem_append.mp hy
    · exact h.bytes y hy
    · split_ifs at hy
      · rw [List.mem_singleton.mp hy]
        nofun
      · cases hy
  · intro q
    rw [gotBy_finish, readBy_finish s p q d hgot, h.got q]
  · rintro y hy
    obtain hy | hy := List.mem_append.mp hy
    · exact h.fits y hy
    · rw [List.mem_singleton.mp hy]
      exact hfits
  · change ((s.delivered ++ _).filter _).map _ = ((s.finished ++ _).filter _).map _
    rw [List.filter_append, List.filter_append, List.map_append, List.map_append, h.eofs]
    by_cases heof : d.stop = .eof <;> simp [heof]

theorem Inv.run (h : s.Inv) {p : Nat} {c : Call} (hlen : c.got.length ≤ c.n.toNat)
    (hgot : (s.call p).elim [] Call.got = c.got) (killed : Bool) : (s.run p c killed).Inv := by
  obtain ⟨x, bs, stop, hloop, hwf, hpending, hbs, hmost, hfits⟩ :=
    readLoop_spec (n := c.n) killed (c.n.toNat - c.got.length) s.input c.got h.wf (by omega)
  have hgive : (s.give p c bs x).Delivers (taken stop ++ x.pending) := by
    refine .give ?_ hbs hgot x
    rw [← List.append_assoc, ← hpending]
    exact h.delivers
  have hcall : ((s.give p c bs x).call p).elim [] Call.got = c.got ++ bs := by
    rw [call_give, update_self, Option.elim_some]
  have hstarted : ∀ q c', (s.give p c bs x).call q = some c' → c'.got.length ≤ c'.n.toNat := by
    intro q c' hq
    by_cases hqp : q = p
    · subst hqp
      rw [call_give, update_self] at hq
      cases hq
      exact hmost
    · rw [call_give, update_of_ne hqp] at hq
      exact h.started q c' hq
  unfold State.run
  rw [hloop]
  dsimp only
  rw [List.drop_left]
  cases stop with
  | none => exact ⟨hwf, hgive, hstarted⟩
  | some sr =>
    obtain ⟨st, result⟩ := sr
    refine ⟨hwf, .finish ?_ hcall (hfits st result rfl), fun q c' hq => ?_⟩
    · cases st <;> exact hgive
    · refine hstarted q c' ?_
      change (State.finish _ p _).call q = some c' at hq
      rw [call_finish] at hq
      have hqp : q ≠ p := by
        rintro rfl
        rw [update_self] at hq
        cases hq
      rwa [update_of_ne hqp] at hq

theorem Inv.step (h : s.Inv) {a : Act} (hstep : s.step a = some s') : s'.Inv := by
  cases a with
  | intr cs =>
    cases hstep
    exact h.intr cs
  | read p n killed =>
    obtain ⟨hidle, ⟨⟩⟩ := Option.ite_none_right_eq_some.mp hstep
    exact h.run (Nat.zero_le _) (by rw [hidle]; rfl) killed
  | wake p killed =>
    obtain ⟨c, hc, rfl⟩ := Option.map_eq_some_iff.mp hstep
    exact h.run (h.started p c hc) (by rw [hc]; rfl) killed

theorem Inv.init : init.Inv where
  wf := ⟨le_rfl, Nat.zero_le _⟩
  delivers := ⟨rfl, nofun, fun _ => rfl, nofun, rfl⟩
  started := nofun

end State

/-- **The line discipline.** In every state that interrupts and calls of `consoleread` reach, the
counters are in order within one turn of the buffer; no key changes a byte in front of `w`, and those
for editing do not commit any either; and what readers have got is what has been committed, in its order
and each byte once, with an empty read for each ^D. -/
theorem line_discipline {s : State} (hrun : Reaches State.step (fun _ _ => True) State.init s) :
    ((s.input.w - s.input.r).toNat ≤ (s.input.e - s.input.r).toNat ∧
      (s.input.e - s.input.r).toNat ≤ inputBuf) ∧
    (∀ c, s.input.pending <+: (s.input.key c).pending) ∧
    (∀ c, c = 8 ∨ c = 127 ∨ c = 21 → (s.input.key c).pending = s.input.pending) ∧
    s.Delivers s.input.pending := by
  have h : s.Inv := hrun.invariant .init fun _ _ _ h _ hstep => h.step hstep
  refine ⟨⟨h.wf.le, h.wf.full⟩, fun c => ?_, fun c hc => ?_, h.delivers⟩
  · rw [(h.wf.key c).2.pending]
    exact List.prefix_append ..
  · exact h.wf.edit hc

/-- A line with a correction, and a ^D behind it: one process gets the line, the other nothing. -/
theorem line_discipline_session : ∃ s, Reaches State.step (fun _ _ => True) State.init s ∧
    s.delivered = [(1, some 104), (1, some 105), (1, some 10), (2, none)] ∧ s.Delivers s.input.pending := by
  have hrun : ((runActs State.step (fun _ _ => True)
      [.intr [104, 111, 127, 105, 13, 4], .read 1 10 false, .read 2 10 false] State.init).map
        State.delivered) = some [(1, some 104), (1, some 105), (1, some 10), (2, none)] := by
    decide +kernel
  obtain ⟨s, hreach, heq⟩ := Reaches.of_map hrun
  exact ⟨s, hreach, heq, (line_discipline hreach).2.2.2⟩

end Xv6.Console
