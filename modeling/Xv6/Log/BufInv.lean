import Xv6.Log.Protocol
import Xv6.Lib.Count

/-!
# The buffer cache holds what it should

Every buffer agrees with the references that the processes have to it. A buffer that no process is
changing holds the contents of its block: those on disk, or the logged ones when it is dirty.
-/

namespace Xv6.Log

open Function (update update_self update_of_ne)

variable {n : Nat}

def Current (disk view : Disk) (x : Buf n) (bn : Blockno) : Prop :=
  x.data = if x.dirty then view bn else disk bn

namespace Phase

def Correct (view : Disk) (lh : List Blockno) (d : Data) : Phase → Prop
  | .copied bn => d = view bn
  | .header => decode d = lh
  | _ => True

theorem Own.locked {ph : Phase} (hown : ph.Own) : ph.Locked := by
  cases ph <;> first | exact hown | trivial

theorem Filled.locked {ph : Phase} (hfilled : ph.Filled) : ph.Locked := by
  cases ph <;> first | exact hfilled | trivial

theorem correct_of_not_own {view : Disk} {lh : List Blockno} {d : Data} {ph : Phase}
    (hown : ¬ ph.Own) : ph.Correct view lh d := by
  cases ph <;> first | exact absurd trivial hown | trivial

end Phase

def Holds.refs (b : BufId) (h : Holds) : Nat := if (h b).isSome then 1 else 0

def setHold (H : Fin n → Holds) (p : Fin n) (b : BufId) (y : Option (Blockno × Phase)) : Fin n → Holds :=
  update H p (update (H p) b y)

def NoCopies (H : Fin n → Holds) : Prop :=
  ∀ p b x, H p b = some x → x.2 ≠ .header ∧ ∀ bn, x.2 ≠ .copied bn

structure BufInv (buf : BufId → Buf n) (lru : List BufId) (disk view : Disk) (lh : List Blockno)
    (H : Fin n → Holds) : Prop where
  lru : ∀ b, b ∈ lru
  uniq : ∀ b c bn, (buf b).blockno = some bn → (buf c).blockno = some bn → b = c
  refcnt : ∀ b, (buf b).refcnt = ∑ p, (H p).refs b
  blockno : ∀ p b x, H p b = some x → (buf b).blockno = some x.1
  lock : ∀ p b, (buf b).lock = some p ↔ ∃ x, H p b = some x ∧ x.2.Locked
  filled : ∀ p b x, H p b = some x → x.2.Filled → (buf b).valid = true
  dirty : ∀ b, (buf b).dirty = true → (buf b).valid = true
  own : ∀ p b x, H p b = some x → x.2.Correct view lh (buf b).data
  clean : ∀ b bn, (buf b).valid = true → (buf b).blockno = some bn →
    (∀ p x, H p b = some x → ¬ x.2.Own) → Current disk view (buf b) bn

section Holds

variable {H : Fin n → Holds} {p q : Fin n} {b c : BufId} {y : Option (Blockno × Phase)}

theorem setHold_self : setHold H p b y p b = y := by
  unfold setHold
  rw [update_self, update_self]

theorem setHold_of_ne_buf (hc : c ≠ b) : setHold H p b y q c = H q c := by
  unfold setHold
  by_cases hq : q = p
  · rw [hq, update_self, update_of_ne hc]
  · rw [update_of_ne hq]

theorem setHold_of_ne (hq : q ≠ p) : setHold H p b y q c = H q c := by
  unfold setHold
  rw [update_of_ne hq]

theorem sum_refs_of_ne (hc : c ≠ b) : ∑ q, (setHold H p b y q).refs c = ∑ q, (H q).refs c := by
  refine Finset.sum_congr rfl fun q _ => ?_
  unfold Holds.refs
  rw [setHold_of_ne_buf hc]

theorem sum_refs_set : ∑ q, (setHold H p b y q).refs b + (H p).refs b
    = ∑ q, (H q).refs b + if y.isSome then 1 else 0 := by
  have hsum := sum_update_add (Holds.refs b) H p (update (H p) b y)
  have hnew : Holds.refs b (update (H p) b y) = if y.isSome then 1 else 0 := by
    unfold Holds.refs
    rw [update_self]
  rw [hnew] at hsum
  exact hsum

end Holds

namespace BufInv

variable {buf : BufId → Buf n} {lru : List BufId} {disk view disk' view' : Disk}
  {lh lh' : List Blockno} {H : Fin n → Holds} {p q : Fin n} {b c : BufId} {bn : Blockno}
  {ph ph' : Phase} {x : Buf n}

section

variable (hinv : BufInv buf lru disk view lh H)
include hinv

/-- While `p` has the lock of `b`, or while nobody has it, the others only have references. -/
theorem others (hheld : H p b = some (bn, ph)) (hexcl : ph.Locked ∨ (buf b).lock = none) (hq : q ≠ p)
    {y : Blockno × Phase} (hy : H q b = some y) : ¬ y.2.Locked := by
  intro hlocked
  have hlockq := (hinv.lock q b).mpr ⟨y, hy, hlocked⟩
  cases hexcl with
  | inl hph =>
    have hlockp := (hinv.lock p b).mpr ⟨(bn, ph), hheld, hph⟩
    exact hq (Option.some.inj (hlockq.symm.trans hlockp))
  | inr hnone =>
    rw [hnone] at hlockq
    cases hlockq

theorem current (hheld : H p b = some (bn, ph)) (hexcl : ph.Locked ∨ (buf b).lock = none)
    (hown : ¬ ph.Own) (hvalid : (buf b).valid = true) : Current disk view (buf b) bn := by
  refine hinv.clean b bn hvalid (hinv.blockno p b _ hheld) fun q y hy => ?_
  by_cases hq : q = p
  · subst hq
    rw [hheld] at hy
    cases hy
    exact hown
  · exact fun hyown => hinv.others hheld hexcl hq hy hyown.locked

theorem ne_of_ne (hb : (buf b).blockno = some bn) (hc : c ≠ b) {bn' : Blockno}
    (hbn' : (buf c).blockno = some bn') : bn' ≠ bn := by
  rintro rfl
  exact hc (hinv.uniq c b bn' hbn' hb)

/-- Process `p` changes a buffer that it has, or gets, the lock of. -/
theorem touch (hheld : H p b = some (bn, ph)) (hexcl : ph.Locked ∨ (buf b).lock = none)
    (hblockno : x.blockno = (buf b).blockno)
    (hrefcnt : x.refcnt = (buf b).refcnt) (hlock : ∀ q, x.lock = some q ↔ q = p ∧ ph'.Locked)
    (hfilled : ph'.Filled → x.valid = true) (hdirty : x.dirty = true → x.valid = true)
    (hown : ph'.Correct view' lh' x.data) (hclean : x.valid = true → ¬ ph'.Own → Current disk' view' x bn)
    (hdisk : ∀ c, c ≠ bn → disk' c = disk c) (hview : ∀ c, c ≠ bn → view' c = view c)
    (hcopies : (view' = view ∧ lh' = lh) ∨ NoCopies H) :
    BufInv (update buf b x) lru disk' view' lh' (setHold H p b (some (bn, ph'))) := by
  have hbn : (buf b).blockno = some bn := hinv.blockno p b _ hheld
  have hblock : ∀ c, (update buf b x c).blockno = (buf c).blockno := fun c => by
    by_cases hc : c = b
    · rw [hc, update_self, hblockno]
    · rw [update_of_ne hc]
  -- what a process knows of a buffer: the new fact, or an old one
  have hcases : ∀ q c y, setHold H p b (some (bn, ph')) q c = some y →
      (q = p ∧ c = b ∧ y = (bn, ph')) ∨ (c = b ∧ H q b = some y ∧ ¬ y.2.Locked) ∨
        (c ≠ b ∧ H q c = some y) := fun q c y hy => by
    by_cases hc : c = b
    · subst hc
      by_cases hq : q = p
      · subst hq
        rw [setHold_self] at hy
        exact .inl ⟨rfl, rfl, (Option.some.inj hy).symm⟩
      · rw [setHold_of_ne hq] at hy
        exact .inr (.inl ⟨rfl, hy, hinv.others hheld hexcl hq hy⟩)
    · rw [setHold_of_ne_buf hc] at hy
      exact .inr (.inr ⟨hc, hy⟩)
  refine ⟨hinv.lru, fun c d bn' hc hd => ?_, fun c => ?_, fun q c y hy => ?_, fun q c => ?_,
    fun q c y hy hf => ?_, fun c hd => ?_, fun q c y hy => ?_, fun c bn' hvalid hbn' hnot => ?_⟩
  · rw [hblock] at hc hd
    exact hinv.uniq c d bn' hc hd
  · by_cases hc : c = b
    · subst hc
      have hsum := sum_refs_set (H := H) (p := p) (b := c) (y := some (bn, ph'))
      have hone : (H p).refs c = 1 := by
        unfold Holds.refs
        rw [hheld]
        rfl
      rw [hone] at hsum
      rw [update_self, hrefcnt, hinv.refcnt c]
      exact (Nat.add_right_cancel hsum).symm
    · rw [update_of_ne hc, sum_refs_of_ne hc, hinv.refcnt c]
  · rw [hblock]
    obtain ⟨rfl, rfl, rfl⟩ | ⟨rfl, hold, -⟩ | ⟨-, hold⟩ := hcases q c y hy
    · exact hbn
    · exact hinv.blockno q c y hold
    · exact hinv.blockno q c y hold
  · by_cases hc : c = b
    · subst hc
      rw [update_self, hlock]
      constructor
      · rintro ⟨rfl, hlocked⟩
        exact ⟨(bn, ph'), setHold_self, hlocked⟩
      · rintro ⟨y, hy, hlocked⟩
        obtain ⟨rfl, -, rfl⟩ | ⟨-, -, hnot⟩ | ⟨hne, -⟩ := hcases q c y hy
        · exact ⟨rfl, hlocked⟩
        · exact absurd hlocked hnot
        · exact absurd rfl hne
    · rw [update_of_ne hc, setHold_of_ne_buf hc]
      exact hinv.lock q c
  · obtain ⟨rfl, rfl, rfl⟩ | ⟨rfl, -, hnot⟩ | ⟨hne, hold⟩ := hcases q c y hy
    · rw [update_self]
      exact hfilled hf
    · exact absurd hf.locked hnot
    · rw [update_of_ne hne]
      exact hinv.filled q c y hold hf
  · by_cases hc : c = b
    · subst hc
      rw [update_self] at hd ⊢
      exact hdirty hd
    · rw [update_of_ne hc] at hd ⊢
      exact hinv.dirty c hd
  · obtain ⟨rfl, rfl, rfl⟩ | ⟨rfl, -, hnot⟩ | ⟨hne, hold⟩ := hcases q c y hy
    · rw [update_self]
      exact hown
    · exact Phase.correct_of_not_own fun hyown => hnot hyown.locked
    · rw [update_of_ne hne]
      cases hcopies with
      | inl hsame =>
        rw [hsame.1, hsame.2]
        exact hinv.own q c y hold
      | inr hno =>
        have hy' := hno q c y hold
        cases hph : y.2 with
        | copied bn' => exact absurd hph (hy'.2 bn')
        | header => exact absurd hph hy'.1
        | _ => trivial
  · by_cases hc : c = b
    · subst hc
      rw [hblock, hbn] at hbn'
      cases hbn'
      rw [update_self] at hvalid ⊢
      exact hclean hvalid (hnot p (bn, ph') setHold_self)
    · rw [update_of_ne hc] at hvalid hbn' ⊢
      have hne := hinv.ne_of_ne hbn hc hbn'
      unfold Current
      rw [hdisk bn' hne, hview bn' hne]
      refine hinv.clean c bn' hvalid hbn' fun q y hy => hnot q y ?_
      rw [setHold_of_ne_buf hc]
      exact hy

theorem refer {lru' : List BufId} {k : Nat} {y : Option (Blockno × Phase)} (hlru : ∀ c, c ∈ lru')
    (hold : ∀ x, H p b = some x → ¬ x.2.Locked)
    (hnew : ∀ x, y = some x → x.2 = .ref ∧ (buf b).blockno = some x.1)
    (hk : k + (H p).refs b = (buf b).refcnt + if y.isSome then 1 else 0) :
    BufInv (update buf b { buf b with refcnt := k }) lru' disk view lh (setHold H p b y) := by
  have hsame : ∀ c, (update buf b { buf b with refcnt := k } c).blockno = (buf c).blockno ∧
      (update buf b { buf b with refcnt := k } c).lock = (buf c).lock ∧
      (update buf b { buf b with refcnt := k } c).valid = (buf c).valid ∧
      (update buf b { buf b with refcnt := k } c).dirty = (buf c).dirty ∧
      (update buf b { buf b with refcnt := k } c).data = (buf c).data := fun c => by
    by_cases hc : c = b
    · rw [hc, update_self]
      exact ⟨rfl, rfl, rfl, rfl, rfl⟩
    · rw [update_of_ne hc]
      exact ⟨rfl, rfl, rfl, rfl, rfl⟩
  -- a reference without the lock says nothing about the buffer but its block
  have hcases : ∀ q c x, setHold H p b y q c = some x →
      (c = b ∧ x.2 = .ref ∧ (buf b).blockno = some x.1) ∨ H q c = some x := fun q c x hx => by
    by_cases hc : c = b
    · subst hc
      by_cases hq : q = p
      · subst hq
        rw [setHold_self] at hx
        exact .inl ⟨rfl, hnew x hx⟩
      · rw [setHold_of_ne hq] at hx
        exact .inr hx
    · rw [setHold_of_ne_buf hc] at hx
      exact .inr hx
  have hkeep : ∀ q c x, H q c = some x → x.2.Locked → setHold H p b y q c = some x :=
    fun q c x hx hlocked => by
      by_cases hc : c = b
      · subst hc
        by_cases hq : q = p
        · subst hq
          exact absurd hlocked (hold x hx)
        · rw [setHold_of_ne hq]
          exact hx
      · rw [setHold_of_ne_buf hc]
        exact hx
  refine ⟨hlru, fun c d bn' hc hd => ?_, fun c => ?_, fun q c x hx => ?_, fun q c => ?_,
    fun q c x hx hf => ?_, fun c hd => ?_, fun q c x hx => ?_, fun c bn' hvalid hbn' hnot => ?_⟩
  · rw [(hsame _).1] at hc hd
    exact hinv.uniq c d bn' hc hd
  · by_cases hc : c = b
    · subst hc
      have hsum := sum_refs_set (H := H) (p := p) (b := c) (y := y)
      have hrefcnt := hinv.refcnt c
      rw [update_self]
      change k = _
      omega
    · rw [update_of_ne hc, sum_refs_of_ne hc, hinv.refcnt c]
  · rw [(hsame c).1]
    obtain ⟨rfl, -, hbn⟩ | hx' := hcases q c x hx
    · exact hbn
    · exact hinv.blockno q c x hx'
  · rw [(hsame c).2.1, hinv.lock q c]
    constructor
    · rintro ⟨x, hx, hlocked⟩
      exact ⟨x, hkeep q c x hx hlocked, hlocked⟩
    · rintro ⟨x, hx, hlocked⟩
      obtain ⟨-, href, -⟩ | hx' := hcases q c x hx
      · rw [href] at hlocked
        exact hlocked.elim
      · exact ⟨x, hx', hlocked⟩
  · rw [(hsame c).2.2.1]
    obtain ⟨-, href, -⟩ | hx' := hcases q c x hx
    · rw [href] at hf
      exact hf.elim
    · exact hinv.filled q c x hx' hf
  · rw [(hsame c).2.2.2.1] at hd
    rw [(hsame c).2.2.1]
    exact hinv.dirty c hd
  · rw [(hsame c).2.2.2.2]
    obtain ⟨-, href, -⟩ | hx' := hcases q c x hx
    · rw [href]
      trivial
    · exact hinv.own q c x hx'
  · rw [(hsame c).2.2.1] at hvalid
    rw [(hsame c).1] at hbn'
    unfold Current
    rw [(hsame c).2.2.2.1, (hsame c).2.2.2.2]
    refine hinv.clean c bn' hvalid hbn' fun q x hx hown => ?_
    exact hnot q x (hkeep q c x hx hown.locked) hown

theorem unreferenced (hrefcnt : (buf b).refcnt = 0) (q : Fin n) : H q b = none := by
  have hle := le_sum (fun q => (H q).refs b) q
  rw [← hinv.refcnt b, hrefcnt] at hle
  unfold Holds.refs at hle
  by_contra hne
  rw [if_pos (Option.isSome_iff_ne_none.mpr hne)] at hle
  exact absurd hle (by decide)

theorem recycle (hrefcnt : (buf b).refcnt = 0) (hnone : ∀ c, (buf c).blockno ≠ some bn) :
    BufInv (update buf b { buf b with
      blockno := some bn, valid := false, dirty := false, refcnt := 1 }) lru disk view lh
      (setHold H p b (some (bn, .ref))) := by
  have hunref := hinv.unreferenced hrefcnt
  have hlock : (buf b).lock = none := by
    cases hb : (buf b).lock with
    | none => rfl
    | some q =>
      obtain ⟨x, hx, -⟩ := (hinv.lock q b).mp hb
      rw [hunref q] at hx
      cases hx
  have hcases : ∀ q c x, setHold H p b (some (bn, .ref)) q c = some x →
      (c = b ∧ x = (bn, .ref)) ∨ (c ≠ b ∧ H q c = some x) := fun q c x hx => by
    by_cases hc : c = b
    · subst hc
      by_cases hq : q = p
      · subst hq
        rw [setHold_self] at hx
        exact .inl ⟨rfl, (Option.some.inj hx).symm⟩
      · rw [setHold_of_ne hq, hunref q] at hx
        cases hx
    · rw [setHold_of_ne_buf hc] at hx
      exact .inr ⟨hc, hx⟩
  refine ⟨hinv.lru, fun c d bn' hc hd => ?_, fun c => ?_, fun q c x hx => ?_, fun q c => ?_,
    fun q c x hx hf => ?_, fun c hd => ?_, fun q c x hx => ?_, fun c bn' hvalid hbn' hnot => ?_⟩
  · by_cases hcb : c = b
    · by_cases hdb : d = b
      · rw [hcb, hdb]
      · rw [hcb, update_self] at hc
        rw [update_of_ne hdb, ← hc] at hd
        exact absurd hd (hnone d)
    · rw [update_of_ne hcb] at hc
      by_cases hdb : d = b
      · rw [hdb, update_self] at hd
        rw [← hd] at hc
        exact absurd hc (hnone c)
      · rw [update_of_ne hdb] at hd
        exact hinv.uniq c d bn' hc hd
  · by_cases hc : c = b
    · subst hc
      have hsum := sum_refs_set (H := H) (p := p) (b := c) (y := some (bn, .ref))
      have hold := le_sum (fun q => (H q).refs c) p
      rw [← hinv.refcnt c, hrefcnt] at hsum hold
      rw [update_self]
      simp only [Option.isSome_some, if_true] at hsum
      change 1 = _
      omega
    · rw [update_of_ne hc, sum_refs_of_ne hc, hinv.refcnt c]
  · obtain ⟨rfl, rfl⟩ | ⟨hc, hx'⟩ := hcases q c x hx
    · rw [update_self]
    · rw [update_of_ne hc]
      exact hinv.blockno q c x hx'
  · by_cases hc : c = b
    · subst hc
      rw [update_self]
      change (buf c).lock = some q ↔ _
      rw [hlock]
      refine ⟨nofun, ?_⟩
      rintro ⟨x, hx, hlocked⟩
      obtain ⟨-, rfl⟩ | ⟨hne, -⟩ := hcases q c x hx
      · exact hlocked.elim
      · exact absurd rfl hne
    · rw [update_of_ne hc, setHold_of_ne_buf hc]
      exact hinv.lock q c
  · obtain ⟨rfl, rfl⟩ | ⟨hc, hx'⟩ := hcases q c x hx
    · exact hf.elim
    · rw [update_of_ne hc]
      exact hinv.filled q c x hx' hf
  · by_cases hc : c = b
    · rw [hc, update_self] at hd
      cases hd
    · rw [update_of_ne hc] at hd ⊢
      exact hinv.dirty c hd
  · obtain ⟨rfl, rfl⟩ | ⟨hc, hx'⟩ := hcases q c x hx
    · trivial
    · rw [update_of_ne hc]
      exact hinv.own q c x hx'
  · by_cases hc : c = b
    · rw [hc, update_self] at hvalid
      cases hvalid
    · rw [update_of_ne hc] at hvalid hbn' ⊢
      refine hinv.clean c bn' hvalid hbn' fun q x hx => hnot q x ?_
      rw [setHold_of_ne_buf hc]
      exact hx

theorem header (hno : NoCopies H) : BufInv buf lru disk view lh' H where
  lru := hinv.lru
  uniq := hinv.uniq
  refcnt := hinv.refcnt
  blockno := hinv.blockno
  lock := hinv.lock
  filled := hinv.filled
  dirty := hinv.dirty
  own q c y hold := by
    have hy := hno q c y hold
    cases hph : y.2 with
    | copied bn => exact absurd hph (hy.2 bn)
    | header => exact absurd hph hy.1
    | _ => trivial
  clean := hinv.clean

end

theorem unused (disk view : Disk) :
    BufInv (fun _ => (Buf.unused : Buf n)) (List.finRange nbuf).reverse disk view [] fun _ _ => none where
  lru b := List.mem_reverse.mpr (List.mem_finRange b)
  uniq _ _ _ := nofun
  refcnt b := (Finset.sum_eq_zero fun _ _ => rfl).symm
  blockno _ _ _ := nofun
  lock p b := ⟨nofun, fun ⟨_, hx, _⟩ => by cases hx⟩
  filled _ _ _ := nofun
  dirty _ := nofun
  own _ _ _ := nofun
  clean _ _ := nofun

end BufInv

end Xv6.Log
