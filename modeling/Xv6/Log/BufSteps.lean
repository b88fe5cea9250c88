import Xv6.Log.LogInv

/-!
# The steps of `bio.c` keep the invariant

None of them but the write of a block, which is with the log, changes the disk, the log, or which
blocks are pinned.
-/

namespace Xv6.Log

open Function (update)

open Local

variable {n : Nat} {s s' : State n} {T : Fin n → Local} {p : Fin n} {b : BufId}

namespace Inv

section

variable (hinv : Inv s T)
include hinv

variable {bn : Blockno}

theorem touch {ph ph' : Phase} {x : Buf n} (hheld : (T p).held b = some (bn, ph))
    (hexcl : ph.Locked ∨ (s.buf b).lock = none)
    (hblockno : x.blockno = (s.buf b).blockno) (hrefcnt : x.refcnt = (s.buf b).refcnt)
    (hdirty : x.dirty = (s.buf b).dirty) (hlock : ∀ q, x.lock = some q ↔ q = p ∧ ph'.Locked)
    (hvalid : (s.buf b).valid = true → x.valid = true) (hfilled : ph'.Filled → x.valid = true)
    (hown : ph'.Correct s.view s.lh x.data)
    (hclean : x.valid = true → ¬ ph'.Own → Current s.disk s.view x bn) :
    Inv (s.setBuf b x) (update T p ((T p).setPhase b ph')) := by
  rw [setPhase_eq hheld]
  refine hinv.setHeld ?_ (fun _ => dirty_setBuf hdirty fun _ => hblockno) (hinv.log.role_ne_out hheld)
  refine hinv.buf.touch hheld hexcl hblockno hrefcnt hlock hfilled (fun hd => ?_) hown hclean
    (fun _ _ => rfl) (fun _ _ => rfl) (.inl ⟨rfl, rfl⟩)
  rw [hdirty] at hd
  exact hvalid (hinv.buf.dirty b hd)

theorem lock_eq {ph : Phase} (hheld : (T p).held b = some (bn, ph))
    (hlocked : ph.Locked) : (s.buf b).lock = some p :=
  (hinv.buf.lock p b).mpr ⟨(bn, ph), hheld, hlocked⟩

theorem lock_iff {ph ph' : Phase} (hheld : (T p).held b = some (bn, ph))
    (hlocked : ph.Locked) (hlocked' : ph'.Locked) (q : Fin n) :
    (s.buf b).lock = some q ↔ q = p ∧ ph'.Locked := by
  rw [hinv.lock_eq hheld hlocked]
  constructor
  · rintro ⟨⟩
    exact ⟨rfl, hlocked'⟩
  · rintro ⟨rfl, -⟩
    rfl

theorem acquiresleep (hpre : logPre (.acquiresleep b) (T p))
    (hexec : State.exec p (.acquiresleep b) s = some ((), s')) :
    Inv s' (update T p ((T p).setPhase b .locked)) := by
  obtain ⟨bn, hheld⟩ := hpre
  by_cases hlock : (s.buf b).lock = none
  · rw [State.exec, if_pos hlock] at hexec
    cases hexec
    refine hinv.touch hheld (.inr hlock) rfl rfl rfl (fun q => ?_) id nofun trivial
      fun hvalid _ => hinv.buf.current hheld (.inr hlock) id hvalid
    constructor
    · rintro ⟨⟩
      exact ⟨rfl, trivial⟩
    · rintro ⟨rfl, -⟩
      rfl
  · simp only [State.exec, if_neg hlock] at hexec
    cases hexec

theorem fill (hpre : logPre (.fill b) (T p)) (hexec : State.exec p (.fill b) s = some ((), s')) :
    Inv s' (update T p ((T p).setPhase b .filled)) := by
  obtain ⟨bn, hheld⟩ := hpre
  have hlock : ∀ q, (s.buf b).lock = some q ↔ q = p ∧ Phase.filled.Locked :=
    hinv.lock_iff hheld trivial trivial
  by_cases hvalid : (s.buf b).valid = true
  · rw [State.exec, if_pos hvalid] at hexec
    cases hexec
    have htouch : Inv (s.setBuf b (s.buf b)) (update T p ((T p).setPhase b .filled)) :=
      hinv.touch hheld (.inl trivial) rfl rfl rfl hlock id (fun _ => hvalid) trivial
        fun hvalid _ => hinv.buf.current hheld (.inl trivial) id hvalid
    have hself : s.setBuf b (s.buf b) = s := by
      unfold State.setBuf
      rw [Function.update_eq_self]
    rw [hself] at htouch
    exact htouch
  · have hclean : (s.buf b).dirty = false := by
      cases hd : (s.buf b).dirty with
      | false => rfl
      | true => exact absurd (hinv.buf.dirty b hd) hvalid
    have hread : s.iderw b = some (s.setBuf b { s.buf b with valid := true, data := s.disk bn }) := by
      have hbn := hinv.buf.blockno p b _ hheld
      have hp := hinv.lock_eq hheld trivial
      unfold State.iderw
      simp [hbn, hp, hvalid, hclean]
    rw [State.exec, if_neg hvalid, hread] at hexec
    cases hexec
    refine hinv.touch hheld (.inl trivial) rfl rfl rfl hlock (fun _ => rfl) (fun _ => rfl) trivial
      fun _ _ => ?_
    unfold Current
    rw [if_neg (by rw [hclean]; decide)]

theorem modify {f : Data → Data} {d : Data} (hpre : logPre (.modify b f) (T p))
    (hexec : State.exec p (.modify b f) s = some (d, s')) :
    Inv s' (update T p ((T p).setPhase b .changed)) := by
  obtain ⟨-, bn, hheld⟩ := hpre
  cases hexec
  exact hinv.touch hheld (.inl trivial) rfl rfl rfl (hinv.lock_iff hheld trivial trivial) id
    (fun _ => hinv.buf.filled p b _ hheld trivial) trivial fun _ hnot => absurd trivial hnot

theorem releasesleep (hpre : logPre (.releasesleep b) (T p))
    (hexec : State.exec p (.releasesleep b) s = some ((), s')) :
    Inv s' (update T p ((T p).setPhase b .ref)) := by
  obtain ⟨bn, hheld⟩ := hpre
  have hsome : (s.buf b).lock.isSome = true := by
    rw [hinv.lock_eq hheld trivial]
    rfl
  rw [State.exec, if_pos hsome] at hexec
  cases hexec
  exact hinv.touch hheld (.inl trivial) rfl rfl rfl (fun q => ⟨nofun, fun h => h.2.elim⟩) id nofun
    trivial fun hvalid _ => hinv.buf.current hheld (.inl trivial) id hvalid

theorem bput (hpre : logPre (.bput b) (T p)) : Inv (s.bput b) (update T p ((T p).setHeld b none)) := by
  obtain ⟨bn, hheld⟩ := hpre
  have hrole := hinv.log.role_ne_out hheld
  have hrefs : Holds.refs b (T p).held = 1 := by
    unfold Holds.refs
    rw [hheld]
    rfl
  have hle := le_sum (fun q => Holds.refs b (T q).held) p
  rw [← hinv.buf.refcnt b] at hle
  have hbuf : ∀ lru', (∀ c, c ∈ lru') → BufInv (update s.buf b
      { s.buf b with refcnt := (s.buf b).refcnt - 1 }) lru' s.disk s.view s.lh
        (setHold (fun q => (T q).held) p b none) := fun lru' hlru' => by
    refine hinv.buf.refer hlru' (fun x hx => ?_) nofun ?_
    · rw [hheld] at hx
      cases hx
      exact id
    · change (s.buf b).refcnt - 1 + Holds.refs b (T p).held = (s.buf b).refcnt + 0
      omega
  unfold State.bput
  split
  · refine hinv.setHeld (hbuf _ fun c => ?_) (fun _ => dirty_setBuf rfl fun _ => rfl) hrole
    by_cases hc : c = b
    · rw [hc]
      exact List.mem_cons_self
    · exact List.mem_cons_of_mem _ ((List.mem_erase_of_ne hc).mpr (hinv.buf.lru c))
  · exact hinv.setHeld (hbuf _ hinv.buf.lru) (fun _ => dirty_setBuf rfl fun _ => rfl) hrole

theorem bget (hpre : logPre (.bget bn) (T p)) (hexec : State.exec p (.bget bn) s = some (b, s')) :
    (T p).held b = none ∧ Inv s' (update T p ((T p).setHeld b (some (bn, .ref)))) := by
  obtain ⟨hrole, hfresh⟩ := hpre
  simp only [State.exec, State.bgetEntry] at hexec
  cases hfind : s.lru.find? fun c => (s.buf c).blockno = some bn with
  | some c =>
    rw [hfind] at hexec
    simp only [Option.some.injEq, Prod.mk.injEq] at hexec
    obtain ⟨rfl, rfl⟩ := hexec
    have hbn : (s.buf c).blockno = some bn := by simpa using List.find?_some hfind
    have hnone : (T p).held c = none := by
      cases hheld : (T p).held c with
      | none => rfl
      | some x =>
        have hx := hinv.buf.blockno p c x hheld
        rw [hbn] at hx
        exact absurd (Option.some.inj hx).symm (hfresh c x hheld)
    refine ⟨hnone, hinv.setHeld ?_ (fun _ => dirty_setBuf rfl fun _ => rfl) hrole⟩
    refine hinv.buf.refer hinv.buf.lru (fun x hx => ?_) (fun x hx => ?_) ?_
    · rw [hnone] at hx
      cases hx
    · cases hx
      exact ⟨rfl, hbn⟩
    · have hrefs : Holds.refs c (T p).held = 0 := by
        unfold Holds.refs
        rw [hnone]
        rfl
      rw [hrefs]
      rfl
  | none =>
    rw [hfind] at hexec
    simp only at hexec
    cases hlast : s.lru.reverse.find? fun c => (s.buf c).refcnt = 0 ∧ (s.buf c).dirty = false with
    | none =>
      rw [hlast] at hexec
      cases hexec
    | some c =>
      rw [hlast] at hexec
      simp only [Option.some.injEq, Prod.mk.injEq] at hexec
      obtain ⟨rfl, rfl⟩ := hexec
      obtain ⟨hrefcnt, hclean⟩ : (s.buf c).refcnt = 0 ∧ (s.buf c).dirty = false := by
        simpa using List.find?_some hlast
      have habsent : ∀ c, (s.buf c).blockno ≠ some bn := fun c => by
        simpa using List.find?_eq_none.mp hfind c (hinv.buf.lru c)
      refine ⟨hinv.buf.unreferenced hrefcnt p, hinv.setHeld (hinv.buf.recycle hrefcnt habsent)
        (fun _ => dirty_setBuf hclean.symm nofun) hrole⟩

theorem data_of_dirty (hheld : (T p).held b = some (bn, .filled))
    (hdirty : s.Dirty bn) : (s.buf b).data = s.view bn := by
  obtain ⟨c, hc, hd⟩ := hdirty
  obtain rfl : c = b := hinv.buf.uniq c b bn hc (hinv.buf.blockno p b _ hheld)
  have hcur := hinv.buf.current hheld (.inl trivial) id (hinv.buf.filled p c _ hheld trivial)
  unfold Current at hcur
  rw [if_pos hd] at hcur
  exact hcur

theorem data_of_clean (hheld : (T p).held b = some (bn, .filled))
    (hclean : ¬ s.Dirty bn) : (s.buf b).data = s.disk bn := by
  have hcur := hinv.buf.current hheld (.inl trivial) id (hinv.buf.filled p b _ hheld trivial)
  have hd : ¬ (s.buf b).dirty = true := fun hd =>
    hclean ⟨b, hinv.buf.blockno p b _ hheld, hd⟩
  unfold Current at hcur
  rw [if_neg hd] at hcur
  exact hcur

end

theorem not_home_log {A : List Blockno} (hwf : Wf A) {j : Nat} {bn : Blockno}
    (hj : A[j]? = some bn) : ¬ Home (logStart + j + 1) := by
  have hlt : j < A.length := (List.getElem?_eq_some_iff.mp hj).1
  have hlen := hwf.length
  unfold Home
  omega

theorem not_home_header : ¬ Home logStart := by
  unfold Home
  have hpos : 0 < logSize := by decide
  omega

theorem memmove (hinv : Inv s T) {src : BufId} (hpre : logPre (.memmove b src) (T p))
    (hexec : State.exec p (.memmove b src) s = some ((), s')) :
    Inv s' (update T p (logNext (.memmove b src) (T p) ())) := by
  obtain ⟨boot, tail, bn, hcur, hcases⟩ := hpre
  cases hexec
  have hnext : logNext (.memmove b src) (T p) () = (T p).setPhase b (.copied bn) := by
    change (T p).setPhase b (.copied (((T p).cur.map Prod.snd).getD 0)) = _
    rw [hcur]
    rfl
  have hcopy : ∀ bn₁, (T p).held b = some (bn₁, .filled) → (s.buf src).data = s.view bn →
      Inv (s.setBuf b { s.buf b with data := (s.buf src).data })
        (update T p ((T p).setPhase b (.copied bn))) := fun bn₁ hdst hdata =>
    hinv.touch hdst (.inl trivial) rfl rfl rfl (hinv.lock_iff hdst trivial trivial) id
      (fun _ => hinv.buf.filled p b _ hdst trivial) hdata fun _ hnot => absurd trivial hnot
  rw [hnext]
  obtain ⟨hrole, hdst, hsrc⟩ | ⟨hrole, hdst, hsrc⟩ := hcases
  · -- `write_log` copies a pinned block
    have hlh := hinv.log.cur p tail bn ⟨boot, _, hrole⟩ hcur
    have hsettled : Settled s := (hinv.log.stage p boot _ hrole).2.2.1
    exact hcopy _ hdst (hinv.data_of_dirty hsrc ((hsettled.dirty bn).mpr (List.mem_of_getElem? hlh)))
  · -- `install_trans` copies a block of the log, which is never dirty
    have hlh := hinv.log.cur p tail bn ⟨boot, _, hrole⟩ hcur
    have hredo : Redo s s.lh tail := (hinv.log.stage p boot _ hrole).2.2
    refine hcopy _ hdst ((hinv.data_of_clean hsrc fun hdirty => ?_).trans (hredo.logged tail bn hlh))
    exact not_home_log hredo.wf hlh (hredo.wf.home _ (List.mem_of_mem_drop (hredo.dirty _ hdirty)))

theorem setHead (hinv : Inv s T) (hpre : logPre (.setHead b) (T p))
    (hexec : State.exec p (.setHead b) s = some ((), s')) :
    Inv s' (update T p ((T p).setPhase b .header)) := by
  obtain ⟨-, hheld⟩ := hpre
  cases hexec
  exact hinv.touch hheld (.inl trivial) rfl rfl rfl (hinv.lock_iff hheld trivial trivial) id
    (fun _ => hinv.buf.filled p b _ hheld trivial) (decode_encode _ _) fun _ hnot => absurd trivial hnot

end Inv

end Xv6.Log
