import Xv6.Icache.Inv

/-!
# Soundness of the inode cache

When `iget` is called only for inodes that have links or that `ialloc` has just returned, a process
that frees an inode is the only one with a reference to it, and nobody ever looks at a freed inode.
-/

namespace Xv6.Icache

open Function (update update_self update_of_ne)

open State

variable {n : Nat}

namespace Pc

def Gone : Pc → Slot → Prop
  | .iputInvalid j, i | .iputRelease j, i | .iputDrop j, i => j = i
  | _, _ => False

instance (pc : Pc) (i : Slot) : Decidable (pc.Gone i) := by
  unfold Gone
  split <;> infer_instance

/-- In `iput`, having found no reference but its own. -/
def Freeing : Pc → Slot → Prop
  | .iputTrunc j, i | .iputTruncUpdate j, i | .iputType j, i | .iputTypeUpdate j, i => j = i
  | _, _ => False

theorem slot_of_gone {pc : Pc} {i : Slot} (hgone : pc.Gone i) : pc.slot = some i := by
  cases pc <;> first | exact hgone.elim | exact congrArg some hgone

theorem slot_of_freeing {pc : Pc} {i : Slot} (hfree : pc.Freeing i) : pc.slot = some i := by
  cases pc <;> first | exact hfree.elim | exact congrArg some hfree

theorem not_gone_of_freeing {pc : Pc} {i : Slot} (hfree : pc.Freeing i) : ¬ pc.Gone i := by
  cases pc <;> first | exact hfree.elim | exact id

end Pc

namespace State

variable (s : State n)

/-- `iget` is called for an inode with links: an entry of a linked directory is one of them. -/
def Named (a : Fin n × Act n) : Prop :=
  match a.2 with
  | .call (.iget k) => (s.disk k).type ≠ .free ∧ 0 < (s.disk k).nlink
  | _ => True

instance (a : Fin n × Act n) : Decidable (s.Named a) :=
  match a with
  | (_, .call (.iget k)) =>
      (inferInstance : Decidable ((s.disk k).type ≠ .free ∧ 0 < (s.disk k).nlink))
  | (_, .call (.idup _)) | (_, .call (.ilock _)) | (_, .call (.iunlock _)) | (_, .call (.iput _))
  | (_, .call (.ialloc ..)) | (_, .call (.update ..)) | (_, .call (.give ..)) | (_, .next _)
  | (_, .call (.writei ..)) => .isTrue trivial

def live (p : Fin n) (i : Slot) : Nat := s.refs p i - if (s.pc p).Gone i then 1 else 0

structure Live : Prop where
  inv : s.Inv
  live : ∀ p i, 0 < s.live p i → (s.dinode i).type ≠ .free
  alone : ∀ p i, (s.pc p).Freeing i → (s.inode i).ref = 1
  fresh : ∀ p k, s.pc p = .ialloc k → (s.disk k).type ≠ .free ∧ (s.disk k).nlink = 0
  unused : ∀ p k i q, s.pc p = .ialloc k → (s.inode i).key = k → 0 < (s.inode i).ref → s.live q i = 0
  once : ∀ p q k, s.pc p = .ialloc k → s.pc q = .ialloc k → p = q

end State

section Facts

variable {s : State n} {p q : Fin n} {i j : Slot} {k : Key}

theorem State.live_of_not_gone (hgone : ¬ (s.pc p).Gone i) : s.live p i = s.refs p i := by
  unfold State.live
  rw [if_neg hgone, Nat.sub_zero]

theorem State.Live.type_of_refs (hlive : s.Live) (hrefs : 0 < s.refs p i)
    (hgone : ¬ (s.pc p).Gone i) : (s.dinode i).type ≠ .free :=
  hlive.live p i (by rwa [live_of_not_gone hgone])

theorem State.Inv.dying_of_freeing (hinv : s.Inv) (hfree : (s.pc p).Freeing i) :
    s.Holds p i ∧ s.Dying i := by
  have hat := hinv.pc p
  have hclean {i : Slot} (hholds : s.Holds p i) := hinv.clean (.inl hholds)
  revert hfree hat hclean
  cases s.pc p with
  | iputTrunc j | iputType j =>
    rintro rfl ⟨hholds, hv, hnlink⟩ hclean
    obtain ⟨hfields, htype⟩ := hclean hholds id hv
    exact ⟨hholds, htype, hfields ▸ hnlink⟩
  | iputTruncUpdate j =>
    rintro rfl ⟨hholds, -, -, -, hdying⟩ -
    exact ⟨hholds, hdying⟩
  | iputTypeUpdate j =>
    rintro rfl ⟨hholds, -, -, hdying⟩ -
    exact ⟨hholds, hdying⟩
  | _ => exact fun h => h.elim

theorem State.Live.refs_of_freeing (hlive : s.Live) (hfree : (s.pc p).Freeing i) (hq : q ≠ p) :
    s.refs q i = 0 := by
  have hholds := (hlive.inv.dying_of_freeing hfree).1
  have hp := hlive.inv.held p i hholds
  have hsum := add_le_sum (fun r => s.refs r i) hq
  have hcount := hlive.inv.count i
  rw [hlive.alone p i hfree] at hcount
  omega

theorem State.Live.gone_of_fresh (hlive : s.Live) (hpc : s.pc q = .ialloc (s.inode i).key)
    (hrefs : 0 < s.refs p i) : (s.pc p).Gone i := by
  by_contra hgone
  have hzero := hlive.unused q _ i p hpc rfl (hlive.inv.ref_pos hrefs)
  rw [live_of_not_gone hgone] at hzero
  omega

end Facts

section Move

variable {s : State n} {p : Fin n} {i : Slot} {node : Inode n} {d : Dinode} {pc : Pc} {a : Act n}

theorem State.touch_live_of_ne {q : Fin n} (hq : q ≠ p) (j : Slot) :
    (s.touch p i node d pc).live q j = s.live q j := by
  unfold State.live
  rw [touch_pc_of_ne hq]
  rfl

theorem State.Move.gone (hmove : s.Move p i a node d pc) (hgone : (s.pc p).Gone i) :
    pc.Gone i ∧ d = s.dinode i := by
  cases hmove with
  | invalid | release => exact ⟨rfl, rfl⟩
  | _ =>
    rename_i hpc
    rw [hpc] at hgone
    exact hgone.elim

theorem State.Live.alone_of_move (hlive : s.Live) (hmove : s.Move p i a node d pc)
    (hfree : pc.Freeing i) : (s.inode i).ref = 1 := by
  cases hmove with
  | last hone => exact hone
  | trunc hpc | truncUpdate hpc | type hpc => exact hlive.alone p i (by rw [hpc]; rfl)
  | _ => exact hfree.elim

theorem State.Live.type_of_move (hlive : s.Live) (hmove : s.Move p i a node d pc) :
    d.type ≠ .free ∨ d = s.dinode i ∨ ((s.inode i).ref = 1 ∧ pc.Gone i) := by
  cases hmove with
  | truncUpdate hpc => exact .inl (hlive.inv.at_pc hpc).2.2.2.1
  | iupdate hpc => exact .inl (hlive.inv.at_pc hpc).2.2
  | typeUpdate hpc => exact .inr (.inr ⟨hlive.alone p i (by rw [hpc]; rfl), rfl⟩)
  | _ => exact .inr (.inl rfl)

theorem State.Live.move (hlive : s.Live) (hmove : s.Move p i a node d pc)
    (hinv : (s.touch p i node d pc).Inv) : (s.touch p i node d pc).Live := by
  obtain ⟨hown, -⟩ := hlive.inv.own_of_move hmove
  obtain ⟨hnear, hnear'⟩ := hmove.near
  have hkey := hmove.key
  have href := hmove.ref
  have hrefs : 0 < s.refs p i := hown.elim (hlive.inv.held p i) fun h => h.2
  have hpos := hlive.inv.ref_pos hrefs
  have hkeyne : ∀ {j}, j ≠ i → 0 < (s.inode j).ref → (s.inode j).key ≠ (s.inode i).key :=
    fun hj hjpos heq => hj (hlive.inv.unique _ i hjpos hpos heq)
  -- away from `i` nothing changes
  have hlivej : ∀ q j, j ≠ i → (s.touch p i node d pc).live q j = s.live q j := by
    intro q j hj
    by_cases hq : q = p
    · subst hq
      unfold State.live
      rw [touch_pc_self, if_neg fun h => hj (hnear'.slot_eq (Pc.slot_of_gone h)),
        if_neg fun h => hj (hnear.slot_eq (Pc.slot_of_gone h))]
      rfl
    · exact touch_live_of_ne hq j
  have hpcalloc : ∀ q k, (s.touch p i node d pc).pc q = .ialloc k → q ≠ p ∧ s.pc q = .ialloc k := by
    intro q k hq
    by_cases hqp : q = p
    · subst hqp
      rw [touch_pc_self] at hq
      obtain hidle | hslot := hnear' <;> rw [hq] at *
      · cases hidle
      · cases hslot
    · rw [touch_pc_of_ne hqp] at hq
      exact ⟨hqp, hq⟩
  have hlivei : ∀ q, (s.touch p i node d pc).live q i ≤ s.live q i := by
    intro q
    by_cases hq : q = p
    · subst hq
      unfold State.live
      rw [touch_pc_self]
      by_cases hold : (s.pc q).Gone i
      · rw [if_pos hold, if_pos (hmove.gone hold).1]
        rfl
      · rw [if_neg hold]
        exact Nat.sub_le _ _
    · exact (touch_live_of_ne hq i).le
  have hdisk : ∀ q k, s.pc q = .ialloc k → (s.touch p i node d pc).disk k = s.disk k := by
    intro q k hq
    by_cases hk : k = (s.inode i).key
    · subst hk
      have hd := (hmove.gone (hlive.gone_of_fresh hq hrefs)).2
      refine (update_self ..).trans hd
    · exact update_of_ne hk ..
  refine ⟨hinv, fun q j hj => ?_, fun q j hq => ?_, fun q k hq => ?_, fun q k j r hq hk hj => ?_,
    fun q r k hq hr => ?_⟩
  · by_cases hji : j = i
    · subst hji
      rw [touch_dinode_self hkey]
      obtain htype | rfl | ⟨hone, hgone'⟩ := hlive.type_of_move hmove
      · exact htype
      · exact hlive.live q j (hj.trans_le (hlivei q))
      · refine absurd hj ?_
        have hcount := hlive.inv.count j
        by_cases hq : q = p
        · subst hq
          have hle := le_sum (fun r => s.refs r j) q
          unfold State.live
          rw [touch_pc_self, if_pos hgone']
          change ¬ 0 < s.refs q j - 1
          omega
        · have hle := add_le_sum (fun r => s.refs r j) hq
          have hsub := Nat.sub_le (s.refs q j) (if (s.pc q).Gone j then 1 else 0)
          rw [touch_live_of_ne hq]
          unfold State.live
          omega
    · rw [hlivej q j hji] at hj
      have hjrefs : 0 < s.refs q j := hj.trans_le (Nat.sub_le _ _)
      rw [touch_dinode_of_ne hji (hkeyne hji (hlive.inv.ref_pos hjrefs))]
      exact hlive.live q j hj
  · have hsame : ((s.touch p i node d pc).inode j).ref = (s.inode j).ref := by
      by_cases hji : j = i
      · subst hji
        rw [touch_inode_self, href]
      · rw [touch_inode_of_ne hji]
    rw [hsame]
    by_cases hqp : q = p
    · subst hqp
      rw [touch_pc_self] at hq
      obtain rfl := hnear'.slot_eq (Pc.slot_of_freeing hq)
      exact hlive.alone_of_move hmove hq
    · rw [touch_pc_of_ne hqp] at hq
      exact hlive.alone q j hq
  · have hq' := (hpcalloc q k hq).2
    rw [hdisk q k hq']
    exact hlive.fresh q k hq'
  · have hq' := (hpcalloc q k hq).2
    by_cases hji : j = i
    · subst hji
      rw [touch_inode_self] at hk hj
      have hzero := hlive.unused q k j r hq' (hkey.symm.trans hk) (href ▸ hj)
      exact Nat.le_zero.mp ((hlivei r).trans_eq hzero)
    · rw [touch_inode_of_ne hji] at hk hj
      rw [hlivej r j hji]
      exact hlive.unused q k j r hq' hk hj
  · exact hlive.once q r k (hpcalloc q k hq).2 (hpcalloc r k hr).2

end Move

section Counts

variable {s s' : State n} {p q : Fin n} {i : Slot} {k : Key}

theorem State.live_congr {j : Slot} (hrefs : s'.refs q j = s.refs q j)
    (hgone : (s'.pc q).Gone j ↔ (s.pc q).Gone j) : s'.live q j = s.live q j := by
  unfold State.live
  rw [hrefs]
  simp only [hgone]

theorem State.Live.gain (hlive : s.Live) (hinv : s'.Inv) (hdisk : s'.disk = s.disk)
    (hpc : s'.pc = update s.pc p .idle) (hout : ∀ j, ¬ (s.pc p).Gone j)
    (hrefs : ∀ q j, q ≠ p ∨ j ≠ i → s'.refs q j = s.refs q j)
    (hnode : ∀ j, j ≠ i → s'.inode j = s.inode j) (htype : (s'.dinode i).type ≠ .free)
    (hfree : ∀ q, ¬ (s.pc q).Freeing i)
    (halloc : ∀ q, q ≠ p → s.pc q ≠ .ialloc (s'.inode i).key) : s'.Live := by
  have hself : s'.pc p = .idle := by
    rw [hpc]
    exact update_self ..
  have hother : ∀ {q}, q ≠ p → s'.pc q = s.pc q := fun hq => by
    rw [hpc]
    exact update_of_ne hq ..
  have hnp : ∀ {q k}, s'.pc q = .ialloc k → q ≠ p := by
    rintro q k hq rfl
    rw [hself] at hq
    cases hq
  have hlivej : ∀ q j, j ≠ i → s'.live q j = s.live q j := by
    intro q j hj
    refine live_congr (hrefs q j (.inr hj)) ?_
    by_cases hq : q = p
    · subst hq
      rw [hself]
      exact iff_of_false id (hout j)
    · rw [hother hq]
  refine ⟨hinv, fun q j hj => ?_, fun q j hq => ?_, fun q k hq => ?_, fun q k j r hq hk hj => ?_,
    fun q r k hq hr => ?_⟩
  · by_cases hji : j = i
    · exact hji ▸ htype
    · unfold State.dinode
      rw [hnode j hji, hdisk]
      rw [hlivej q j hji] at hj
      exact hlive.live q j hj
  · have hqp : q ≠ p := by
      rintro rfl
      rw [hself] at hq
      exact hq
    rw [hother hqp] at hq
    have hj : j ≠ i := by
      rintro rfl
      exact hfree q hq
    rw [hnode j hj]
    exact hlive.alone q j hq
  · rw [hother (hnp hq)] at hq
    rw [hdisk]
    exact hlive.fresh q k hq
  · have hqp := hnp hq
    rw [hother hqp] at hq
    have hji : j ≠ i := by
      rintro rfl
      exact halloc q hqp (hk.symm ▸ hq)
    rw [hnode j hji] at hk hj
    rw [hlivej r j hji]
    exact hlive.unused q k j r hq hk hj
  · have hqp := hnp hq
    have hrp := hnp hr
    rw [hother hqp] at hq
    rw [hother hrp] at hr
    exact hlive.once q r k hq hr

theorem State.Live.take (hlive : s.Live) (hinv : ((s.take p i).setPc p .idle).Inv)
    (hout : ∀ j, ¬ (s.pc p).Gone j) (htype : (s.dinode i).type ≠ .free) (hfree : ∀ q, ¬ (s.pc q).Freeing i)
    (halloc : ∀ q, q ≠ p → s.pc q ≠ .ialloc (s.inode i).key) : ((s.take p i).setPc p .idle).Live := by
  have hsame := s.sameNodes_setRef i ((s.inode i).ref + 1)
  refine hlive.gain hinv rfl rfl hout (fun q j hne => State.setRefs_refs_of_ne _ hne)
    (fun j hj => update_of_ne hj ..) ?_ hfree fun q hq => ?_
  · exact (congrArg (fun d => d.type) (hsame.dinode i)).trans_ne htype
  · exact fun h => halloc q hq (h.trans (congrArg Pc.ialloc (hsame.key i)))

theorem State.Inv.not_freeing (hinv : s.Inv) (hzero : (s.inode i).ref = 0) (q : Fin n) :
    ¬ (s.pc q).Freeing i := by
  intro hfree
  have hpos := hinv.ref_pos (hinv.held q i (hinv.dying_of_freeing hfree).1)
  omega

theorem State.Live.recycle (hlive : s.Live) (hinv : ((s.recycle p i k).setPc p .idle).Inv)
    (hout : ∀ j, ¬ (s.pc p).Gone j) (hzero : (s.inode i).ref = 0)
    (htype : (s.disk k).type ≠ .free) (halloc : ∀ q, q ≠ p → s.pc q ≠ .ialloc k) :
    ((s.recycle p i k).setPc p .idle).Live := by
  have hkey : (((s.recycle p i k).setPc p .idle).inode i).key = k := by
    simp [State.recycle, State.setInode, State.setRefs, State.setPc]
  refine hlive.gain (i := i) hinv rfl rfl hout (fun q j hne => State.setRefs_refs_of_ne _ hne)
    (fun j hj => update_of_ne hj ..) ?_ (hlive.inv.not_freeing hzero) ?_
  · unfold State.dinode
    rw [hkey]
    exact htype
  · rw [hkey]
    exact halloc

theorem State.Live.iget (hlive : s.Live) (hidle : s.pc p = .idle)
    (htype : (s.disk k).type ≠ .free) (hnlink : 0 < (s.disk k).nlink)
    (higet : s.iget p k = some s') : s'.Live := by
  have hinv := hlive.inv.iget higet
  have hout : ∀ j, ¬ (s.pc p).Gone j := by
    rw [hidle]
    exact fun _ => id
  have halloc : ∀ q, s.pc q ≠ .ialloc k := fun q hq => by
    have hzero := (hlive.fresh q k hq).2
    omega
  have hpc : s'.setPc p .idle = s' := by
    unfold State.setPc
    rw [← hidle, iget_pc higet, Function.update_eq_self, ← iget_pc higet]
  rw [← hpc] at hinv ⊢
  rcases State.iget_cases higet with ⟨i, hpos, rfl, rfl⟩ | ⟨i, hzero, -, rfl⟩
  · refine hlive.take hinv hout htype (fun q hfree => ?_) fun q _ => halloc q
    have hdying := (hlive.inv.dying_of_freeing hfree).2
    exact absurd hdying.2 hnlink.ne'
  · exact hlive.recycle hinv hout hzero htype fun q _ => halloc q

theorem State.Live.iget_ialloc (hlive : s.Live) (hpc : s.pc p = .ialloc k)
    (hinv : (s'.setPc p .idle).Inv) (higet : s.iget p k = some s') : (s'.setPc p .idle).Live := by
  have hout : ∀ j, ¬ (s.pc p).Gone j := by
    rw [hpc]
    exact fun _ => id
  have htype := (hlive.fresh p k hpc).1
  have halloc : ∀ q, q ≠ p → s.pc q ≠ .ialloc k := fun q hq h => hq (hlive.once q p k h hpc)
  rcases State.iget_cases higet with ⟨i, hpos, rfl, rfl⟩ | ⟨i, hzero, -, rfl⟩
  · refine hlive.take hinv hout htype (fun q hfree => ?_) halloc
    have hrefs := hlive.inv.held q i (hlive.inv.dying_of_freeing hfree).1
    exact Pc.not_gone_of_freeing hfree (hlive.gone_of_fresh hpc hrefs)
  · exact hlive.recycle hinv hout hzero htype halloc

theorem State.Live.idup (hlive : s.Live) (hidle : s.pc p = .idle) (hrefs : 0 < s.refs p i) :
    (s.take p i).Live := by
  have hout : ∀ j, ¬ (s.pc p).Gone j := by
    rw [hidle]
    exact fun _ => id
  have hpc : (s.take p i).setPc p .idle = s.take p i := by
    unfold State.setPc
    rw [← hidle]
    exact congrArg (fun pc => { s.take p i with pc := pc }) (Function.update_eq_self p s.pc)
  have hinv := hlive.inv.take (p := p) (hlive.inv.ref_pos hrefs)
  rw [← hpc] at hinv ⊢
  refine hlive.take hinv hout (hlive.type_of_refs hrefs (hout i)) (fun q hfree => ?_)
    fun q _ hq => hout i (hlive.gone_of_fresh hq hrefs)
  by_cases hqp : q = p
  · subst hqp
    rw [hidle] at hfree
    exact hfree
  · have hzero := hlive.refs_of_freeing hfree (Ne.symm hqp)
    omega

theorem State.Live.drop (hlive : s.Live) (hpc : s.pc p = .iputDrop i) :
    (((s.setInode i { s.inode i with ref := (s.inode i).ref - 1 }).setRefs p i
      (s.refs p i - 1)).setPc p .idle).Live := by
  have hinv := hlive.inv.drop hpc
  set s₁ := ((s.setInode i { s.inode i with ref := (s.inode i).ref - 1 }).setRefs p i
    (s.refs p i - 1)).setPc p .idle with hs₁
  have hat := hlive.inv.pc p
  rw [hpc] at hat
  have hsame := s.sameNodes_setRef i ((s.inode i).ref - 1)
  have hself : s₁.pc p = .idle := setPc_pc_self
  have hother : ∀ {q}, q ≠ p → s₁.pc q = s.pc q := fun hq => setPc_pc_of_ne hq
  have hlive' : ∀ q j, s₁.live q j = s.live q j := by
    intro q j
    by_cases hq : q = p
    · subst hq
      by_cases hj : j = i
      · subst hj
        unfold State.live
        rw [hself, hpc, if_pos (show (Pc.iputDrop j).Gone j from rfl),
          if_neg (show ¬ Pc.idle.Gone j from id)]
        exact State.setRefs_refs_self _
      · refine live_congr (State.setRefs_refs_of_ne _ (Or.inr hj)) ?_
        rw [hself, hpc]
        exact iff_of_false id fun h => hj h.symm
    · refine live_congr (State.setRefs_refs_of_ne _ (Or.inl hq)) ?_
      rw [hother hq]
  have hnp : ∀ {q k}, s₁.pc q = .ialloc k → s.pc q = .ialloc k := by
    intro q k hq
    by_cases hqp : q = p
    · subst hqp
      rw [hself] at hq
      cases hq
    · rwa [hother hqp] at hq
  refine ⟨hinv, fun q j hj => ?_, fun q j hq => ?_, fun q k hq => hlive.fresh q k (hnp hq),
    fun q k j r hq hk hj => ?_, fun q r k hq hr => hlive.once q r k (hnp hq) (hnp hr)⟩
  · rw [hlive'] at hj
    exact (congrArg (fun d => d.type) (hsame.dinode j)).trans_ne (hlive.live q j hj)
  · have hqp : q ≠ p := by
      rintro rfl
      rw [hself] at hq
      exact hq
    rw [hother hqp] at hq
    -- two references would be left, were it the same entry
    have hji : j ≠ i := by
      rintro rfl
      have hzero := hlive.refs_of_freeing hq (Ne.symm hqp)
      have hpos := hat.1
      omega
    exact ((s.setRef_ref i j ((s.inode i).ref - 1)).trans (if_neg hji)).trans (hlive.alone q j hq)
  · rw [hlive']
    refine hlive.unused q k j r (hnp hq) ((hsame.key j).symm.trans hk) ?_
    have href := s.setRef_ref i j ((s.inode i).ref - 1)
    replace hj : 0 < ((s.setRef i ((s.inode i).ref - 1)).inode j).ref := hj
    by_cases hji : j = i
    · subst hji
      rw [href, if_pos rfl] at hj
      omega
    · rwa [href, if_neg hji] at hj

theorem State.Live.give (hlive : s.Live) (hidle : s.pc p = .idle) (hrefs : 0 < s.refs p i)
    (hinv : ((s.setRefs p i (s.refs p i - 1)).setRefs q i (s.refs q i + 1)).Inv) :
    ((s.setRefs p i (s.refs p i - 1)).setRefs q i (s.refs q i + 1)).Live := by
  have hout : ¬ (s.pc p).Gone i := by
    rw [hidle]
    exact id
  have hlivej : ∀ r j, j ≠ i →
      ((s.setRefs p i (s.refs p i - 1)).setRefs q i (s.refs q i + 1)).live r j = s.live r j :=
    fun r j hj => live_congr ((State.setRefs_refs_of_ne _ (Or.inr hj)).trans
      (State.setRefs_refs_of_ne _ (Or.inr hj))) Iff.rfl
  refine ⟨hinv, fun r j hj => ?_, hlive.alone, hlive.fresh, fun r k j t hr hk hj => ?_, hlive.once⟩
  · by_cases hji : j = i
    · subst hji
      exact hlive.type_of_refs hrefs hout
    · rw [hlivej r j hji] at hj
      exact hlive.live r j hj
  · have hji : j ≠ i := by
      rintro rfl
      exact hout (hlive.gone_of_fresh (hk ▸ hr) hrefs)
    rw [hlivej t j hji]
    exact hlive.unused r k j t hr hk hj

theorem State.Live.alloc (hlive : s.Live) (hidle : s.pc p = .idle) {type : Fs.FileType}
    (htype : type ≠ .free) (hfree : (s.disk k).type = .free)
    (hinv : ((s.setDisk k (.fresh type)).setPc p (.ialloc k)).Inv) :
    ((s.setDisk k (.fresh type)).setPc p (.ialloc k)).Live := by
  set s₁ := (s.setDisk k (.fresh type)).setPc p (.ialloc k) with hs₁
  have hself : s₁.pc p = .ialloc k := setPc_pc_self
  have hother : ∀ {q}, q ≠ p → s₁.pc q = s.pc q := fun hq => setPc_pc_of_ne hq
  have hdiskself : s₁.disk k = .fresh type := update_self ..
  have hdisk : ∀ {k'}, k' ≠ k → s₁.disk k' = s.disk k' := fun hk => update_of_ne hk ..
  have hlive' : ∀ q j, s₁.live q j = s.live q j := by
    intro q j
    refine live_congr rfl ?_
    by_cases hq : q = p
    · subst hq
      rw [hself, hidle]
      exact .rfl
    · rw [hother hq]
  have hkne : ∀ {q k'}, s.pc q = .ialloc k' → k' ≠ k := by
    rintro q k' hq rfl
    exact (hlive.fresh q k' hq).1 hfree
  refine ⟨hinv, fun q j hj => ?_, fun q j hq => ?_, fun q k' hq => ?_, fun q k' j r hq hk hj => ?_,
    fun q r k' hq hr => ?_⟩
  · rw [hlive'] at hj
    change (s₁.disk (s.inode j).key).type ≠ .free
    by_cases hk : (s.inode j).key = k
    · rw [hk, hdiskself]
      exact htype
    · rw [hdisk hk]
      exact hlive.live q j hj
  · by_cases hqp : q = p
    · subst hqp
      rw [hself] at hq
      exact hq.elim
    · rw [hother hqp] at hq
      exact hlive.alone q j hq
  · by_cases hqp : q = p
    · subst hqp
      rw [hself, Pc.ialloc.injEq] at hq
      subst hq
      rw [hdiskself]
      exact ⟨htype, rfl⟩
    · rw [hother hqp] at hq
      rw [hdisk (hkne hq)]
      exact hlive.fresh q k' hq
  · rw [hlive']
    by_cases hqp : q = p
    · subst hqp
      rw [hself, Pc.ialloc.injEq] at hq
      subst hq
      by_contra hne
      refine hlive.live r j (Nat.pos_of_ne_zero hne) ?_
      rw [State.dinode, show (s.inode j).key = k from hk, hfree]
    · rw [hother hqp] at hq
      exact hlive.unused q k' j r hq hk hj
  · have hboth : ∀ {q r}, q = p → r ≠ p → s₁.pc q = .ialloc k' → s₁.pc r = .ialloc k' → False := by
      rintro q r rfl hr hq hrk
      rw [hself, Pc.ialloc.injEq] at hq
      rw [hother hr] at hrk
      exact hkne hrk hq.symm
    by_cases hqp : q = p
    · by_cases hrp : r = p
      · rw [hqp, hrp]
      · exact (hboth hqp hrp hq hr).elim
    · by_cases hrp : r = p
      · exact (hboth hrp hqp hr hq).elim
      · rw [hother hqp] at hq
        rw [hother hrp] at hr
        exact hlive.once q r k' hq hr

end Counts

section Step

variable {s s' : State n} {p : Fin n} {i : Slot}

theorem State.Live.effect (hlive : s.Live) {a : Act n} (hnamed : s.Named (p, a))
    (hrec : s.Recorded (p, a)) (heffect : s.Effect p a s') : s'.Live := by
  have hinv := hlive.inv.effect hrec heffect
  cases heffect with
  | same => exact hlive
  | move hmove => exact hlive.move hmove hinv
  | iget higet hpc => exact hlive.iget hpc hnamed.1 hnamed.2 higet
  | idup hrefs hpc => exact hlive.idup hpc hrefs
  | ialloc hfree htype hpc => exact hlive.alloc hpc htype hfree hinv
  | give hrefs _ _ hpc => exact hlive.give hpc hrefs hinv
  | drop hpc => exact hlive.drop hpc
  | allocated higet hpc => exact hlive.iget_ialloc hpc hinv higet

theorem State.live_init (disk : Key → Dinode) : (State.init disk : State n).Live where
  inv := State.inv_init disk
  live p i h := absurd h (by simp [State.live, State.init])
  alone p i h := h.elim
  fresh p k := nofun
  unused p k i q := nofun
  once p q k := nofun

theorem update_key {f : Slot → Inode n} {node : Inode n} {j : Slot} (hkey : node.key = (f j).key)
    (i : Slot) : (update f j node i).key = (f i).key := by
  by_cases hi : i = j
  · subst hi
    rw [update_self, hkey]
  · rw [update_of_ne hi]

theorem State.iget_key {k : Key} (higet : s.iget p k = some s') (hpos : 0 < (s.inode i).ref) :
    (s'.inode i).key = (s.inode i).key := by
  rcases State.iget_cases higet with ⟨j, -, -, rfl⟩ | ⟨j, hzero, -, rfl⟩
  · exact update_key (by rfl) i
  · have hij : i ≠ j := by
      rintro rfl
      omega
    exact congrArg Inode.key (update_of_ne hij ..)

theorem State.Effect.key {a : Act n} (heffect : s.Effect p a s') (hpos : 0 < (s.inode i).ref) :
    (s'.inode i).key = (s.inode i).key := by
  cases heffect with
  | same | ialloc | give => rfl
  | move hmove => exact update_key hmove.key i
  | iget higet => exact iget_key higet hpos
  | allocated higet =>
    have hkey := iget_key higet hpos
    exact hkey
  | idup | drop => exact update_key (by rfl) i

end Step

structure State.Sound (s : State n) : Prop where
  unique : ∀ i j, 0 < (s.inode i).ref → 0 < (s.inode j).ref → (s.inode i).key = (s.inode j).key → i = j
  count : ∀ i, (s.inode i).ref = ∑ p, s.refs p i
  coherent : ∀ i, 0 < (s.inode i).ref → (s.inode i).valid = true → (s.inode i).lock = none →
    (s.inode i).fields = s.disk (s.inode i).key
  /-- The next step of `p` writes type `0`. -/
  alone : ∀ p i, s.pc p = .iputTypeUpdate i → ∀ q, q ≠ p → s.refs q i = 0

/-- In every run in which `iget` is called as the file system calls it and no `writei` inside a file
meets a hole, the cache is sound, and an entry in use keeps its key. -/
theorem icache_sound {disk : Key → Dinode} {s : State n}
    (hrun : Reaches State.step (fun s a => s.Named a ∧ s.Recorded a) (State.init disk) s) :
    s.Sound ∧ ∀ a s', s.step a = some s' → ∀ i, 0 < (s.inode i).ref →
      (s'.inode i).key = (s.inode i).key := by
  have hlive := hrun.invariant (State.live_init disk)
    fun s a s' hlive hG hstep => hlive.effect hG.1 hG.2 (State.effect_of_step hstep)
  refine ⟨⟨hlive.inv.unique, hlive.inv.count, fun i hpos hvalid hlock => ?_,
    fun p i hpc q hq => ?_⟩, fun a s' hstep i hpos => (State.effect_of_step hstep).key hpos⟩
  · refine (hlive.inv.coherent i hpos hvalid fun p hp => ?_).1
    rw [State.Holds, hlock] at hp
    cases hp
  · exact hlive.refs_of_freeing (p := p) (by rw [hpc]; rfl) hq

/-- A root directory with 32 entries, as `mkfs` leaves it: its size is rounded up past its last
block. -/
def rootWithHole (k : Key) : Dinode :=
  if k = ⟨rootdev, rootino⟩ then
    { Dinode.fresh .dir with
      nlink := 1, size := 2 * bsize, addrs := update (fun _ => 0) 0 59 }
  else .fresh .free

def writeRoot (off : Nat) : List (Fin 1 × Act 1) :=
  [(0, .call (.iget ⟨rootdev, rootino⟩)), (0, .call (.ilock 0)), (0, .next 0),
    (0, .call (.writei 0 off direntSize))]

/-- A write past the end is recorded by `iupdate`. -/
theorem icache_sound_append : ∃ s : State 1, runActs State.step (fun s a => s.Named a ∧ s.Recorded a)
      (writeRoot (2 * bsize) ++ [(0, .next 90), (0, .next 0), (0, .next 0), (0, .call (.iunlock 0))])
      (State.init rootWithHole) = some s ∧ (s.inode 0).fields.addrs 2 = 90 ∧
    (s.inode 0).fields = s.disk (s.inode 0).key := by
  obtain ⟨s, hrun, hs⟩ := Option.map_eq_some_iff.mp
    (show (runActs State.step (fun (s : State 1) a => s.Named a ∧ s.Recorded a) (writeRoot (2 * bsize) ++
          [(0, .next 90), (0, .next 0), (0, .next 0), (0, .call (.iunlock 0))])
        (.init rootWithHole)).map
        (fun s => ((s.inode 0).ref, (s.inode 0).valid, (s.inode 0).lock,
          (s.inode 0).fields.addrs 2)) = some (1, true, none, 90) by decide +kernel)
  simp only [Prod.mk.injEq] at hs
  obtain ⟨href, hvalid, hlock, haddr⟩ := hs
  have hsound := (icache_sound (.of_runActs _ .refl hrun)).1
  exact ⟨s, hrun, haddr, hsound.coherent 0 (by rw [href]; exact Nat.one_pos) hvalid hlock⟩

/-- A write into the hole allocates a block that only the cached copy knows. -/
theorem write_hole_unrecorded : ∃ s : State 1,
    Reaches State.step State.Named (State.init rootWithHole) s ∧ 0 < (s.inode 0).ref ∧
      (s.inode 0).valid = true ∧ (s.inode 0).lock = none ∧
      (s.inode 0).fields.addrs 1 = 90 ∧ (s.disk (s.inode 0).key).addrs 1 = 0 := by
  obtain ⟨s, hrun, hs⟩ := Option.map_eq_some_iff.mp (show (runActs State.step State.Named
        (writeRoot bsize ++ [(0, .next 90), (0, .next 0), (0, .call (.iunlock 0))])
        (.init rootWithHole)).map
        (fun s => (decide (0 < (s.inode 0).ref), (s.inode 0).valid, (s.inode 0).lock,
          (s.inode 0).fields.addrs 1, (s.disk (s.inode 0).key).addrs 1))
      = some (true, true, none, 90, 0) by decide +kernel)
  simp only [Prod.mk.injEq, decide_eq_true_eq] at hs
  exact ⟨s, .of_runActs _ .refl hrun, hs⟩

end Xv6.Icache
