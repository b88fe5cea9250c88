import Xv6.Icache.Inv
import Mathlib.Algebra.BigOperators.Ring.Finset

/-!
# Reclaiming inodes without links

`iput` reads `ref` in one critical section and decrements it in another. A process between the two
holds a reference that the next process still counts. As long as some counted reference is not of
that kind, an inode without links stays cached until it is freed.
-/

namespace Xv6.Icache

open State

variable {n : Nat}

namespace Pc

def Leaving : Pc → Slot → Prop
  | .iputRelease j, i | .iputDrop j, i => j = i
  | _, _ => False

instance (pc : Pc) (i : Slot) : Decidable (pc.Leaving i) :=
  decidable_of_iff (pc = .iputRelease i ∨ pc = .iputDrop i) (by cases pc <;> simp [Leaving])

def InIput : Pc → Prop
  | .iputTest _ | .iputRef _ | .iputTrunc _ | .iputTruncUpdate _ | .iputType _ | .iputTypeUpdate _
  | .iputInvalid _ | .iputRelease _ | .iputDrop _ => True
  | _ => False

theorem slot_of_leaving {pc : Pc} {i : Slot} (hleave : pc.Leaving i) : pc.slot = some i := by
  cases pc <;> first | exact hleave.elim | exact congrArg some hleave

end Pc

namespace State

variable (s : State n)

def leaving (i : Slot) : Nat := (Finset.univ.filter fun p => (s.pc p).Leaving i).card

/-- When `iput` finds more references than its own, not all of them are being dropped. -/
def CountsKept (a : Fin n × Act n) : Prop :=
  match a.2, s.pc a.1 with
  | .next _, .iputRef i => (s.inode i).ref = 1 ∨ s.leaving i + 1 < (s.inode i).ref
  | _, _ => True

instance (a : Fin n × Act n) : Decidable (s.CountsKept a) := by
  unfold CountsKept
  split <;> infer_instance

/-- Inodes without links are cached by an entry that somebody keeps. -/
structure Kept : Prop where
  inv : s.Inv
  cached : ∀ k, (s.disk k).type ≠ .free → (s.disk k).nlink = 0 →
    ∃ i, (s.inode i).key = k ∧ (s.inode i).valid = true ∧ s.leaving i < (s.inode i).ref
  freed : ∀ p i, s.pc p = .iputInvalid i → (s.dinode i).type = .free

end State

def Act.NoAlloc : Act n → Prop
  | .call (.ialloc _ _) | .call (.writei _ _ _) => False
  | _ => True

instance (a : Act n) : Decidable a.NoAlloc := by
  unfold Act.NoAlloc
  split <;> infer_instance

section Leaving

variable {s s' : State n} {p : Fin n} {i j : Slot} {pc : Pc}

theorem State.leaving_eq_sum (s : State n) (i : Slot) :
    s.leaving i = ∑ p, if (s.pc p).Leaving i then 1 else 0 := Finset.card_filter _ _

theorem State.leaving_update (s s' : State n) (hpc : s'.pc = Function.update s.pc p pc) (i : Slot) :
    s'.leaving i + (if (s.pc p).Leaving i then 1 else 0) = s.leaving i + if pc.Leaving i then 1 else 0 := by
  rw [leaving_eq_sum, leaving_eq_sum, hpc]
  exact sum_update_add (fun pc : Pc => if pc.Leaving i then 1 else 0) s.pc p pc

theorem State.Inv.refs_of_leaving (hinv : s.Inv) (hleave : (s.pc p).Leaving i) : 0 < s.refs p i := by
  have hat := hinv.pc p
  revert hleave hat
  cases s.pc p with
  | iputRelease j =>
    rintro rfl hat
    exact hinv.held p j hat
  | iputDrop j =>
    rintro rfl hat
    exact hat.1
  | _ => exact fun h => h.elim

/-- A reference that is not being dropped keeps the count above those that are. -/
theorem State.Inv.leaving_lt (hinv : s.Inv) (hrefs : 0 < s.refs p i)
    (hstay : ¬ (s.pc p).Leaving i) : s.leaving i < (s.inode i).ref := by
  rw [hinv.count, leaving_eq_sum]
  refine Finset.sum_lt_sum (fun q _ => ?_) ⟨p, Finset.mem_univ p, ?_⟩
  · split_ifs with hq
    · exact hinv.refs_of_leaving hq
    · exact Nat.zero_le _
  · rw [if_neg hstay]
    exact hrefs

theorem State.Kept.of_dying (hkept : s.Kept) (hpos : 0 < (s.inode i).ref) (hdying : s.Dying i) :
    (s.inode i).valid = true ∧ s.leaving i < (s.inode i).ref := by
  obtain ⟨j, hkey, hvalid, hlt⟩ := hkept.cached _ hdying.1 hdying.2
  obtain rfl := hkept.inv.unique j i (by omega) hpos hkey
  exact ⟨hvalid, hlt⟩

end Leaving

section Move

variable {s : State n} {p : Fin n} {i : Slot} {node : Inode n} {d : Dinode} {pc : Pc} {a : Act n}

theorem State.touch_leaving {j : Slot} (hsame : (s.pc p).Leaving j ↔ pc.Leaving j) :
    (s.touch p i node d pc).leaving j = s.leaving j := by
  have hone := leaving_update s (s.touch p i node d pc) rfl j
  simp only [hsame] at hone
  exact Nat.add_right_cancel hone

theorem State.Kept.valid_of_move (hkept : s.Kept) (hmove : s.Move p i a node d pc)
    (hcounts : s.CountsKept (p, a)) (htype : d.type ≠ .free) (hnlink : d.nlink = 0) :
    node.valid = true ∧ (pc.Leaving i → (s.touch p i node d pc).leaving i < (s.inode i).ref) := by
  obtain ⟨hown, -⟩ := hkept.inv.own_of_move hmove
  have hrefs : 0 < s.refs p i := hown.elim (hkept.inv.held p i) fun h => h.2
  have hdying := fun h => hkept.of_dying (hkept.inv.ref_pos hrefs) (i := i) h
  cases hmove with
  | truncUpdate hpc | iupdate hpc => exact ⟨(hkept.inv.at_pc hpc).2.1, False.elim⟩
  | typeUpdate hpc => exact absurd (hkept.inv.at_pc hpc).2.2.1 htype
  | invalid hpc => exact absurd (hkept.freed p i hpc) htype
  | load => exact ⟨rfl, False.elim⟩
  | linked htest hpc =>
    -- a valid entry of an inode without links passes the test
    obtain ⟨hvalid, -⟩ := hdying ⟨htype, hnlink⟩
    have hclean := hkept.inv.clean hown (by rw [hpc]; exact id) hvalid
    exact absurd ⟨hvalid, hclean.1 ▸ hnlink⟩ htest
  | shared hmore hpc =>
    refine ⟨(hdying ⟨htype, hnlink⟩).1, fun _ => ?_⟩
    simp only [State.CountsKept, hpc] at hcounts
    have hlt := hcounts.resolve_left hmore
    have hone := leaving_update s (s.touch p i (s.inode i) (s.dinode i) (.iputRelease i)) rfl i
    rw [hpc, if_neg (show ¬ (Pc.iputRef i).Leaving i from id),
      if_pos (show (Pc.iputRelease i).Leaving i from rfl)] at hone
    omega
  | release hpc =>
    obtain ⟨hvalid, hlt⟩ := hdying ⟨htype, hnlink⟩
    refine ⟨hvalid, fun _ => lt_of_eq_of_lt (touch_leaving ?_) hlt⟩
    rw [hpc]
    exact .rfl
  | _ => exact ⟨(hdying ⟨htype, hnlink⟩).1, False.elim⟩

theorem State.Kept.move (hkept : s.Kept) (hmove : s.Move p i a node d pc)
    (hcounts : s.CountsKept (p, a)) (hinv : (s.touch p i node d pc).Inv) :
    (s.touch p i node d pc).Kept := by
  obtain ⟨hown, -⟩ := hkept.inv.own_of_move hmove
  obtain ⟨hnear, hnear'⟩ := hmove.near
  have hkey := hmove.key
  have href := hmove.ref
  have hrefs : 0 < s.refs p i := hown.elim (hkept.inv.held p i) fun h => h.2
  have hpos := hkept.inv.ref_pos hrefs
  refine ⟨hinv, fun k htype hnlink => ?_, fun q j hq => ?_⟩
  · by_cases hk : k = (s.inode i).key
    · subst hk
      have hd : (s.touch p i node d pc).disk (s.inode i).key = d := Function.update_self ..
      rw [hd] at htype hnlink
      obtain ⟨hvalid, hlast⟩ := hkept.valid_of_move hmove hcounts htype hnlink
      refine ⟨i, ?_⟩
      rw [touch_inode_self]
      refine ⟨hkey, hvalid, ?_⟩
      by_cases hl : pc.Leaving i
      · rw [href]
        exact hlast hl
      · have hlt := hinv.leaving_lt (p := p) (i := i) hrefs (by rwa [touch_pc_self])
        rwa [touch_inode_self] at hlt
    · have hd : (s.touch p i node d pc).disk k = s.disk k := Function.update_of_ne hk ..
      rw [hd] at htype hnlink
      obtain ⟨j, rfl, hvalid, hlt⟩ := hkept.cached k htype hnlink
      have hj : j ≠ i := by
        rintro rfl
        exact hk rfl
      refine ⟨j, ?_⟩
      rw [touch_inode_of_ne hj, touch_leaving (iff_of_false
        (fun hl => hj (hnear.slot_eq (Pc.slot_of_leaving hl)))
        fun hl => hj (hnear'.slot_eq (Pc.slot_of_leaving hl)))]
      exact ⟨rfl, hvalid, hlt⟩
  · by_cases hqp : q = p
    · subst hqp
      rw [touch_pc_self] at hq
      obtain rfl : j = i := hnear'.slot_eq (by rw [hq]; rfl)
      rw [touch_dinode_self hkey]
      subst hq
      cases hmove with
      | typeUpdate hpc => exact (hkept.inv.at_pc hpc).2.2.1
    · rw [touch_pc_of_ne hqp] at hq
      have hat := hkept.inv.at_pc hq
      have hj : j ≠ i := by
        rintro rfl
        rcases hown with hp | ⟨hnone, -⟩
        · exact hqp (Option.some.inj (Eq.trans (Eq.symm hat) hp))
        · rw [State.PcInv, State.Holds, hnone] at hat
          cases hat
      have hjpos := hkept.inv.ref_pos (hkept.inv.held q j hat)
      rw [touch_dinode_of_ne hj fun heq => hj (hkept.inv.unique j i hjpos hpos heq)]
      exact hkept.freed q j hq

end Move

section Counts

variable {s s' : State n} {p q : Fin n} {i : Slot} {k : Key}

theorem State.Kept.recount (hkept : s.Kept) (hinv : s'.Inv) (hsame : s.SameNodes s')
    (hlt : ∀ i, s.leaving i < (s.inode i).ref → s'.leaving i < (s'.inode i).ref)
    (hpc : ∀ p i, s'.pc p = .iputInvalid i → s.pc p = .iputInvalid i) : s'.Kept := by
  refine ⟨hinv, fun k htype hnlink => ?_, fun p i hp => ?_⟩
  · rw [hsame.disk] at htype hnlink
    obtain ⟨i, hkey, hvalid, hleave⟩ := hkept.cached k htype hnlink
    exact ⟨i, (hsame.key i).trans hkey, (hsame.valid i).trans hvalid, hlt i hleave⟩
  · rw [hsame.dinode]
    exact hkept.freed p i (hpc p i hp)

theorem State.Kept.take (hkept : s.Kept) (hpos : 0 < (s.inode i).ref) : (s.take p i).Kept := by
  have hsame := s.sameNodes_setRef i ((s.inode i).ref + 1)
  refine hkept.recount (hkept.inv.take hpos)
    ⟨hsame.lock, hsame.valid, hsame.fields, hsame.key, rfl⟩ (fun j hj => ?_) fun _ _ h => h
  refine Nat.lt_of_lt_of_eq ?_ (s.setRef_ref i j ((s.inode i).ref + 1)).symm
  change s.leaving j < _
  by_cases hji : j = i
  · subst hji
    rw [if_pos rfl]
    omega
  · rwa [if_neg hji]

theorem State.Kept.recycle (hkept : s.Kept) (hzero : (s.inode i).ref = 0)
    (hnone : ∀ j, 0 < (s.inode j).ref → (s.inode j).key ≠ k) : (s.recycle p i k).Kept := by
  have hne : ∀ {j}, j ≠ i → (s.recycle p i k).inode j = s.inode j :=
    fun hj => Function.update_of_ne hj ..
  refine ⟨hkept.inv.recycle hzero hnone, fun k' htype hnlink => ?_, fun q j hq => ?_⟩
  · obtain ⟨j, hkey, hvalid, hlt⟩ := hkept.cached k' htype hnlink
    have hj : j ≠ i := by
      rintro rfl
      omega
    refine ⟨j, ?_⟩
    rw [hne hj]
    exact ⟨hkey, hvalid, hlt⟩
  · have hat := hkept.inv.pc q
    rw [show s.pc q = .iputInvalid j from hq] at hat
    have hpos := hkept.inv.ref_pos (hkept.inv.held q j hat)
    have hj : j ≠ i := by
      rintro rfl
      omega
    unfold State.dinode
    rw [hne hj]
    exact hkept.freed q j hq

theorem State.Kept.iget (hkept : s.Kept) (higet : s.iget p k = some s') : s'.Kept := by
  rcases State.iget_cases higet with ⟨i, hpos, -, rfl⟩ | ⟨i, hzero, hnone, rfl⟩
  · exact hkept.take hpos
  · exact hkept.recycle hzero hnone

theorem State.Kept.drop (hkept : s.Kept) (hpc : s.pc p = .iputDrop i) :
    (((s.setInode i { s.inode i with ref := (s.inode i).ref - 1 }).setRefs p i
      (s.refs p i - 1)).setPc p .idle).Kept := by
  have hsame := s.sameNodes_setRef i ((s.inode i).ref - 1)
  refine hkept.recount (hkept.inv.drop hpc) ⟨hsame.lock, hsame.valid, hsame.fields, hsame.key, rfl⟩
    (fun j hj => ?_) fun q j hq => ?_
  · refine Nat.lt_of_lt_of_eq ?_ (s.setRef_ref i j ((s.inode i).ref - 1)).symm
    have hone := leaving_update (p := p) s (((s.setInode i { s.inode i with
      ref := (s.inode i).ref - 1 }).setRefs p i (s.refs p i - 1)).setPc p .idle) rfl j
    rw [hpc, if_neg (show ¬ Pc.idle.Leaving j from id)] at hone
    by_cases hji : j = i
    · subst hji
      rw [if_pos (show (Pc.iputDrop j).Leaving j from rfl)] at hone
      rw [if_pos rfl]
      omega
    · rw [if_neg (show ¬ (Pc.iputDrop i).Leaving j from fun h => hji h.symm)] at hone
      rw [if_neg hji]
      omega
  · by_cases hqp : q = p
    · subst hqp
      rw [setPc_pc_self] at hq
      cases hq
    · rwa [setPc_pc_of_ne hqp] at hq

end Counts

section Step

variable {s s' : State n} {p : Fin n} {i : Slot}

theorem Act.NoAlloc.recorded {a : Act n} (hact : a.NoAlloc) (s : State n) (p : Fin n) :
    s.Recorded (p, a) := by
  cases a with
  | next b => trivial
  | call c =>
    cases c with
    | writei i off len => exact hact.elim
    | _ => trivial

theorem State.Kept.setPc_idle (hkept : s.Kept) {k : Key} (hpc : s.pc p = .ialloc k)
    (hinv : (s.setPc p .idle).Inv) : (s.setPc p .idle).Kept := by
  refine hkept.recount hinv ⟨fun _ => rfl, fun _ => rfl, fun _ => rfl, fun _ => rfl, rfl⟩
    (fun j hj => ?_) fun q j hq => ?_
  · have hone := leaving_update s (s.setPc p .idle) rfl j
    rw [hpc] at hone
    exact lt_of_eq_of_lt (Nat.add_right_cancel hone) hj
  · by_cases hqp : q = p
    · subst hqp
      rw [setPc_pc_self] at hq
      cases hq
    · rwa [setPc_pc_of_ne hqp] at hq

theorem State.Kept.effect (hkept : s.Kept) {a : Act n} (hact : a.NoAlloc)
    (hcounts : s.CountsKept (p, a)) (heffect : s.Effect p a s') : s'.Kept := by
  have hinv := hkept.inv.effect (hact.recorded s p) heffect
  cases heffect with
  | same => exact hkept
  | move hmove => exact hkept.move hmove hcounts hinv
  | iget higet => exact hkept.iget higet
  | idup hrefs => exact hkept.take (hkept.inv.ref_pos hrefs)
  | ialloc => exact hact.elim
  | give =>
    exact hkept.recount hinv ⟨fun _ => rfl, fun _ => rfl, fun _ => rfl, fun _ => rfl, rfl⟩
      (fun _ h => h) fun _ _ h => h
  | drop hpc => exact hkept.drop hpc
  | allocated higet hpc =>
    exact (hkept.iget higet).setPc_idle ((congrFun (iget_pc higet) p).trans hpc) hinv

end Step

/-- In every run of the functions in which no `iput` counts only references that are being dropped,
an allocated inode without links is cached with `ref > 0`, also while processes are inside `iput`. -/
theorem unlinked_cached {disk : Key → Dinode}
    (hdisk : ∀ k, (disk k).type ≠ .free → (disk k).nlink ≠ 0) {s : State n}
    (hrun : Reaches State.step (fun s a => a.2.NoAlloc ∧ s.CountsKept a) (State.init disk) s)
    (k : Key) (htype : (s.disk k).type ≠ .free) (hnlink : (s.disk k).nlink = 0) :
    ∃ i, (s.inode i).key = k ∧ 0 < (s.inode i).ref := by
  have hinit : (.init disk : State n).Kept :=
    ⟨State.inv_init disk, fun k htype hnlink => absurd hnlink (hdisk k htype), nofun⟩
  have hkept := hrun.invariant hinit fun s a s' hkept hG hstep =>
    hkept.effect hG.1 hG.2 (State.effect_of_step hstep)
  obtain ⟨i, hkey, -, hlt⟩ := hkept.cached k htype hnlink
  exact ⟨i, hkey, by omega⟩

def oneInode (k : Key) : Dinode :=
  if k = ⟨rootdev, 2⟩ then { Dinode.fresh .file with nlink := 1 } else .fresh .free

theorem oneInode_linked (k : Key) (htype : (oneInode k).type ≠ .free) : (oneInode k).nlink ≠ 0 := by
  unfold oneInode at htype ⊢
  split
  · exact Int.one_ne_zero
  · rename_i hne
    rw [if_neg hne] at htype
    exact absurd rfl htype

local instance neZeroTwo : NeZero 2 := ⟨two_ne_zero⟩

/-- Two processes get the file, and the first removes its last link. -/
def unlinkShared : List (Fin 2 × Act 2) :=
  [(0, .call (.iget ⟨rootdev, 2⟩)), (1, .call (.iget ⟨rootdev, 2⟩)), (0, .call (.ilock 0)),
    (0, .next 0), (0, .call (.update 0 0 0 0)), (0, .next 0), (0, .call (.iunlock 0))]

/-- The first process drops its reference, and the second still has one. -/
theorem unlinked_cached_shared : ∃ s : State 2, runActs State.step (fun s a => a.2.NoAlloc ∧ s.CountsKept a)
      (unlinkShared ++ (0, .call (.iput 0)) :: List.replicate 4 (0, .next 0))
      (State.init oneInode) = some s ∧ (s.disk ⟨rootdev, 2⟩).nlink = 0 ∧
    ∃ i, (s.inode i).key = ⟨rootdev, 2⟩ ∧ 0 < (s.inode i).ref := by
  obtain ⟨s, hrun, hs⟩ := Option.map_eq_some_iff.mp
    (show (runActs State.step (fun (s : State 2) a => a.2.NoAlloc ∧ s.CountsKept a)
        (unlinkShared ++ (0, .call (.iput 0)) :: List.replicate 4 (0, .next 0)) (.init oneInode)).map
        (fun s => ((s.disk ⟨rootdev, 2⟩).type, (s.disk ⟨rootdev, 2⟩).nlink)) = some (.file, 0)
      by decide +kernel)
  obtain ⟨htype, hnlink⟩ := Prod.mk.inj hs
  refine ⟨s, hrun, hnlink, unlinked_cached oneInode_linked (.of_runActs _ .refl hrun) _ ?_ hnlink⟩
  rw [htype]
  exact nofun

/-- Each of the two processes counts the other's reference before either drops its own: the file is
left allocated, without links and without a cache entry. -/
theorem two_droppers_leak : ∃ s : State 2,
    Reaches State.step (fun _ a => a.2.NoAlloc) (State.init oneInode) s ∧
      (∀ p, ¬ (s.pc p).InIput) ∧ (s.disk ⟨rootdev, 2⟩).type ≠ .free ∧
      (s.disk ⟨rootdev, 2⟩).nlink = 0 ∧ ∀ i, (s.inode i).ref = 0 := by
  obtain ⟨s, hrun, hs⟩ := Option.map_eq_some_iff.mp
    (show (runActs State.step (fun (_ : State 2) a => a.2.NoAlloc)
        (unlinkShared ++ (0, .call (.iput 0)) :: (List.replicate 3 (0, .next 0) ++
          (1, .call (.iput 0)) :: (List.replicate 3 (1, .next 0) ++ [(0, .next 0), (1, .next 0)])))
        (.init oneInode)).map
        (fun s => (s.pc 0, s.pc 1, (s.disk ⟨rootdev, 2⟩).type, (s.disk ⟨rootdev, 2⟩).nlink,
          decide (∀ i, (s.inode i).ref = 0))) = some (.idle, .idle, .file, 0, true)
      by decide +kernel)
  simp only [Prod.mk.injEq, decide_eq_true_eq] at hs
  obtain ⟨hpc₀, hpc₁, htype, hnlink, href⟩ := hs
  refine ⟨s, .of_runActs _ .refl hrun, fun p => ?_, ?_, hnlink, href⟩
  · match p with
    | 0 => exact hpc₀ ▸ id
    | 1 => exact hpc₁ ▸ id
  · rw [htype]
    exact nofun

end Xv6.Icache
