import Xv6.Lib.Machine
import Xv6.Lib.Count
import Xv6.Icache.Model

/-!
# The invariant of the inode cache

One entry for each inode, exact counts, and entries that agree with the disk unless their holder is
between a change and its `iupdate`. It holds for every interleaving of the functions, provided that
`writei` does not allocate a block it will not record.
-/

namespace Xv6.Icache

open Function (update update_self update_of_ne)

open Fs (FileType)

variable {n : Nat}

namespace Pc

/-- With the lock of `i` held, the entry and the disk may differ. -/
def Dirty : Pc → Slot → Prop
  | .iputTruncUpdate j, i | .iputTypeUpdate j, i | .iputInvalid j, i | .writei j _ _ _, i
  | .iupdate j, i => j = i
  | _, _ => False

/-- With the lock of `i` held, the entry may be invalid. -/
def Loading : Pc → Slot → Prop
  | .ilock j, i | .iputTest j, i | .iputRelease j, i => j = i
  | _, _ => False

/-- A process at this statement touches no entry but `i`. -/
def Only (pc : Pc) (i : Slot) : Prop := ∀ j, pc.Dirty j ∨ pc.Loading j → j = i

def slot : Pc → Option Slot
  | .idle | .ialloc _ => none
  | .ilock i | .iputTest i | .iputRef i | .iputTrunc i | .iputTruncUpdate i | .iputType i
  | .iputTypeUpdate i | .iputInvalid i | .iputRelease i | .iputDrop i | .writei i _ _ _
  | .iupdate i => some i

/-- A process at this statement is outside of the functions, or at work on the entry `i`. -/
def Near (pc : Pc) (i : Slot) : Prop := pc = .idle ∨ pc.slot = some i

theorem Near.slot_eq {pc : Pc} {i j : Slot} (hnear : pc.Near i) (hslot : pc.slot = some j) : j = i := by
  obtain rfl | hi := hnear
  · cases hslot
  · exact Option.some.inj (hslot.symm.trans hi)

theorem slot_of_dirty_or_loading {pc : Pc} {i : Slot} (hpc : pc.Dirty i ∨ pc.Loading i) :
    pc.slot = some i := by
  obtain hpc | hpc := hpc <;> cases pc <;> first | exact hpc.elim | exact congrArg some hpc

theorem Near.only {pc : Pc} {i : Slot} (hnear : pc.Near i) : pc.Only i := fun _ hj =>
  hnear.slot_eq (slot_of_dirty_or_loading hj)

end Pc

/-- Every block that `writei` needs for `len` bytes at `off` has its slot in `addrs`. -/
def Allocated (f : Dinode) (off len : Nat) : Prop :=
  0 < len → ∀ bn < off + len, off / bsize ≤ bn → bn * bsize < off + len → f.addrs (State.addrSlot bn) ≠ 0

instance (f : Dinode) (off len : Nat) : Decidable (Allocated f off len) :=
  inferInstanceAs (Decidable (0 < len → ∀ bn < off + len, _))

namespace State

variable (s : State n) (p : Fin n)

def dinode (i : Slot) : Dinode := s.disk (s.inode i).key

/-- An inode without links that is still allocated on disk. -/
def Dying (i : Slot) : Prop := (s.dinode i).type ≠ .free ∧ (s.dinode i).nlink = 0

def PcInv : Pc → Prop
  | .idle | .ialloc _ => True
  | .ilock i | .iputTest i | .iputRelease i | .iputInvalid i => s.Holds p i
  | .iputRef i | .iputTrunc i | .iputType i =>
    s.Holds p i ∧ (s.inode i).valid = true ∧ (s.inode i).fields.nlink = 0
  | .iputTruncUpdate i => s.Holds p i ∧ (s.inode i).valid = true ∧
      (s.inode i).fields.nlink = 0 ∧ (s.inode i).fields.type ≠ .free ∧ s.Dying i
  | .iputTypeUpdate i => s.Holds p i ∧ (s.inode i).valid = true ∧
      (s.inode i).fields.type = .free ∧ s.Dying i
  | .iputDrop i => 0 < s.refs p i ∧ ¬ s.Holds p i
  | .writei i off tot n => s.Holds p i ∧ (s.inode i).valid = true ∧ (s.inode i).fields.type ≠ .free ∧
      ((0 < n ∧ (s.inode i).fields.size < off + (n - tot)) ∨
        ((s.inode i).fields = s.dinode i ∧ Allocated (s.inode i).fields off (n - tot)))
  | .iupdate i => s.Holds p i ∧ (s.inode i).valid = true ∧ (s.inode i).fields.type ≠ .free

structure Inv : Prop where
  count : ∀ i, (s.inode i).ref = ∑ p, s.refs p i
  unique : ∀ i j, 0 < (s.inode i).ref → 0 < (s.inode j).ref → (s.inode i).key = (s.inode j).key → i = j
  held : ∀ p i, s.Holds p i → 0 < s.refs p i
  loaded : ∀ p i, s.Holds p i → (s.inode i).valid = true ∨ (s.pc p).Loading i
  pc : ∀ p, s.PcInv p (s.pc p)
  coherent : ∀ i, 0 < (s.inode i).ref → (s.inode i).valid = true → (∀ p, s.Holds p i → ¬ (s.pc p).Dirty i) →
    (s.inode i).fields = s.dinode i ∧ (s.dinode i).type ≠ .free

end State

open State

section Frame

variable {s s' : State n} {p q : Fin n} {i j : Slot} {pc : Pc}

theorem State.Inv.ref_pos (hinv : s.Inv) (hrefs : 0 < s.refs p i) : 0 < (s.inode i).ref := by
  rw [hinv.count]
  exact hrefs.trans_le (le_sum (fun q => s.refs q i) p)

theorem State.Inv.refs_eq_zero (hinv : s.Inv) (hzero : (s.inode i).ref = 0) (p : Fin n) :
    s.refs p i = 0 := by
  by_contra hne
  exact absurd (hinv.ref_pos (Nat.pos_of_ne_zero hne)) (by omega)

theorem State.Inv.at_pc (hinv : s.Inv) (hpc : s.pc p = pc) : s.PcInv p pc := by
  rw [← hpc]
  exact hinv.pc p

theorem State.PcInv.frame (hpc : s.PcInv q pc) (hrefs : ∀ j, 0 < s.refs q j → 0 < s'.refs q j)
    (hholds : ∀ j, s'.Holds q j ↔ s.Holds q j)
    (hsame : ∀ j, s.Holds q j → (s'.inode j).valid = (s.inode j).valid ∧
      (s'.inode j).fields = (s.inode j).fields ∧
      ((s.dinode j).type ≠ .free → s'.dinode j = s.dinode j)) : s'.PcInv q pc := by
  cases pc with
  | idle | ialloc k => trivial
  | ilock i | iputTest i | iputRelease i | iputInvalid i => exact (hholds i).mpr hpc
  | iputDrop i => exact ⟨hrefs i hpc.1, mt (hholds i).mp hpc.2⟩
  | iputRef i | iputTrunc i | iputType i =>
    obtain ⟨hh, hv, hn⟩ := hpc
    obtain ⟨hvalid, hfields, -⟩ := hsame i hh
    exact ⟨(hholds i).mpr hh, hvalid.trans hv, hfields ▸ hn⟩
  | iputTruncUpdate i =>
    obtain ⟨hh, hv, hn, ht, hdying⟩ := hpc
    obtain ⟨hvalid, hfields, hdisk⟩ := hsame i hh
    refine ⟨(hholds i).mpr hh, hvalid.trans hv, hfields ▸ hn, hfields ▸ ht, ?_⟩
    unfold State.Dying
    rw [hdisk hdying.1]
    exact hdying
  | iputTypeUpdate i =>
    obtain ⟨hh, hv, ht, hdying⟩ := hpc
    obtain ⟨hvalid, hfields, hdisk⟩ := hsame i hh
    refine ⟨(hholds i).mpr hh, hvalid.trans hv, hfields ▸ ht, ?_⟩
    unfold State.Dying
    rw [hdisk hdying.1]
    exact hdying
  | writei i off tot n =>
    obtain ⟨hh, hv, ht, hend⟩ := hpc
    obtain ⟨hvalid, hfields, hdisk⟩ := hsame i hh
    refine ⟨(hholds i).mpr hh, hvalid.trans hv, hfields ▸ ht, ?_⟩
    rw [hfields]
    refine hend.imp_right fun ⟨hclean, halloc⟩ => ⟨?_, halloc⟩
    rw [hdisk (hclean ▸ ht)]
    exact hclean
  | iupdate i =>
    obtain ⟨hh, hv, ht⟩ := hpc
    obtain ⟨hvalid, hfields, -⟩ := hsame i hh
    exact ⟨(hholds i).mpr hh, hvalid.trans hv, hfields ▸ ht⟩

end Frame

/-! ### Changes under the sleep-lock -/

def State.touch (s : State n) (p : Fin n) (i : Slot) (node : Inode n) (d : Dinode) (pc : Pc) :
    State n :=
  { s with
    inode := update s.inode i node
    disk := update s.disk (s.inode i).key d
    pc := update s.pc p pc }

section Touch

variable {s : State n} {p q : Fin n} {i j : Slot} {node : Inode n} {d : Dinode} {pc : Pc}

theorem State.touch_inode_self : (s.touch p i node d pc).inode i = node := update_self ..

theorem State.touch_inode_of_ne (hj : j ≠ i) : (s.touch p i node d pc).inode j = s.inode j :=
  update_of_ne hj ..

theorem State.touch_pc_self : (s.touch p i node d pc).pc p = pc := update_self ..

theorem State.touch_pc_of_ne (hq : q ≠ p) : (s.touch p i node d pc).pc q = s.pc q :=
  update_of_ne hq ..

theorem State.touch_dinode_self (hkey : node.key = (s.inode i).key) :
    (s.touch p i node d pc).dinode i = d := by
  unfold State.dinode
  rw [touch_inode_self, hkey]
  exact update_self ..

theorem State.touch_dinode_of_ne (hj : j ≠ i) (hkey : (s.inode j).key ≠ (s.inode i).key) :
    (s.touch p i node d pc).dinode j = s.dinode j := by
  unfold State.dinode
  rw [touch_inode_of_ne hj]
  exact update_of_ne hkey ..

theorem State.setInode_inode_self : (s.setInode i node).inode i = node := update_self ..

theorem State.setInode_inode_of_ne (hj : j ≠ i) : (s.setInode i node).inode j = s.inode j :=
  update_of_ne hj ..

theorem State.setPc_pc_self : (s.setPc p pc).pc p = pc := update_self ..

theorem State.setPc_pc_of_ne (hq : q ≠ p) : (s.setPc p pc).pc q = s.pc q :=
  update_of_ne hq ..

theorem State.setInode_setPc_eq_touch :
    (s.setInode i node).setPc p pc = s.touch p i node (s.dinode i) pc := by
  simp [State.touch, State.setInode, State.setPc, State.dinode]

theorem State.setPc_eq_touch (i : Slot) : s.setPc p pc = s.touch p i (s.inode i) (s.dinode i) pc := by
  simp [State.touch, State.setPc, State.dinode]

theorem State.iupdate_setPc_eq_touch :
    (s.iupdate i).setPc p pc = s.touch p i (s.inode i) (s.inode i).fields pc := by
  simp [State.touch, State.setPc, State.iupdate, State.setDisk]

theorem State.setInode_eq_touch (p : Fin n) :
    s.setInode i node = s.touch p i node (s.dinode i) (s.pc p) := by
  simp [State.touch, State.setInode, State.dinode]

theorem State.touch_holds_self : (s.touch p i node d pc).Holds p i ↔ node.lock = some p := by
  unfold State.Holds
  rw [touch_inode_self]

theorem State.touch_dying_self (hkey : node.key = (s.inode i).key) :
    (s.touch p i node d pc).Dying i ↔ d.type ≠ .free ∧ d.nlink = 0 := by
  unfold State.Dying
  rw [touch_dinode_self hkey]

theorem State.touch_dinode_fields {f : Dinode} :
    (s.touch p i { s.inode i with fields := f } d pc).dinode i = d := touch_dinode_self rfl

theorem State.touch_dying_fields {f : Dinode} :
    (s.touch p i { s.inode i with fields := f } d pc).Dying i ↔ d.type ≠ .free ∧ d.nlink = 0 :=
  touch_dying_self rfl

/-- The one lemma behind all steps with the sleep-lock of `i` held or just taken. -/
theorem State.Inv.touch (hinv : s.Inv) (hown : s.Holds p i ∨ ((s.inode i).lock = none ∧ 0 < s.refs p i))
    (honly : (s.pc p).Only i) (hkey : node.key = (s.inode i).key)
    (href : node.ref = (s.inode i).ref) (hlock : node.lock = some p ∨ node.lock = none)
    (hpc : (s.touch p i node d pc).PcInv p pc)
    (hvalid : node.lock = some p → node.valid = true ∨ pc.Loading i)
    (hcoh : node.valid = true → (node.lock = some p → ¬ pc.Dirty i) →
      node.fields = d ∧ d.type ≠ .free) : (s.touch p i node d pc).Inv := by
  have hrefs : 0 < s.refs p i := hown.elim (hinv.held p i) fun h => h.2
  have hpos : 0 < (s.inode i).ref := hinv.ref_pos hrefs
  -- nobody else holds the lock, before or after
  have hother : ∀ {q j}, q ≠ p → ((s.touch p i node d pc).Holds q j ↔ s.Holds q j) ∧
      (s.Holds q j → j ≠ i) := by
    intro q j hq
    have hne : ∀ {l : Option (Fin n)}, l = some p ∨ l = none → l ≠ some q := by
      rintro _ (rfl | rfl) heq
      · exact hq (Option.some.inj heq).symm
      · cases heq
    have hnot : ¬ s.Holds q i := hne (hown.imp_right And.left)
    have hnot' : ¬ (s.touch p i node d pc).Holds q i := by
      rw [State.Holds, touch_inode_self]
      exact hne hlock
    by_cases hj : j = i
    · subst hj
      exact ⟨iff_of_false hnot' hnot, fun h => absurd h hnot⟩
    · refine ⟨?_, fun _ => hj⟩
      rw [State.Holds, touch_inode_of_ne hj]
      rfl
  have hkeyne : ∀ {j}, j ≠ i → 0 < (s.inode j).ref → (s.inode j).key ≠ (s.inode i).key :=
    fun hj hjpos heq => hj (hinv.unique _ i hjpos hpos heq)
  have hsame : ∀ j, ((s.touch p i node d pc).inode j).key = (s.inode j).key ∧
      ((s.touch p i node d pc).inode j).ref = (s.inode j).ref :=
    (Function.forall_update_iff s.inode fun j x => x.key = (s.inode j).key ∧ x.ref = (s.inode j).ref).mpr
      ⟨⟨hkey, href⟩, fun _ _ => ⟨rfl, rfl⟩⟩
  refine ⟨fun j => (hsame j).2.trans (hinv.count j), fun j k hj hk heq => ?_, fun q j hq => ?_,
    fun q j hq => ?_, fun q => ?_, fun j hj hv hclean => ?_⟩
  · rw [(hsame j).1, (hsame k).1] at heq
    rw [(hsame j).2] at hj
    rw [(hsame k).2] at hk
    exact hinv.unique j k hj hk heq
  · by_cases hqp : q = p
    · subst hqp
      by_cases hj : j = i
      · exact hj ▸ hrefs
      · rw [State.Holds, touch_inode_of_ne hj] at hq
        exact hinv.held q j hq
    · exact hinv.held q j ((hother hqp).1.mp hq)
  · by_cases hqp : q = p
    · subst hqp
      rw [touch_pc_self]
      by_cases hj : j = i
      · subst hj
        rw [State.Holds, touch_inode_self] at hq
        rw [touch_inode_self]
        exact hvalid hq
      · rw [State.Holds, touch_inode_of_ne hj] at hq
        rw [touch_inode_of_ne hj]
        refine (hinv.loaded q j hq).imp_right fun hload => ?_
        exact absurd (honly j (.inr hload)) hj
    · have hqj := (hother hqp).1.mp hq
      have hj := (hother hqp).2 hqj
      rw [touch_inode_of_ne hj, touch_pc_of_ne hqp]
      exact hinv.loaded q j hqj
  · by_cases hqp : q = p
    · subst hqp
      rw [touch_pc_self]
      exact hpc
    · rw [touch_pc_of_ne hqp]
      refine (hinv.pc q).frame (fun j hj => hj) (fun j => (hother hqp).1) fun j hqj => ?_
      have hj := (hother hqp).2 hqj
      rw [touch_inode_of_ne hj]
      exact ⟨rfl, rfl, fun _ => touch_dinode_of_ne hj (hkeyne hj (hinv.ref_pos (hinv.held q j hqj)))⟩
  · by_cases hji : j = i
    · subst hji
      rw [touch_inode_self] at hv ⊢
      rw [touch_dinode_self hkey]
      refine hcoh hv fun hp => ?_
      have := hclean p (by rw [State.Holds, touch_inode_self]; exact hp)
      rwa [touch_pc_self] at this
    · rw [touch_inode_of_ne hji] at hj hv ⊢
      rw [touch_dinode_of_ne hji (hkeyne hji hj)]
      refine hinv.coherent j hj hv fun q hq hdirty => ?_
      by_cases hqp : q = p
      · subst hqp
        exact hji (honly j (.inl hdirty))
      · refine hclean q ((hother hqp).1.mpr hq) ?_
        rw [touch_pc_of_ne hqp]
        exact hdirty

end Touch

/-! ### Changes of the counts -/

section Counts

variable {s : State n} {p q : Fin n} {i j : Slot} {k : Key}

theorem State.sum_setRefs (s : State n) (p : Fin n) (i j : Slot) (r : Nat) :
    ∑ q, (s.setRefs p i r).refs q j + (if j = i then s.refs p i else 0)
      = ∑ q, s.refs q j + if j = i then r else 0 := by
  have hsum := sum_update_add (fun m : Slot → Nat => m j) s.refs p (update (s.refs p) i r)
  by_cases hj : j = i
  · subst hj
    rw [update_self] at hsum
    rw [if_pos rfl, if_pos rfl]
    exact hsum
  · rw [update_of_ne hj] at hsum
    rw [if_neg hj, if_neg hj]
    exact Nat.add_right_cancel hsum

theorem State.setRefs_refs_self (r : Nat) : (s.setRefs p i r).refs p i = r := by
  simp [State.setRefs]

theorem State.setRefs_refs_of_ne (r : Nat) (hne : q ≠ p ∨ j ≠ i) :
    (s.setRefs p i r).refs q j = s.refs q j := by
  by_cases hq : q = p
  · subst hq
    have hj := hne.resolve_left (fun h => h rfl)
    simp [State.setRefs, update_of_ne hj]
  · simp [State.setRefs, update_of_ne hq]

structure State.SameNodes (s s' : State n) : Prop where
  lock : ∀ j, (s'.inode j).lock = (s.inode j).lock
  valid : ∀ j, (s'.inode j).valid = (s.inode j).valid
  fields : ∀ j, (s'.inode j).fields = (s.inode j).fields
  key : ∀ j, (s'.inode j).key = (s.inode j).key
  disk : s'.disk = s.disk

theorem State.SameNodes.holds {s' : State n} (hsame : s.SameNodes s') (q : Fin n) (j : Slot) :
    s'.Holds q j ↔ s.Holds q j := by
  unfold State.Holds
  rw [hsame.lock]

theorem State.SameNodes.dinode {s' : State n} (hsame : s.SameNodes s') (j : Slot) :
    s'.dinode j = s.dinode j := by
  unfold State.dinode
  rw [hsame.key, hsame.disk]

/-- The one lemma behind all steps that hand out, pass on or drop references. -/
theorem State.Inv.recount {s' : State n} (hinv : s.Inv) (hsame : s.SameNodes s')
    (hcount : ∀ j, (s'.inode j).ref = ∑ q, s'.refs q j)
    (hpos : ∀ j, 0 < (s'.inode j).ref → 0 < (s.inode j).ref) (hheld : ∀ q j, s.Holds q j → 0 < s'.refs q j)
    (hpc : ∀ q, (s'.pc q = .idle ∧ ∀ j, ¬ (s.pc q).Dirty j ∧ ¬ (s.pc q).Loading j) ∨
      (s'.pc q = s.pc q ∧ ∀ j, 0 < s.refs q j → 0 < s'.refs q j)) : s'.Inv := by
  refine ⟨hcount, fun j k hj hk heq => ?_, fun q j hq => ?_, fun q j hq => ?_, fun q => ?_,
    fun j hj hv hclean => ?_⟩
  · rw [hsame.key, hsame.key] at heq
    exact hinv.unique j k (hpos j hj) (hpos k hk) heq
  · exact hheld q j ((hsame.holds q j).mp hq)
  · rw [hsame.valid]
    refine (hinv.loaded q j ((hsame.holds q j).mp hq)).imp_right fun hload => ?_
    rcases hpc q with ⟨-, hquiet⟩ | ⟨heq, -⟩
    · exact absurd hload (hquiet j).2
    · rw [heq]
      exact hload
  · rcases hpc q with ⟨hidle, -⟩ | ⟨heq, hrefs⟩
    · rw [hidle]
      trivial
    · rw [heq]
      exact (hinv.pc q).frame hrefs (hsame.holds q)
        fun j _ => ⟨hsame.valid j, hsame.fields j, fun _ => hsame.dinode j⟩
  · rw [hsame.valid] at hv
    rw [hsame.fields, hsame.dinode]
    refine hinv.coherent j (hpos j hj) hv fun q hq hdirty => ?_
    rcases hpc q with ⟨-, hquiet⟩ | ⟨heq, -⟩
    · exact (hquiet j).1 hdirty
    · refine hclean q ((hsame.holds q j).mpr hq) ?_
      rw [heq]
      exact hdirty

def State.setRef (s : State n) (i : Slot) (r : Nat) : State n :=
  s.setInode i { s.inode i with ref := r }

theorem State.sameNodes_setRef (s : State n) (i : Slot) (r : Nat) : s.SameNodes (s.setRef i r) := by
  refine ⟨fun j => ?_, fun j => ?_, fun j => ?_, fun j => ?_, rfl⟩ <;>
  · unfold State.setRef
    by_cases hj : j = i
    · rw [hj, setInode_inode_self]
    · rw [setInode_inode_of_ne hj]

theorem State.setRef_ref (s : State n) (i j : Slot) (r : Nat) :
    ((s.setRef i r).inode j).ref = if j = i then r else (s.inode j).ref := by
  unfold State.setRef
  by_cases hj : j = i
  · rw [if_pos hj, hj, setInode_inode_self]
  · rw [if_neg hj, setInode_inode_of_ne hj]

theorem State.ref_pos_of_setRef (hpos : 0 < (s.inode i).ref) {r : Nat}
    (hj : 0 < ((s.setRef i r).inode j).ref) : 0 < (s.inode j).ref := by
  rw [setRef_ref] at hj
  by_cases hji : j = i
  · exact hji ▸ hpos
  · rwa [if_neg hji] at hj

theorem State.le_setRefs_succ (s : State n) (p q : Fin n) (i j : Slot) :
    s.refs q j ≤ (s.setRefs p i (s.refs p i + 1)).refs q j := by
  by_cases hq : q = p ∧ j = i
  · obtain ⟨rfl, rfl⟩ := hq
    exact (Nat.le_succ _).trans (State.setRefs_refs_self _).ge
  · exact (State.setRefs_refs_of_ne _ (Classical.not_and_iff_not_or_not.mp hq)).ge

theorem State.Inv.count_setRefs (hinv : s.Inv) {r r' : Nat} (hr : r + s.refs p i = (s.inode i).ref + r')
    (j : Slot) : (if j = i then r else (s.inode j).ref) = ∑ q, (s.setRefs p i r').refs q j := by
  have hsum := s.sum_setRefs p i j r'
  have hcount := hinv.count j
  by_cases hj : j = i
  · subst hj
    rw [if_pos rfl, if_pos rfl] at hsum
    rw [if_pos rfl]
    omega
  · rw [if_neg hj, if_neg hj] at hsum
    rw [if_neg hj]
    omega

theorem State.Inv.take (hinv : s.Inv) (hpos : 0 < (s.inode i).ref) : (s.take p i).Inv := by
  have hle : ∀ q j, s.refs q j ≤ (s.take p i).refs q j := fun q j => s.le_setRefs_succ p q i j
  have href := fun j => s.setRef_ref i j ((s.inode i).ref + 1)
  have hsame := s.sameNodes_setRef i ((s.inode i).ref + 1)
  refine hinv.recount ⟨hsame.lock, hsame.valid, hsame.fields, hsame.key, rfl⟩
    (fun j => (href j).trans (hinv.count_setRefs (by omega) j)) (fun _ => State.ref_pos_of_setRef hpos)
    (fun q j hq => (hinv.held q j hq).trans_le (hle q j))
    fun q => .inr ⟨rfl, fun j hj => hj.trans_le (hle q j)⟩

theorem State.Inv.drop (hinv : s.Inv) (hpc : s.pc p = .iputDrop i) :
    (((s.setInode i { s.inode i with ref := (s.inode i).ref - 1 }).setRefs p i
      (s.refs p i - 1)).setPc p .idle).Inv := by
  obtain ⟨hrefs, hfree⟩ := hinv.at_pc hpc
  have hpos := hinv.ref_pos hrefs
  have href := fun j => s.setRef_ref i j ((s.inode i).ref - 1)
  have hsame := s.sameNodes_setRef i ((s.inode i).ref - 1)
  have hother : ∀ {q j}, q ≠ p ∨ j ≠ i → (s.setRefs p i (s.refs p i - 1)).refs q j = s.refs q j :=
    fun hne => State.setRefs_refs_of_ne _ hne
  refine hinv.recount ⟨hsame.lock, hsame.valid, hsame.fields, hsame.key, rfl⟩
    (fun j => (href j).trans (hinv.count_setRefs (by omega) j)) (fun _ => State.ref_pos_of_setRef hpos)
    (fun q j hq => ?_) fun q => ?_
  · change 0 < (s.setRefs p i (s.refs p i - 1)).refs q j
    rw [hother]
    · exact hinv.held q j hq
    · by_contra hboth
      push Not at hboth
      exact hfree (hboth.1 ▸ hboth.2 ▸ hq)
  · by_cases hq : q = p
    · subst hq
      refine .inl ⟨update_self .., fun j => ?_⟩
      rw [hpc]
      exact ⟨id, id⟩
    · refine .inr ⟨update_of_ne hq .., fun j hj => ?_⟩
      change 0 < (s.setRefs p i (s.refs p i - 1)).refs q j
      rwa [hother (.inl hq)]

theorem State.Inv.give (hinv : s.Inv) (hidle : s.pc p = .idle) (hrefs : 0 < s.refs p i)
    (hfree : ¬ s.Holds p i) (hne : q ≠ p) :
    ((s.setRefs p i (s.refs p i - 1)).setRefs q i (s.refs q i + 1)).Inv := by
  set s₁ := s.setRefs p i (s.refs p i - 1) with hs₁
  have hq₁ : s₁.refs q i = s.refs q i := State.setRefs_refs_of_ne _ (Or.inl hne)
  have hle : ∀ r j, r ≠ p ∨ j ≠ i → s.refs r j ≤ (s₁.setRefs q i (s.refs q i + 1)).refs r j := by
    intro r j hr
    have hsucc := s₁.le_setRefs_succ q r i j
    rwa [hq₁, hs₁, State.setRefs_refs_of_ne _ hr] at hsucc
  refine hinv.recount ⟨fun _ => rfl, fun _ => rfl, fun _ => rfl, fun _ => rfl, rfl⟩ (fun j => ?_)
    (fun j hj => hj) (fun r j hr => ?_) fun r => ?_
  · have hsum := s.sum_setRefs p i j (s.refs p i - 1)
    have hsum₁ := s₁.sum_setRefs q i j (s.refs q i + 1)
    have hcount := hinv.count j
    change (s.inode j).ref = _
    rw [← hs₁] at hsum
    rw [hq₁] at hsum₁
    by_cases hj : j = i
    · rw [if_pos hj, if_pos hj] at hsum hsum₁
      omega
    · rw [if_neg hj, if_neg hj] at hsum hsum₁
      omega
  · refine (hinv.held r j hr).trans_le (hle r j ?_)
    by_contra hboth
    push Not at hboth
    exact hfree (hboth.1 ▸ hboth.2 ▸ hr)
  · by_cases hr : r = p
    · subst hr
      refine .inl ⟨hidle, fun j => ?_⟩
      rw [hidle]
      exact ⟨id, id⟩
    · exact .inr ⟨rfl, fun j hj => hj.trans_le (hle r j (.inl hr))⟩

theorem State.Inv.recycle (hinv : s.Inv) (hzero : (s.inode i).ref = 0)
    (hnone : ∀ j, 0 < (s.inode j).ref → (s.inode j).key ≠ k) : (s.recycle p i k).Inv := by
  have hself : (s.recycle p i k).inode i = { s.inode i with key := k, ref := 1, valid := false } := by
    simp [State.recycle, State.setInode, State.setRefs]
  have hne : ∀ {j}, j ≠ i → (s.recycle p i k).inode j = s.inode j := fun hj => by
    simp [State.recycle, State.setInode, State.setRefs, update_of_ne hj]
  have hunheld : ∀ q, ¬ s.Holds q i := fun q hq => by
    have hpos := hinv.held q i hq
    rw [hinv.refs_eq_zero hzero] at hpos
    exact absurd hpos (by omega)
  have hholds : ∀ q j, (s.recycle p i k).Holds q j ↔ s.Holds q j := by
    intro q j
    unfold State.Holds
    by_cases hj : j = i
    · subst hj
      rw [hself]
    · rw [hne hj]
  have hheld : ∀ {q j}, s.Holds q j → j ≠ i := by
    rintro q j hq rfl
    exact hunheld q hq
  have hrefs : ∀ q j, s.refs q j ≤ (s.recycle p i k).refs q j := fun q j => s.le_setRefs_succ p q i j
  refine ⟨fun j => ?_, fun j l hj hl heq => ?_, fun q j hq => ?_, fun q j hq => ?_, fun q => ?_,
    fun j hj hv hclean => ?_⟩
  · refine Eq.trans ?_ (hinv.count_setRefs (r := 1) (by omega) j)
    by_cases hj : j = i
    · subst hj
      rw [hself, if_pos rfl]
    · rw [hne hj, if_neg hj]
  · by_cases hji : j = i
    · by_cases hli : l = i
      · rw [hji, hli]
      · subst hji
        rw [hself, hne hli] at heq
        rw [hne hli] at hl
        exact absurd heq.symm (hnone l hl)
    · by_cases hli : l = i
      · subst hli
        rw [hself, hne hji] at heq
        rw [hne hji] at hj
        exact absurd heq (hnone j hj)
      · rw [hne hji] at hj heq
        rw [hne hli] at hl heq
        exact hinv.unique j l hj hl heq
  · exact Nat.lt_of_lt_of_le (hinv.held q j ((hholds q j).mp hq)) (hrefs q j)
  · have hqj := (hholds q j).mp hq
    rw [hne (hheld hqj)]
    exact hinv.loaded q j hqj
  · refine (hinv.pc q).frame (fun j hj => hj.trans_le (hrefs q j)) (hholds q) fun j hqj => ?_
    unfold State.dinode
    rw [hne (hheld hqj)]
    exact ⟨rfl, rfl, fun _ => rfl⟩
  · by_cases hji : j = i
    · subst hji
      rw [hself] at hv
      cases hv
    · unfold State.dinode
      rw [hne hji] at hj hv ⊢
      exact hinv.coherent j hj hv fun q hq => hclean q ((hholds q j).mpr hq)

end Counts

/-! ### Every step -/

section Step

variable {s s' : State n} {p : Fin n} {i : Slot} {k : Key}

theorem State.Inv.alloc (hinv : s.Inv) (hidle : s.pc p = .idle) {type : FileType}
    (hfree : (s.disk k).type = .free) : ((s.setDisk k (.fresh type)).setPc p (.ialloc k)).Inv := by
  have hkeep : ∀ j, (s.dinode j).type ≠ .free →
      ((s.setDisk k (.fresh type)).setPc p (.ialloc k)).dinode j = s.dinode j := by
    intro j hj
    refine update_of_ne ?_ ..
    intro heq
    exact hj ((congrArg (fun k => (s.disk k).type) heq).trans hfree)
  refine ⟨hinv.count, hinv.unique, hinv.held, fun q j hq => ?_, fun q => ?_, fun j hj hv hclean => ?_⟩
  · refine (hinv.loaded q j hq).imp_right fun hload => ?_
    by_cases hqp : q = p
    · subst hqp
      rw [hidle] at hload
      exact hload.elim
    · rw [setPc_pc_of_ne hqp]
      exact hload
  · by_cases hqp : q = p
    · subst hqp
      rw [setPc_pc_self]
      trivial
    · rw [setPc_pc_of_ne hqp]
      exact (hinv.pc q).frame (fun _ h => h) (fun _ => .rfl) fun j _ => ⟨rfl, rfl, hkeep j⟩
  · obtain ⟨hfields, htype⟩ := hinv.coherent j hj hv fun q hq hdirty => by
      refine hclean q hq ?_
      by_cases hqp : q = p
      · subst hqp
        rw [hidle] at hdirty
        exact hdirty.elim
      · rw [setPc_pc_of_ne hqp]
        exact hdirty
    rw [hkeep j htype]
    exact ⟨hfields, htype⟩

theorem State.cached_eq_some (hcached : s.cached k = some i) :
    0 < (s.inode i).ref ∧ (s.inode i).key = k := by
  unfold State.cached at hcached
  simpa using List.find?_some hcached

theorem State.cached_eq_none (hcached : s.cached k = none) (j : Slot) (hj : 0 < (s.inode j).ref) :
    (s.inode j).key ≠ k := by
  unfold State.cached at hcached
  have hnot := List.find?_eq_none.mp hcached j (List.mem_finRange j)
  simp only [decide_eq_true_eq, not_and] at hnot
  exact hnot hj

theorem State.empty_eq_some (hempty : s.empty = some i) : (s.inode i).ref = 0 := by
  unfold State.empty at hempty
  simpa using List.find?_some hempty

theorem State.iget_cases (higet : s.iget p k = some s') :
    (∃ i, 0 < (s.inode i).ref ∧ (s.inode i).key = k ∧ s' = s.take p i) ∨
      ∃ i, (s.inode i).ref = 0 ∧ (∀ j, 0 < (s.inode j).ref → (s.inode j).key ≠ k) ∧
        s' = s.recycle p i k := by
  unfold State.iget at higet
  split at higet
  · rename_i i hcached
    obtain ⟨hpos, hkey⟩ := cached_eq_some hcached
    exact .inl ⟨i, hpos, hkey, (Option.some.inj higet).symm⟩
  · rename_i hcached
    split at higet
    · rename_i i hempty
      exact .inr ⟨i, empty_eq_some hempty, cached_eq_none hcached, (Option.some.inj higet).symm⟩
    · cases higet

theorem State.Inv.iget (hinv : s.Inv) (higet : s.iget p k = some s') : s'.Inv := by
  rcases State.iget_cases higet with ⟨i, hpos, -, rfl⟩ | ⟨i, hzero, hnone, rfl⟩
  · exact hinv.take hpos
  · exact hinv.recycle hzero hnone

theorem State.Inv.setPc_idle (hinv : s.Inv) (hpc : ∀ j, ¬ (s.pc p).Dirty j ∧ ¬ (s.pc p).Loading j) :
    (s.setPc p .idle).Inv := by
  refine hinv.recount ⟨fun _ => rfl, fun _ => rfl, fun _ => rfl, fun _ => rfl, rfl⟩ hinv.count
    (fun _ h => h) hinv.held fun q => ?_
  by_cases hq : q = p
  · subst hq
    exact .inl ⟨update_self .., hpc⟩
  · exact .inr ⟨update_of_ne hq .., fun _ h => h⟩

theorem State.Inv.clean (hinv : s.Inv) (hown : s.Holds p i ∨ ((s.inode i).lock = none ∧ 0 < s.refs p i))
    (hpc : ¬ (s.pc p).Dirty i) (hvalid : (s.inode i).valid = true) :
    (s.inode i).fields = s.dinode i ∧ (s.dinode i).type ≠ .free := by
  have hrefs : 0 < s.refs p i := hown.elim (hinv.held p i) fun h => h.2
  refine hinv.coherent i (hinv.ref_pos hrefs) hvalid fun q hq => ?_
  rcases hown with hp | ⟨hnone, -⟩
  · obtain rfl : q = p := Option.some.inj (hq.symm.trans hp)
    exact hpc
  · rw [State.Holds, hnone] at hq
    cases hq

theorem State.Inv.idle_holder (hinv : s.Inv) (hidle : s.pc p = .idle) (hholds : s.Holds p i) :
    (s.inode i).valid = true ∧ (s.inode i).fields = s.dinode i ∧ (s.dinode i).type ≠ .free := by
  have hvalid := hinv.loaded p i hholds
  rw [hidle] at hvalid
  have hv := hvalid.resolve_right id
  refine ⟨hv, hinv.clean (.inl hholds) ?_ hv⟩
  rw [hidle]
  exact id

def State.Recorded (s : State n) (a : Fin n × Act n) : Prop :=
  match a.2 with
  | .call (.writei i off len) => (s.inode i).fields.type ≠ .dev →
      off + len ≤ (s.inode i).fields.size → off + len ≤ maxfile * bsize →
      Allocated (s.inode i).fields off len
  | _ => True

instance (s : State n) (a : Fin n × Act n) : Decidable (s.Recorded a) :=
  match a with
  | (_, .call (.writei i off len)) => (inferInstance : Decidable
      ((s.inode i).fields.type ≠ .dev → off + len ≤ (s.inode i).fields.size →
        off + len ≤ maxfile * bsize → Allocated (s.inode i).fields off len))
  | (_, .call (.idup _)) | (_, .call (.ilock _)) | (_, .call (.iunlock _)) | (_, .call (.iput _))
  | (_, .call (.ialloc ..)) | (_, .call (.update ..)) | (_, .call (.give ..)) | (_, .next _)
  | (_, .call (.iget _)) => .isTrue trivial

theorem bmap_of_allocated {f : Dinode} {off len : Nat} (halloc : Allocated f off len)
    (hlen : 0 < len) (b : Nat) : bmap f (off / bsize) b = f := by
  have hmul := Nat.div_mul_le_self off bsize
  have hdiv := Nat.div_le_self off bsize
  exact if_neg (halloc hlen (off / bsize) (by omega) le_rfl (by omega))

theorem Allocated.tail {f : Dinode} {off len m : Nat} (halloc : Allocated f off len) (hm : m ≤ len) :
    Allocated f (off + m) (len - m) := by
  intro hlen bn hlt hlow hhigh
  have hdiv : off / bsize ≤ (off + m) / bsize := Nat.div_le_div_right (by omega)
  exact halloc (by omega) bn (by omega) (by omega) (by omega)

/-- The steps that change no entry but `i`, whose lock the process holds or takes: the entry becomes
`node`, the inode on disk `d`, and the process goes on at `pc`. -/
inductive State.Move (s : State n) (p : Fin n) (i : Slot) : Act n → Inode n → Dinode → Pc → Prop
  | ilock (hrefs : 0 < s.refs p i) (hfree : (s.inode i).lock = none) (hpc : s.pc p = .idle) :
      Move s p i (.call (.ilock i)) { s.inode i with lock := some p } (s.dinode i) (.ilock i)
  | iput (hrefs : 0 < s.refs p i) (hfree : (s.inode i).lock = none) (hpc : s.pc p = .idle) :
      Move s p i (.call (.iput i)) { s.inode i with lock := some p } (s.dinode i) (.iputTest i)
  | iunlock (hholds : s.Holds p i) (hpc : s.pc p = .idle) :
      Move s p i (.call (.iunlock i)) { s.inode i with lock := none } (s.dinode i) .idle
  | update {major minor nlink : Int} (hholds : s.Holds p i) (hpc : s.pc p = .idle) :
      Move s p i (.call (.update i major minor nlink))
        { s.inode i with fields := { (s.inode i).fields with
          major := major, minor := minor, nlink := nlink } } (s.dinode i) (.iupdate i)
  | writei {off len : Nat} (hholds : s.Holds p i)
      (hcheck : ¬ ((s.inode i).fields.type = .dev ∨ (s.inode i).fields.size < off ∨
        maxfile * bsize < off + len)) (hpc : s.pc p = .idle) :
      Move s p i (.call (.writei i off len)) (s.inode i) (s.dinode i) (.writei i off 0 len)
  | loaded {b : Nat} (hvalid : (s.inode i).valid = true) (hpc : s.pc p = .ilock i) :
      Move s p i (.next b) (s.inode i) (s.dinode i) .idle
  | load {b : Nat} (htype : (s.dinode i).type ≠ .free) (hpc : s.pc p = .ilock i) :
      Move s p i (.next b) { s.inode i with valid := true, fields := s.dinode i } (s.dinode i) .idle
  | unlinked {b : Nat} (htest : (s.inode i).valid = true ∧ (s.inode i).fields.nlink = 0)
      (hpc : s.pc p = .iputTest i) : Move s p i (.next b) (s.inode i) (s.dinode i) (.iputRef i)
  | linked {b : Nat} (htest : ¬ ((s.inode i).valid = true ∧ (s.inode i).fields.nlink = 0))
      (hpc : s.pc p = .iputTest i) : Move s p i (.next b) (s.inode i) (s.dinode i) (.iputRelease i)
  | last {b : Nat} (hone : (s.inode i).ref = 1) (hpc : s.pc p = .iputRef i) :
      Move s p i (.next b) (s.inode i) (s.dinode i) (.iputTrunc i)
  | shared {b : Nat} (hmore : (s.inode i).ref ≠ 1) (hpc : s.pc p = .iputRef i) :
      Move s p i (.next b) (s.inode i) (s.dinode i) (.iputRelease i)
  | trunc {b : Nat} (hpc : s.pc p = .iputTrunc i) :
      Move s p i (.next b) { s.inode i with fields := (s.inode i).fields.truncated } (s.dinode i)
        (.iputTruncUpdate i)
  | truncUpdate {b : Nat} (hpc : s.pc p = .iputTruncUpdate i) :
      Move s p i (.next b) (s.inode i) (s.inode i).fields (.iputType i)
  | type {b : Nat} (hpc : s.pc p = .iputType i) :
      Move s p i (.next b) { s.inode i with fields := { (s.inode i).fields with type := .free } }
        (s.dinode i) (.iputTypeUpdate i)
  | typeUpdate {b : Nat} (hpc : s.pc p = .iputTypeUpdate i) :
      Move s p i (.next b) (s.inode i) (s.inode i).fields (.iputInvalid i)
  | invalid {b : Nat} (hpc : s.pc p = .iputInvalid i) :
      Move s p i (.next b) { s.inode i with valid := false } (s.dinode i) (.iputRelease i)
  | release {b : Nat} (hpc : s.pc p = .iputRelease i) :
      Move s p i (.next b) { s.inode i with lock := none } (s.dinode i) (.iputDrop i)
  | bmap {b off tot len m : Nat} (hmore : tot < len) (hm : m = min (len - tot) (bsize - off % bsize))
      (hpc : s.pc p = .writei i off tot len) :
      Move s p i (.next b) { s.inode i with fields := State.bmap (s.inode i).fields (off / bsize) b }
        (s.dinode i) (.writei i (off + m) (tot + m) len)
  | grow {b off tot len : Nat} (hpc : s.pc p = .writei i off tot len) :
      Move s p i (.next b) { s.inode i with fields := { (s.inode i).fields with size := off } }
        (s.dinode i) (.iupdate i)
  | done {b off tot len : Nat} (hdone : ¬ tot < len)
      (hsize : ¬ (0 < len ∧ (s.inode i).fields.size < off)) (hpc : s.pc p = .writei i off tot len) :
      Move s p i (.next b) (s.inode i) (s.dinode i) .idle
  | iupdate {b : Nat} (hpc : s.pc p = .iupdate i) :
      Move s p i (.next b) (s.inode i) (s.inode i).fields .idle

/-- What a step of `p` does. -/
inductive State.Effect (s : State n) (p : Fin n) : Act n → State n → Prop
  | same {a : Act n} : Effect s p a s
  | move {a : Act n} {i : Slot} {node : Inode n} {d : Dinode} {pc : Pc}
      (hmove : s.Move p i a node d pc) : Effect s p a (s.touch p i node d pc)
  | iget {k : Key} {s' : State n} (higet : s.iget p k = some s') (hpc : s.pc p = .idle) :
      Effect s p (.call (.iget k)) s'
  | idup {i : Slot} (hrefs : 0 < s.refs p i) (hpc : s.pc p = .idle) :
      Effect s p (.call (.idup i)) (s.take p i)
  | ialloc {k : Key} {type : FileType} (hfree : (s.disk k).type = .free) (htype : type ≠ .free)
      (hpc : s.pc p = .idle) :
      Effect s p (.call (.ialloc k type)) ((s.setDisk k (.fresh type)).setPc p (.ialloc k))
  | give {q : Fin n} {i : Slot} (hrefs : 0 < s.refs p i) (hfree : ¬ s.Holds p i) (hne : q ≠ p)
      (hpc : s.pc p = .idle) : Effect s p (.call (.give q i))
        ((s.setRefs p i (s.refs p i - 1)).setRefs q i (s.refs q i + 1))
  | drop {b : Nat} {i : Slot} (hpc : s.pc p = .iputDrop i) :
      Effect s p (.next b) (((s.setInode i { s.inode i with ref := (s.inode i).ref - 1 }).setRefs p i
        (s.refs p i - 1)).setPc p .idle)
  | allocated {b : Nat} {k : Key} {s' : State n} (higet : s.iget p k = some s')
      (hpc : s.pc p = .ialloc k) : Effect s p (.next b) (s'.setPc p .idle)

theorem State.effect_of_call {c : Call n} (hidle : s.pc p = .idle) (hcall : s.call p c = some s') :
    s.Effect p (.call c) s' := by
  cases c <;> simp only [State.call, State.acquire, State.setFields, State.setInode_setPc_eq_touch,
    Option.ite_none_right_eq_some, Option.some.injEq] at hcall
  case iget k => exact .iget hcall hidle
  case idup i =>
    obtain ⟨hrefs, rfl⟩ := hcall
    exact .idup hrefs hidle
  case ilock i =>
    obtain ⟨⟨hrefs, hfree⟩, rfl⟩ := hcall
    exact .move (.ilock hrefs hfree hidle)
  case iunlock i =>
    obtain ⟨⟨hholds, -⟩, rfl⟩ := hcall
    rw [State.setInode_eq_touch p, hidle]
    exact .move (.iunlock hholds hidle)
  case iput i =>
    obtain ⟨⟨hrefs, hfree⟩, rfl⟩ := hcall
    exact .move (.iput hrefs hfree hidle)
  case ialloc k type =>
    obtain ⟨⟨-, hfree, htype⟩, rfl⟩ := hcall
    exact .ialloc hfree htype hidle
  case update i major minor nlink =>
    obtain ⟨hholds, rfl⟩ := hcall
    exact .move (.update hholds hidle)
  case writei i off len =>
    obtain ⟨hholds, hcall⟩ := hcall
    split at hcall <;> cases hcall
    · exact .same
    · rename_i hcheck
      rw [State.setPc_eq_touch i]
      exact .move (.writei hholds hcheck hidle)
  case give q i =>
    obtain ⟨⟨hrefs, hfree, hne⟩, rfl⟩ := hcall
    exact .give hrefs hfree hne hidle

theorem State.effect_of_next {b : Nat} (hnext : s.next p b = some s') : s.Effect p (.next b) s' := by
  cases hpc : s.pc p <;> simp only [State.next, hpc, State.setFields, State.setInode_setPc_eq_touch,
    State.iupdate_setPc_eq_touch, Option.some.injEq, Option.map_eq_some_iff, reduceCtorEq] at hnext
  case ilock i =>
    split at hnext
    · rename_i hvalid
      cases hnext
      rw [State.setPc_eq_touch i]
      exact .move (.loaded hvalid hpc)
    · split at hnext <;> cases hnext
      rename_i htype
      exact .move (.load htype hpc)
  case iputTest i =>
    split at hnext <;> cases hnext <;> rename_i htest <;> rw [State.setPc_eq_touch i]
    · exact .move (.unlinked htest hpc)
    · exact .move (.linked htest hpc)
  case iputRef i =>
    split at hnext <;> cases hnext <;> rename_i href <;> rw [State.setPc_eq_touch i]
    · exact .move (.last href hpc)
    · exact .move (.shared href hpc)
  case iputDrop i =>
    subst hnext
    exact .drop hpc
  case ialloc k =>
    obtain ⟨s₁, higet, rfl⟩ := hnext
    exact .allocated higet hpc
  case writei i off tot len =>
    split at hnext
    · rename_i hmore
      cases hnext
      exact .move (.bmap hmore rfl hpc)
    · rename_i hdone
      split at hnext <;> cases hnext
      · exact .move (.grow hpc)
      · rename_i hsize
        rw [State.setPc_eq_touch i]
        exact .move (.done hdone hsize hpc)
  all_goals
    subst hnext
    first
    | exact .move (.trunc hpc)
    | exact .move (.truncUpdate hpc)
    | exact .move (.type hpc)
    | exact .move (.typeUpdate hpc)
    | exact .move (.invalid hpc)
    | exact .move (.release hpc)
    | exact .move (.iupdate hpc)

theorem State.effect_of_step {a : Fin n × Act n} (hstep : s.step a = some s') : s.Effect a.1 a.2 s' := by
  obtain ⟨p, act⟩ := a
  cases act with
  | call c =>
    simp only [State.step, Option.ite_none_right_eq_some] at hstep
    exact effect_of_call hstep.1 hstep.2
  | next b => exact effect_of_next hstep

section Move

variable {node : Inode n} {d : Dinode} {pc : Pc} {a : Act n} (hmove : s.Move p i a node d pc)

include hmove

theorem State.Move.key : node.key = (s.inode i).key := by
  cases hmove <;> rfl

theorem State.Move.ref : node.ref = (s.inode i).ref := by
  cases hmove <;> rfl

theorem State.Move.near : (s.pc p).Near i ∧ pc.Near i := by
  cases hmove <;> rename_i hpc <;> simp [hpc, Pc.Near, Pc.slot]

theorem State.Inv.own_of_move (hinv : s.Inv) : (s.Holds p i ∨ ((s.inode i).lock = none ∧ 0 < s.refs p i)) ∧
      (node.lock = some p ∨ node.lock = none) := by
  cases hmove with
  | ilock hrefs hfree | iput hrefs hfree => exact ⟨.inr ⟨hfree, hrefs⟩, .inl rfl⟩
  | iunlock hholds => exact ⟨.inl hholds, .inr rfl⟩
  | update hholds | writei hholds => exact ⟨.inl hholds, .inl hholds⟩
  | release hpc => exact ⟨.inl (hinv.at_pc hpc), .inr rfl⟩
  | loaded _ hpc | load _ hpc | unlinked _ hpc | linked _ hpc | invalid hpc =>
    have hholds := hinv.at_pc hpc
    exact ⟨.inl hholds, .inl hholds⟩
  | _ =>
    rename_i hpc
    have hholds := (hinv.at_pc hpc).1
    exact ⟨.inl hholds, .inl hholds⟩

theorem State.Inv.move (hinv : s.Inv) (hrec : s.Recorded (p, a)) : (s.touch p i node d pc).Inv := by
  obtain ⟨hown, hlock⟩ := hinv.own_of_move hmove
  have hclean : ∀ {pc}, s.pc p = pc → ¬ pc.Dirty i → (s.inode i).valid = true →
      (s.inode i).fields = s.dinode i ∧ (s.dinode i).type ≠ .free := by
    rintro _ rfl
    exact hinv.clean hown
  suffices hnew : (s.touch p i node d pc).PcInv p pc ∧
      (node.lock = some p → node.valid = true ∨ pc.Loading i) ∧
      (node.valid = true → (node.lock = some p → ¬ pc.Dirty i) → node.fields = d ∧ d.type ≠ .free) from
    hinv.touch hown hmove.near.1.only hmove.key hmove.ref hlock hnew.1 hnew.2.1 hnew.2.2
  cases hmove with
  | ilock _ _ hpc | iput _ _ hpc =>
    exact ⟨touch_holds_self.mpr rfl, fun _ => .inr rfl, fun hv _ => hclean hpc id hv⟩
  | iunlock hholds hpc => exact ⟨trivial, nofun, fun _ _ => (hinv.idle_holder hpc hholds).2⟩
  | update hholds hpc =>
    obtain ⟨hv, hfields, htype⟩ := hinv.idle_holder hpc hholds
    refine ⟨⟨touch_holds_self.mpr hholds, ?_⟩, fun _ => .inl hv, fun _ hnot => absurd rfl (hnot hholds)⟩
    rw [touch_inode_self]
    exact ⟨hv, hfields ▸ htype⟩
  | @writei off len hholds hcheck hpc =>
    obtain ⟨hv, hfields, htype⟩ := hinv.idle_holder hpc hholds
    push Not at hcheck
    refine ⟨⟨touch_holds_self.mpr hholds, ?_⟩, fun _ => .inl hv, fun _ hnot => absurd rfl (hnot hholds)⟩
    rw [touch_inode_self, touch_dinode_self rfl]
    refine ⟨hv, hfields ▸ htype, ?_⟩
    by_cases hend : off + len ≤ (s.inode i).fields.size
    · exact .inr ⟨hfields, hrec hcheck.1 hend hcheck.2.2⟩
    · exact .inl ⟨by omega, by omega⟩
  | loaded hv hpc => exact ⟨trivial, fun _ => .inl hv, fun _ _ => hclean hpc id hv⟩
  | load htype => exact ⟨trivial, fun _ => .inl rfl, fun _ _ => ⟨rfl, htype⟩⟩
  | unlinked htest hpc =>
    refine ⟨⟨touch_holds_self.mpr (hinv.at_pc hpc), ?_⟩, fun _ => .inl htest.1,
      fun hv _ => hclean hpc id hv⟩
    rw [touch_inode_self]
    exact htest
  | linked _ hpc =>
    exact ⟨touch_holds_self.mpr (hinv.at_pc hpc), fun _ => .inr rfl, fun hv _ => hclean hpc id hv⟩
  | last _ hpc =>
    obtain ⟨hholds, hat⟩ := hinv.at_pc hpc
    refine ⟨⟨touch_holds_self.mpr hholds, ?_⟩, fun _ => .inl hat.1, fun hv _ => hclean hpc id hv⟩
    rw [touch_inode_self]
    exact hat
  | shared _ hpc =>
    exact ⟨touch_holds_self.mpr (hinv.at_pc hpc).1, fun _ => .inr rfl, fun hv _ => hclean hpc id hv⟩
  | trunc hpc =>
    obtain ⟨hholds, hv, hnlink⟩ := hinv.at_pc hpc
    obtain ⟨hfields, htype⟩ := hclean hpc id hv
    refine ⟨⟨touch_holds_self.mpr hholds, ?_⟩, fun _ => .inl hv, fun _ hnot => absurd rfl (hnot hholds)⟩
    rw [touch_inode_self, touch_dying_fields]
    exact ⟨hv, hnlink, hfields ▸ htype, htype, hfields ▸ hnlink⟩
  | truncUpdate hpc =>
    obtain ⟨hholds, hv, hnlink, htype, -⟩ := hinv.at_pc hpc
    refine ⟨⟨touch_holds_self.mpr hholds, ?_⟩, fun _ => .inl hv, fun _ _ => ⟨rfl, htype⟩⟩
    rw [touch_inode_self]
    exact ⟨hv, hnlink⟩
  | type hpc =>
    obtain ⟨hholds, hv, hnlink⟩ := hinv.at_pc hpc
    obtain ⟨hfields, htype⟩ := hclean hpc id hv
    refine ⟨⟨touch_holds_self.mpr hholds, ?_⟩, fun _ => .inl hv, fun _ hnot => absurd rfl (hnot hholds)⟩
    rw [touch_inode_self, touch_dying_fields]
    exact ⟨hv, rfl, htype, hfields ▸ hnlink⟩
  | typeUpdate hpc =>
    obtain ⟨hholds, hv, -⟩ := hinv.at_pc hpc
    exact ⟨touch_holds_self.mpr hholds, fun _ => .inl hv, fun _ hnot => absurd rfl (hnot hholds)⟩
  | invalid hpc => exact ⟨touch_holds_self.mpr (hinv.at_pc hpc), fun _ => .inr rfl, nofun⟩
  | release hpc =>
    exact ⟨⟨hinv.held p i (hinv.at_pc hpc), mt touch_holds_self.mp nofun⟩, nofun,
      fun hv _ => hclean hpc id hv⟩
  | @bmap b off tot len m hmore hm hpc =>
    obtain ⟨hholds, hv, htype, hend⟩ := hinv.at_pc hpc
    have hrest : len - (tot + m) = len - tot - m := by omega
    have hkeep : (State.bmap (s.inode i).fields (off / bsize) b).type = (s.inode i).fields.type ∧
        (State.bmap (s.inode i).fields (off / bsize) b).size = (s.inode i).fields.size := by
      unfold State.bmap
      split <;> exact ⟨rfl, rfl⟩
    refine ⟨⟨touch_holds_self.mpr hholds, ?_⟩, fun _ => .inl hv, fun _ hnot => absurd rfl (hnot hholds)⟩
    rw [touch_inode_self, touch_dinode_fields, hrest]
    refine ⟨hv, hkeep.1 ▸ htype, ?_⟩
    obtain ⟨hlen, hpast⟩ | ⟨hfields, halloc⟩ := hend
    · refine .inl ⟨hlen, ?_⟩
      rw [hkeep.2]
      omega
    · rw [bmap_of_allocated halloc (by omega)]
      exact .inr ⟨hfields, halloc.tail (by omega)⟩
  | grow hpc =>
    obtain ⟨hholds, hv, htype, -⟩ := hinv.at_pc hpc
    refine ⟨⟨touch_holds_self.mpr hholds, ?_⟩, fun _ => .inl hv, fun _ hnot => absurd rfl (hnot hholds)⟩
    rw [touch_inode_self]
    exact ⟨hv, htype⟩
  | done hdone hsize hpc =>
    obtain ⟨-, hv, htype, hend⟩ := hinv.at_pc hpc
    refine ⟨trivial, fun _ => .inl hv, fun _ _ => ?_⟩
    obtain ⟨hlen, hpast⟩ | ⟨hfields, -⟩ := hend
    · exact absurd ⟨hlen, by omega⟩ hsize
    · exact ⟨hfields, hfields ▸ htype⟩
  | iupdate hpc =>
    obtain ⟨-, hv, htype⟩ := hinv.at_pc hpc
    exact ⟨trivial, fun _ => .inl hv, fun _ _ => ⟨rfl, htype⟩⟩

end Move

theorem State.iget_pc (higet : s.iget p k = some s') : s'.pc = s.pc := by
  obtain ⟨i, -, -, rfl⟩ | ⟨i, -, -, rfl⟩ := State.iget_cases higet <;> rfl

theorem State.Inv.effect (hinv : s.Inv) {a : Act n} (hrec : s.Recorded (p, a))
    (heffect : s.Effect p a s') : s'.Inv := by
  cases heffect with
  | same => exact hinv
  | move hmove => exact hinv.move hmove hrec
  | iget higet => exact hinv.iget higet
  | idup hrefs => exact hinv.take (hinv.ref_pos hrefs)
  | ialloc hfree _ hpc => exact hinv.alloc hpc hfree
  | give hrefs hfree hne hpc => exact hinv.give hpc hrefs hfree hne
  | drop hpc => exact hinv.drop hpc
  | allocated higet hpc =>
    refine (hinv.iget higet).setPc_idle fun j => ?_
    rw [iget_pc higet, hpc]
    exact ⟨id, id⟩

theorem State.inv_init (disk : Key → Dinode) : (State.init disk : State n).Inv where
  count i := by simp [State.init]
  unique i j hi := absurd hi (by simp [State.init])
  held p i h := by cases h
  loaded p i h := by cases h
  pc p := trivial
  coherent i hi := absurd hi (by simp [State.init])

end Step

end Xv6.Icache
