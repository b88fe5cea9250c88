import Xv6.Disk.Accounts

/-!
# A transaction fits its reservation

A call counts the inodes and the other blocks that it may have logged since `begin_op`; with the one
bitmap block of a disk of `FSSIZE` blocks they are at most `MAXOPBLOCKS`. The count fails when a path
leads through directories without links that nobody uses, since the walk frees each of them.
-/

namespace Xv6.Disk

open Fs (Inum Op slash)

variable {n : Nat}

theorem Inv.card_logged_le {N : Nodes} {strict : Prop} {p : Fin n} {s : State n} {l : Use}
    (hinv : Inv N strict p s l) (hstrict : strict) :
    s.disk.logged.toFinset.card ≤ 1 + l.nodes.card + l.extra := by
  obtain ⟨blocks, hcard, hlogged⟩ := hinv.logged hstrict
  have hsub : s.disk.logged.toFinset ⊆ ({s.disk.sb.bmapstart} ∪ l.nodes.image s.disk.iblock) ∪ blocks := by
    intro x hx
    simp only [Finset.mem_union, Finset.mem_singleton, Finset.mem_image]
    rcases hlogged x (List.mem_toFinset.mp hx) with hbitmap | ⟨i, hi, rfl⟩ | hblock
    · exact .inl (.inl hbitmap)
    · exact .inl (.inr ⟨i, hi, rfl⟩)
    · exact .inr hblock
  calc s.disk.logged.toFinset.card
      ≤ (({s.disk.sb.bmapstart} ∪ l.nodes.image s.disk.iblock) ∪ blocks).card := Finset.card_le_card hsub
    _ ≤ ({s.disk.sb.bmapstart} ∪ l.nodes.image s.disk.iblock).card + blocks.card :=
        Finset.card_union_le _ _
    _ ≤ (1 + (l.nodes.image s.disk.iblock).card) + blocks.card :=
        Nat.add_le_add_right (Finset.card_union_le _ _) _
    _ ≤ 1 + l.nodes.card + l.extra :=
        Nat.add_le_add (Nat.add_le_add_left Finset.card_image_le _) hcard

theorem Settled.short {s : State n} (hsettled : Settled s) (hbmap : s.disk.sb.bmapstart < s.disk.sb.size)
    (hsize : s.disk.sb.size ≤ fssize) {i : Inum} (hi : i < s.disk.sb.ninodes) : i % 2 ^ 16 = i := by
  have hinodes := hsettled.sound.owned.ok.inodes
  rw [show ipb = 8 from rfl] at hinodes
  simp only [fssize] at hsize
  exact Nat.mod_eq_of_lt (Nat.lt_trans hi (by omega))

/-- The inodes of a disk of at most `FSSIZE` blocks that are not orphans. -/
def Nodes.kept (s : State n) (hsettled : Settled s) (hbmap : s.disk.sb.bmapstart < s.disk.sb.size)
    (hsize : s.disk.sb.size ≤ fssize) : Nodes where
  count := s.disk.sb.ninodes
  named := { i | i < s.disk.sb.ninodes ∧ i ∈ s.kept }
  lt _ hi := hi.1
  short _ hi := (hsettled.short hbmap hsize hi.1).symm ▸ hi

def force {α : Type} (x : Nat) (k : Nat → α) : α :=
  match x with
  | 0 => k 0
  | m + 1 => k (m + 1)

theorem force_eq {α : Type} (x : Nat) (k : Nat → α) : force x k = k x := by
  cases x <;> rfl

def forceAll {α : Type} : List Nat → (List Nat → α) → α
  | [], k => k []
  | x :: xs, k => force x fun x => forceAll xs fun xs => k (x :: xs)

theorem forceAll_eq {α : Type} (xs : List Nat) (k : List Nat → α) : forceAll xs k = k xs := by
  induction xs generalizing k with
  | nil => rfl
  | cons x xs ih =>
    unfold forceAll
    rw [force_eq, ih]

def Dinode.force {α : Type} (node : Dinode) (k : Dinode → α) : α :=
  Disk.force node.type.toNat fun type => Disk.force node.nlink.toNat fun nlink =>
    Disk.force node.size.toNat fun size =>
      forceAll ((List.finRange (ndirect + 1)).map node.addr) fun addrs =>
        k { node with
            type := .ofNat type
            nlink := .ofNat nlink
            size := .ofNat size
            addrs := fun j => .ofNat (addrs.getD j 0) }

theorem Dinode.force_eq {α : Type} (node : Dinode) (k : Dinode → α) : node.force k = k node := by
  have haddrs : (fun j : Fin (ndirect + 1) =>
      UInt32.ofNat (((List.finRange (ndirect + 1)).map node.addr).getD j 0)) = node.addrs := by
    funext j
    have hj : j < ((List.finRange (ndirect + 1)).map node.addr).length := by
      rw [List.length_map, List.length_finRange]
      exact j.isLt
    rw [List.getD_eq_getElem _ _ hj]
    simp [Dinode.addr]
  unfold Dinode.force
  rw [Disk.force_eq, Disk.force_eq, Disk.force_eq, forceAll_eq, haddrs]
  simp only [UInt16.ofNat_toNat, UInt32.ofNat_toNat]

namespace State

def eagerLoad (s : State n) (ip : Inum) : Fs.FileType × State n :=
  if s.tables.valid ip then
    (typeOf (s.node ip).type, s)
  else if (s.disk.dinode ip).type = 0 then
    (.free, s)
  else
    (s.disk.dinode ip).force fun node =>
      (typeOf node.type,
        { s with node := Function.update s.node ip node, tables := s.tables.setValid ip true })

theorem eagerLoad_eq (s : State n) (ip : Inum) : s.eagerLoad ip = s.load ip := by
  unfold eagerLoad load
  rw [Dinode.force_eq]

def eagerEntry : Option (Option Fs.Dirent × State n) → Option (Option Fs.Dirent × State n)
  | some (some de, s) => force de.inum fun inum => some (some { de with inum := inum }, s)
  | r => r

theorem eagerEntry_eq (r : Option (Option Fs.Dirent × State n)) : eagerEntry r = r := by
  unfold eagerEntry
  split
  · rw [force_eq]
  · rfl

def eagerExec (p : Fin n) : Exec Op Op.Res (State n)
  | .load ip, s => some (s.eagerLoad ip)
  | .readDirent ip off, s => eagerEntry (exec p (.readDirent ip off) s)
  | o, s => exec p o s

theorem eagerExec_eq (p : Fin n) : eagerExec p = exec p := by
  funext o s
  cases o with
  | load ip => exact congrArg some (s.eagerLoad_eq ip)
  | readDirent ip off => exact eagerEntry_eq _
  | _ => rfl

def atEndOp (p : Fin n) (call : Fs.Call) (s : State n) : Option (State n) :=
  match call.prog.run (Exec.guard (eagerExec p) fun o _ => o ≠ .endOp) s with
  | .done _ _ => none
  | .halted o s' => if o = .endOp then some s' else none

theorem visits_of_atEndOp {p : Fin n} {call : Fs.Call} {s s' : State n}
    (hend : s.atEndOp p call = some s') : call.prog.Visits (State.exec p) s .endOp s' := by
  unfold State.atEndOp at hend
  rw [eagerExec_eq] at hend
  split at hend
  · cases hend
  · rename_i o s₁ hrun
    split_ifs at hend with ho
    cases hend
    rw [ho] at hrun
    exact (Prog.visits_of_halted hrun).of_guard

end State

/-- The root and ten directories without links, each in an inode block of its own and each named `a` in
the one before. -/
def chainVolume : Volume :=
  .format { size := 70, nblocks := 25, ninodes := 88, nlog := 30, logstart := 2, inodestart := 32,
            bmapstart := 44 }
    (fun i =>
      if i = 1 then
        { Dinode.fresh 1 with nlink := 1, size := 16, addrs := fun k => if k = 0 then 45 else 0 }
      else if i % 8 = 0 ∧ 0 < i ∧ i < 80 then
        { Dinode.fresh 1 with size := 16, addrs := fun k => if k = 0 then .ofNat (45 + i / 8) else 0 }
      else if i = 80 then
        .fresh 1
      else
        .fresh 0)
    (fun b => b < 55) fun b => Bytes.ofList (direntBytes ⟨8 * (b - 44), [97]⟩)

def chainPath : List UInt8 := (List.replicate 11 [slash, 97]).flatten

end Xv6.Disk
