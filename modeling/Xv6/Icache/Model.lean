import Xv6.Param
import Xv6.Fs.Inode
import Mathlib.Data.Fintype.Basic
import Mathlib.Logic.Function.Basic

/-!
# The inode cache

`icache` with its `NINODE` entries over the inodes on disk. A process is inside at most one function
of `fs.c`; its program counter says which statement comes next. Each `icache.lock` section is one
step, and so is each statement that runs with the inode's sleep-lock held.

A panic, and a process that sleeps, is an action without a step.
-/

namespace Xv6.Icache

open Function (update)

open Fs (FileType)

structure Key where
  dev : Nat
  inum : Nat
  deriving DecidableEq, Repr

structure Dinode where
  type : FileType
  major : Int
  minor : Int
  nlink : Int
  size : Nat
  addrs : Fin (ndirect + 1) → Nat
  deriving DecidableEq

def Dinode.fresh (type : FileType) : Dinode :=
  { type := type, major := 0, minor := 0, nlink := 0, size := 0, addrs := fun _ => 0 }

def Dinode.truncated (d : Dinode) : Dinode := { d with size := 0, addrs := fun _ => 0 }

structure Inode (n : Nat) where
  key : Key
  ref : Nat
  lock : Option (Fin n)
  valid : Bool
  fields : Dinode

abbrev Slot := Fin ninode

instance : NeZero ninode := ⟨by decide⟩

inductive Pc where
  | idle
  /-- `ilock`, with the sleep-lock taken. -/
  | ilock (i : Slot)
  /-- `if (ip->valid && ip->nlink == 0)`. -/
  | iputTest (i : Slot)
  /-- `int r = ip->ref`. -/
  | iputRef (i : Slot)
  /-- `itrunc(ip)`, up to its `iupdate`. -/
  | iputTrunc (i : Slot)
  | iputTruncUpdate (i : Slot)
  /-- `ip->type = 0`. -/
  | iputType (i : Slot)
  | iputTypeUpdate (i : Slot)
  /-- `ip->valid = 0`. -/
  | iputInvalid (i : Slot)
  /-- `releasesleep(&ip->lock)`. -/
  | iputRelease (i : Slot)
  /-- `ip->ref--`. -/
  | iputDrop (i : Slot)
  /-- `return iget(dev, inum)`, with the inode marked allocated. -/
  | ialloc (k : Key)
  /-- The loop of `writei`. -/
  | writei (i : Slot) (off tot n : Nat)
  | iupdate (i : Slot)
  deriving DecidableEq

structure State (n : Nat) where
  inode : Slot → Inode n
  disk : Key → Dinode
  pc : Fin n → Pc
  /-- The references handed out to a process and not yet dropped. -/
  refs : Fin n → Slot → Nat

/-- The functions that a process may call. `update` is a change of the fields that other files write,
followed by `iupdate`; `give` hands a reference to another process, as `fork` does with open files. -/
inductive Call (n : Nat) where
  | iget (k : Key)
  | idup (i : Slot)
  | ilock (i : Slot)
  | iunlock (i : Slot)
  | iput (i : Slot)
  | ialloc (k : Key) (type : FileType)
  | update (i : Slot) (major minor nlink : Int)
  | writei (i : Slot) (off n : Nat)
  | give (q : Fin n) (i : Slot)

/-- A step of a process: a call, or the next statement of the function it is in. A statement that
allocates a block gets `b` from `balloc`. -/
inductive Act (n : Nat) where
  | call (c : Call n)
  | next (b : Nat)

variable {n : Nat}

namespace State

def setInode (s : State n) (i : Slot) (node : Inode n) : State n :=
  { s with inode := update s.inode i node }

def setPc (s : State n) (p : Fin n) (pc : Pc) : State n :=
  { s with pc := update s.pc p pc }

def setRefs (s : State n) (p : Fin n) (i : Slot) (r : Nat) : State n :=
  { s with refs := update s.refs p (update (s.refs p) i r) }

def setDisk (s : State n) (k : Key) (d : Dinode) : State n :=
  { s with disk := update s.disk k d }

def setFields (s : State n) (i : Slot) (d : Dinode) : State n :=
  s.setInode i { s.inode i with fields := d }

def cached (s : State n) (k : Key) : Option Slot :=
  (List.finRange ninode).find? fun i => 0 < (s.inode i).ref ∧ (s.inode i).key = k

def empty (s : State n) : Option Slot :=
  (List.finRange ninode).find? fun i => (s.inode i).ref = 0

def take (s : State n) (p : Fin n) (i : Slot) : State n :=
  (s.setInode i { s.inode i with ref := (s.inode i).ref + 1 }).setRefs p i (s.refs p i + 1)

def recycle (s : State n) (p : Fin n) (i : Slot) (k : Key) : State n :=
  (s.setInode i { s.inode i with key := k, ref := 1, valid := false }).setRefs p i (s.refs p i + 1)

def iget (s : State n) (p : Fin n) (k : Key) : Option (State n) :=
  match s.cached k with
  | some i => some (s.take p i)
  | none =>
    match s.empty with
    | some i => some (s.recycle p i k)
    | none => none

def acquire (s : State n) (p : Fin n) (i : Slot) (pc : Pc) : Option (State n) :=
  if 0 < s.refs p i ∧ (s.inode i).lock = none then
    some ((s.setInode i { s.inode i with lock := some p }).setPc p pc)
  else
    none

def Holds (s : State n) (p : Fin n) (i : Slot) : Prop := (s.inode i).lock = some p

instance (s : State n) (p : Fin n) (i : Slot) : Decidable (s.Holds p i) :=
  inferInstanceAs (Decidable (_ = _))

def call (s : State n) (p : Fin n) : Call n → Option (State n)
  | .iget k => s.iget p k
  | .idup i => if 0 < s.refs p i then some (s.take p i) else none
  | .ilock i => s.acquire p i (.ilock i)
  | .iunlock i =>
    if s.Holds p i ∧ 0 < (s.inode i).ref then
      some (s.setInode i { s.inode i with lock := none })
    else
      none
  | .iput i => s.acquire p i (.iputTest i)
  | .ialloc k type =>
    if 1 ≤ k.inum ∧ (s.disk k).type = .free ∧ type ≠ .free then
      some ((s.setDisk k (.fresh type)).setPc p (.ialloc k))
    else
      none
  | .update i major minor nlink =>
    if s.Holds p i then
      some ((s.setFields i { (s.inode i).fields with
        major := major, minor := minor, nlink := nlink }).setPc p (.iupdate i))
    else
      none
  | .writei i off n =>
    if s.Holds p i then
      let f := (s.inode i).fields
      -- a device's `write`, and the failed checks, change nothing here
      if f.type = .dev ∨ f.size < off ∨ maxfile * bsize < off + n then
        some s
      else
        some (s.setPc p (.writei i off 0 n))
    else
      none
  | .give q i =>
    if 0 < s.refs p i ∧ ¬ s.Holds p i ∧ q ≠ p then
      some ((s.setRefs p i (s.refs p i - 1)).setRefs q i (s.refs q i + 1))
    else
      none

def addrSlot (bn : Nat) : Fin (ndirect + 1) :=
  ⟨min bn ndirect, Nat.lt_succ_of_le (Nat.min_le_right _ _)⟩

def bmap (f : Dinode) (bn b : Nat) : Dinode :=
  if f.addrs (addrSlot bn) = 0 then
    { f with addrs := update f.addrs (addrSlot bn) b }
  else
    f

def iupdate (s : State n) (i : Slot) : State n :=
  s.setDisk (s.inode i).key (s.inode i).fields

def next (s : State n) (p : Fin n) (b : Nat) : Option (State n) :=
  match s.pc p with
  | .idle => none
  | .ilock i =>
    if (s.inode i).valid then
      some (s.setPc p .idle)
    else if (s.disk (s.inode i).key).type = .free then
      none
    else
      some ((s.setInode i { s.inode i with
        valid := true, fields := s.disk (s.inode i).key }).setPc p .idle)
  | .iputTest i =>
    if (s.inode i).valid ∧ (s.inode i).fields.nlink = 0 then
      some (s.setPc p (.iputRef i))
    else
      some (s.setPc p (.iputRelease i))
  | .iputRef i =>
    if (s.inode i).ref = 1 then
      some (s.setPc p (.iputTrunc i))
    else
      some (s.setPc p (.iputRelease i))
  | .iputTrunc i =>
    some ((s.setFields i (s.inode i).fields.truncated).setPc p (.iputTruncUpdate i))
  | .iputTruncUpdate i => some ((s.iupdate i).setPc p (.iputType i))
  | .iputType i =>
    some ((s.setFields i { (s.inode i).fields with type := .free }).setPc p (.iputTypeUpdate i))
  | .iputTypeUpdate i => some ((s.iupdate i).setPc p (.iputInvalid i))
  | .iputInvalid i =>
    some ((s.setInode i { s.inode i with valid := false }).setPc p (.iputRelease i))
  | .iputRelease i =>
    some ((s.setInode i { s.inode i with lock := none }).setPc p (.iputDrop i))
  | .iputDrop i =>
    some (((s.setInode i { s.inode i with ref := (s.inode i).ref - 1 }).setRefs p i
      (s.refs p i - 1)).setPc p .idle)
  | .ialloc k => (s.iget p k).map fun s' => s'.setPc p .idle
  | .writei i off tot n =>
    let f := (s.inode i).fields
    if tot < n then
      let m := min (n - tot) (bsize - off % bsize)
      some ((s.setFields i (bmap f (off / bsize) b)).setPc p (.writei i (off + m) (tot + m) n))
    else if 0 < n ∧ f.size < off then
      some ((s.setFields i { f with size := off }).setPc p (.iupdate i))
    else
      some (s.setPc p .idle)
  | .iupdate i => some ((s.iupdate i).setPc p .idle)

def step (s : State n) (a : Fin n × Act n) : Option (State n) :=
  match a.2 with
  | .call c => if s.pc a.1 = .idle then s.call a.1 c else none
  | .next b => s.next a.1 b

def init (disk : Key → Dinode) : State n where
  inode _ :=
    { key := ⟨0, 0⟩, ref := 0, lock := none, valid := false, fields := .fresh .free }
  disk := disk
  pc _ := .idle
  refs _ _ := 0

end State

end Xv6.Icache
