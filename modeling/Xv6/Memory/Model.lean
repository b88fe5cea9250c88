import Xv6.Vm.Grow
import Xv6.Ptable.Model

/-!
# Processes and their memory

The process table together with what its entries hold: a kernel stack, a page directory and a size. A
directory has a number that is never used again, and is gone once it has been given to `freevm`; several
entries may have the same one. Pipes and what the kernel took when it started hold pages too.

The steps are those of the table, with their effect on memory, and `exec`, `sbrk`, and the making and
closing of pipes. A step that panics, or that uses a directory that is gone, is an error.
-/

namespace Xv6.Memory

open Function (update)

open Vm Ptable

structure Pipe where
  readopen : Bool
  writeopen : Bool
  deriving DecidableEq

structure State where
  table : Ptable.State
  kstack : Slot → Option Frame
  pgdir : Slot → Option Nat
  sz : Slot → Nat
  /-- The directories; none before they are made, and after `freevm`. -/
  dir : Nat → Option Pgdir
  ndir : Nat
  pipe : Frame → Option Pipe
  kpgdir : Pgdir
  /-- The stacks of the other processors. -/
  cpuStacks : List Frame
  kmem : Kmem

inductive Fault where
  | panic (e : Panic)
  /-- A directory is used after `freevm`. -/
  | freed
  deriving DecidableEq

inductive Act where
  | table (a : Ptable.Act)
  /-- With what is found at the program headers, and whether the arguments fit. -/
  | exec (p : Slot) (phdrs : List Proghdr) (args : Bool)
  | sbrk (p : Slot) (n : BitVec 32)
  | pipe (p : Slot)
  | pipeclose (f : Frame) (writable : Bool)

namespace State

variable (kmap : Kmap) (s : State)

def lift {α : Type} (r : Except Panic α) : Except Fault α := r.mapError .panic

/-! ### What the entries hold -/

def freeStack (q : Slot) : Except Fault State :=
  match s.kstack q with
  | none => .error (.panic .kfree)
  | some f => .ok { s with kstack := update s.kstack q none, kmem := s.kmem.kfree f }

def space? (i : Option Nat) : Option (Nat × Pgdir) := i.bind fun i => (s.dir i).map fun d => (i, d)

def freeSpace (i : Option Nat) : Except Fault State :=
  match s.space? i with
  | none => .error .freed
  | some (i, d) => do
      let k ← lift (freevm d s.kmem)
      .ok { s with dir := update s.dir i none, kmem := k }

def addSpace (q : Slot) (d : Pgdir) (sz : Nat) (k : Kmem) : State :=
  { s with
    pgdir := update s.pgdir q (some s.ndir)
    sz := update s.sz q sz
    dir := update s.dir s.ndir (some d)
    ndir := s.ndir + 1
    kmem := k }

/-! ### The steps of the table -/

def allocStack (np : Slot) (ok : Bool) : Option State :=
  match s.kmem.kalloc with
  | none =>
    if ok then none
    else some { s with kstack := update s.kstack np none, kmem := s.kmem.refused }
  | some (f, k) =>
    if ok then some { s with kstack := update s.kstack np (some f), kmem := k } else none

/-- `np->pgdir = copyuvm(curproc->pgdir, curproc->sz)`, and what follows if there is none. -/
def copySpace (p np : Slot) (ok : Bool) : Option (Except Fault State) :=
  match s.space? (s.pgdir p) with
  | none => some (.error .freed)
  | some (_, src) =>
    match copyuvm kmap src (s.sz p) s.kmem with
    | .error e => some (.error (.panic e))
    | .ok (some d, k) => if ok then some (.ok (s.addSpace np d (s.sz p) k)) else none
    | .ok (none, k) =>
      if ok then none
      else some ({ s with pgdir := update s.pgdir np none, kmem := k }.freeStack np)

def shareSpace (p np : Slot) : State :=
  { s with
    pgdir := update s.pgdir np (s.pgdir p)
    sz := update s.sz np (s.sz p) }

def reap (call : Reaper) (q : Slot) : Except Fault State :=
  match call with
  | .wait => do
      let s ← s.freeStack q
      s.freeSpace (s.pgdir q)
  | .threadJoin => .ok { s with kstack := update s.kstack q none }

/-- What a step of the table does to memory. -/
def effect (a : Ptable.Act) : Option (Except Fault State) :=
  match a with
  | .kstack p ok =>
    match (s.table.proc p).pc with
    | .kstack _ np => (s.allocStack np ok).map .ok
    | _ => none
  | .copy p ok =>
    match (s.table.proc p).pc with
    | .copy .fork np => s.copySpace kmap p np ok
    | .copy .threadCreate np => some (.ok (s.shareSpace p np))
    | _ => none
  | a =>
    match s.table.change? a with
    | some (.collect call _ q) => some (s.reap call q)
    | _ => some (.ok s)

/-! ### The other calls -/

def exec (p : Slot) (phdrs : List Proghdr) (args : Bool) : Except Fault State := do
  match ← lift (execImage kmap phdrs args s.kmem) with
  | (none, k) => .ok { s with kmem := k }
  | (some (d, sz), k) => (s.addSpace p d sz k).freeSpace (s.pgdir p)

def sbrk (p : Slot) (n : BitVec 32) : Except Fault State :=
  match s.space? (s.pgdir p) with
  | none => .error .freed
  | some (i, d) => do
      let (_, sz, d, k) ← lift (growproc n (s.sz p) d s.kmem)
      .ok { s with
        sz := update s.sz p sz
        dir := update s.dir i (some d)
        kmem := k }

def pipealloc : State :=
  match s.kmem.kalloc with
  | none => { s with kmem := s.kmem.refused }
  | some (f, k) =>
    { s with
      pipe := update s.pipe f (some { readopen := true, writeopen := true })
      kmem := k }

/-- The end that is still open is closed; the page goes with the second one. -/
def pipeclose (f : Frame) (x : Pipe) (writable : Bool) : State :=
  let x := if writable then { x with writeopen := false } else { x with readopen := false }
  if x.readopen = false ∧ x.writeopen = false then
    { s with pipe := update s.pipe f none, kmem := s.kmem.kfree f }
  else
    { s with pipe := update s.pipe f (some x) }

def step : Act → Option (Except Fault State)
  | .table a =>
    match s.table.step a with
    | none => none
    | some t => (s.effect kmap a).map fun r => r.map fun s => { s with table := t }
  | .exec p phdrs args => if s.table.InUser p then some (s.exec kmap p phdrs args) else none
  | .sbrk p n => if s.table.InUser p then some (s.sbrk p n) else none
  | .pipe p => if s.table.InUser p then some (.ok s.pipealloc) else none
  | .pipeclose f writable =>
    match s.pipe f with
    | none => none
    | some x =>
      if (if writable then x.writeopen else x.readopen) then some (.ok (s.pipeclose f x writable))
      else none

def next (a : Act) : Option State := (s.step kmap a).bind Except.toOption

end State

/-! ### The start -/

def freerange (l : List Frame) (k : Kmem) : Kmem := l.foldl Kmem.kfree k

def startothers : Nat → Kmem → Option (List Frame × Kmem)
  | 0, k => some ([], k)
  | n + 1, k => do
      let (f, k) ← k.kalloc
      let (fs, k) ← startothers n k
      some (f :: fs, k)

/-- What `main` is given: the pages that `kinit1` and `kinit2` find, what is in them, which allocations
will fail, the number of other processors, and the first program. -/
structure Machine where
  lo : List Frame
  hi : List Frame
  mem : Frame → Nat → UInt8
  fails : List Bool
  others : Nat
  init : Nat → UInt8

/-- After `userinit`: `initproc` has the stack `stack` and the directory `d`. -/
def State.init (kpgdir : Pgdir) (cpuStacks : List Frame) (stack : Frame) (d : Pgdir) (k : Kmem) :
    State where
  table := Ptable.State.init
  kstack := update (fun _ => none) initproc (some stack)
  pgdir := update (fun _ => none) initproc (some 0)
  sz := update (fun _ => 0) initproc pgsize
  dir := update (fun _ => none) 0 (some d)
  ndir := 1
  pipe := fun _ => none
  kpgdir := kpgdir
  cpuStacks := cpuStacks
  kmem := k

/-- `main` and `userinit`, if there is memory for all that they need. -/
def boot (kmap : Kmap) (m : Machine) : Option State :=
  let k := freerange m.lo { freelist := [], mem := m.mem, fails := m.fails, calls := [] }
  match setupkvm kmap k with
  | .ok (some kpgdir, k) => do
      let (cpuStacks, k) ← startothers m.others k
      let (stack, k) ← (freerange m.hi k).kalloc
      match setupkvm kmap k with
      | .ok (some d, k) =>
        match inituvm d m.init k with
        | .ok (d, k) =>
          if (d.entry 0).isSome then some (State.init kpgdir cpuStacks stack d k) else none
        | .error _ => none
      | _ => none
  | _ => none

end Xv6.Memory
