import Xv6.Lib.Trace
import Xv6.Vm.Model
import Xv6.Param

/-!
# System call arguments

The fetch functions of `syscall.c`, and the system calls that take user pointers, as far as they touch
the caller's memory. An event is one byte read or written at a user-supplied address, or a change of
process state. What the rest of the kernel answers is an input (`Kernel`), and so is what an
uninitialised variable holds.
-/

namespace Xv6.Syscall

open Vm (u32 kernbase pgsize pgrounddown)

structure Caller where
  sz : Nat
  esp : Nat
  mem : Nat → UInt8
  /-- The descriptors in use. -/
  ofile : Nat → Bool

structure Kernel where
  /-- The bytes that `fileread` and `filewrite` move (at most as many as they are asked for), and what
  they return. -/
  moved : Nat
  ret : Int
  /-- `f->type == FD_INODE`. -/
  inode : Bool
  /-- The new descriptors, or none if `pipealloc` or `fdalloc` fails. -/
  pipe : Option (Nat × Nat)
  /-- The pid from `allocproc`. -/
  slot : Option Int
  /-- `walkpgdir` in the page table of the process with a pid: no page table, or `PTE_U`. -/
  pgdir : Nat → Option (Nat → Option Bool)
  /-- The address of `ptable.lock`. -/
  ptable : Nat
  /-- What is on the kernel stack where a variable has not been set. -/
  junk : Nat → Nat

inductive Effect where
  | fileread (fd p : Nat) (n : Int)
  | filewrite (fd p : Nat) (n : Int)
  | pipe
  | thread (fcn arg esp : Nat)
  | sleep (chan : Nat)
  | wakeup (chan : Nat)
  deriving DecidableEq

inductive Event where
  | load (a : Nat)
  | store (a : Nat)
  | effect (e : Effect)
  deriving DecidableEq

inductive Halt where
  | dumpArgs
  | dumpPid
  | dumpWalk
  | sleepWithoutLk
  /-- The counter of the copy loop wraps. -/
  | forever
  deriving DecidableEq

abbrev Sys (α : Type) := Traced Event Halt α

def toInt (x : Nat) : Int := if u32 x < 2 ^ 31 then u32 x else u32 x - 2 ^ 32

def loads (a n : Nat) : List Event := (List.range n).map fun i => .load (u32 (a + i))

def stores (a n : Nat) : List Event := (List.range n).map fun i => .store (u32 (a + i))

namespace Caller

variable (c : Caller)

def word (a : Nat) : Nat :=
  (c.mem a).toNat + 2 ^ 8 * (c.mem (u32 (a + 1))).toNat + 2 ^ 16 * (c.mem (u32 (a + 2))).toNat +
    2 ^ 24 * (c.mem (u32 (a + 3))).toNat

def fetchint (addr : Nat) : Sys (Option Nat) :=
  if c.sz ≤ addr ∨ c.sz < u32 (addr + 4) then
    pure none
  else do
    .emit (loads addr 4)
    return some (c.word addr)

def argint (n : Nat) : Sys (Option Nat) := c.fetchint (u32 (c.esp + 4 + 4 * n))

def argptr (n : Nat) (size : Int) : Sys (Option Nat) := do
  match ← c.argint n with
  | none => return none
  | some i =>
    if size < 0 ∨ c.sz ≤ i ∨ c.sz < u32 (i + size.toNat) then return none
    else return some i

def argfd (n : Nat) : Sys (Option Nat) := do
  match ← c.argint n with
  | none => return none
  | some fd => if fd < nofile ∧ c.ofile fd then return some fd else return none

end Caller

section Calls

variable (c : Caller) (k : Kernel)

/-- The head of `sys_read` and `sys_write`: the descriptor, then `n`, then the buffer. -/
def bufferArgs : Sys (Option (Nat × Nat × Int)) := do
  match ← c.argfd 0 with
  | none => return none
  | some fd =>
    match ← c.argint 2 with
    | none => return none
    | some n =>
      match ← c.argptr 1 (toInt n) with
      | none => return none
      | some p => return some (fd, p, toInt n)

def sysRead : Sys Int := do
  match ← bufferArgs c with
  | none => return -1
  | some (fd, p, n) =>
    .emit (.effect (.fileread fd p n) :: stores p (min k.moved n.toNat))
    return k.ret

def sysWrite : Sys Int := do
  match ← bufferArgs c with
  | none => return -1
  | some (fd, p, n) =>
    .emit (.effect (.filewrite fd p n) :: loads p (min k.moved n.toNat))
    return k.ret

def statSize : Nat := 20

/-- The fields that `stati` writes: `dev`, `ino`, `type`, `nlink`, `size`. -/
def stati (st : Nat) : List Event :=
  stores (st + 4) 4 ++ stores (st + 8) 4 ++ stores st 2 ++ stores (st + 12) 2 ++ stores (st + 16) 4

def sysFstat : Sys Int := do
  match ← c.argfd 0 with
  | none => return -1
  | some _ =>
    match ← c.argptr 1 statSize with
    | none => return -1
    | some st =>
      if k.inode then
        .emit (stati st)
        return 0
      else
        return -1

def sysPipe : Sys Int := do
  match ← c.argptr 0 8 with
  | none => return -1
  | some fd =>
    match k.pipe with
    | none => return -1
    | some _ =>
      .emit (.effect .pipe :: (stores fd 4 ++ stores (fd + 4) 4))
      return 0

/-- The offset of the first page without `PTE_U` goes behind the buffer. -/
def writeGuard (buffer size : Nat) (guarded user : Bool) : List Event :=
  if guarded = false ∧ user = false then stores (buffer + size) 4 else []

/-- `mycopybuffer` from offset `i` on. It reads the page of `addr + i` from its start. -/
def mycopybuffer (walk : Nat → Option Bool) (addr buffer size : Nat) : Nat → Nat → Bool → Sys Unit
  | 0, _, _ => .stop .forever
  | fuel + 1, i, guarded =>
    if i < size then
      match walk (u32 (addr + i)) with
      | none => .stop .dumpWalk
      | some user => do
          let n := if size - i < pgsize then size - i else pgsize
          .emit (writeGuard buffer size guarded user)
          .emit (loads (pgrounddown (u32 (addr + i))) n ++ stores (buffer + i) n)
          mycopybuffer walk addr buffer size fuel (u32 (i + pgsize)) (guarded || !user)
    else
      return ()

def dump (pid addr buffer size : Nat) : Sys Int :=
  match k.pgdir pid with
  | none => .stop .dumpPid
  | some walk => do
      mycopybuffer walk addr buffer size (2 ^ 20) 0 false
      return 0

def sysDump : Sys Int := do
  match ← c.argint 0 with
  | none => .stop .dumpArgs
  | some pid =>
    match ← c.argptr 1 4 with
    | none => .stop .dumpArgs
    | some addr =>
      match ← c.argptr 2 4 with
      | none => .stop .dumpArgs
      | some buffer =>
        match ← c.argint 3 with
        | none => .stop .dumpArgs
        | some size => dump k pid addr buffer size

/-- A pointer argument whose check is ignored: the variable keeps what it held. -/
def argptrUnchecked (n : Nat) : Sys Nat := do
  match ← c.argptr n 4 with
  | none => return u32 (k.junk n)
  | some p => return p

def threadCreate (fcn arg stack : Nat) : Sys Int :=
  if stack = 0 then
    return -1
  else
    match k.slot with
    | none => return -1
    | some pid => do
        let esp := u32 (stack + 4088)
        .emit (.effect (.thread fcn arg esp) :: (stores (stack + 4092) 4 ++ stores (stack + 4088) 4))
        return pid

def sysThreadCreate : Sys Int := do
  let fcn ← argptrUnchecked c k 0
  let arg ← argptrUnchecked c k 1
  let stack ← argptrUnchecked c k 2
  threadCreate k fcn arg stack

def mysleep (chan lk : Nat) : Sys Int :=
  if lk = 0 then
    .stop .sleepWithoutLk
  else if lk = k.ptable then do
    .emit [.effect (.sleep chan)]
    return 0
  else do
    .emit (stores lk 4)
    .emit [.effect (.sleep chan)]
    .emit (loads lk 4 ++ stores lk 4)
    return 0

def sysMysleep : Sys Int := do
  let chan ← argptrUnchecked c k 0
  let lk ← argptrUnchecked c k 1
  mysleep k chan lk

def sysMywakeup : Sys Int := do
  let chan ← argptrUnchecked c k 0
  .emit [.effect (.wakeup chan)]
  return 0

end Calls

inductive Call where
  | read
  | write
  | fstat
  | pipe
  | dump
  | threadCreate
  | mysleep
  | mywakeup

def Call.run (c : Caller) (k : Kernel) : Call → Sys Int
  | .read => sysRead c k
  | .write => sysWrite c k
  | .fstat => sysFstat c k
  | .pipe => sysPipe c k
  | .dump => sysDump c k
  | .threadCreate => sysThreadCreate c k
  | .mysleep => sysMysleep c k
  | .mywakeup => sysMywakeup c k

end Xv6.Syscall
