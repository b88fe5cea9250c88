import Xv6.Lib.Machine
import Xv6.Lib.Ring
import Mathlib.Data.Fintype.Basic

/-!
# Pipes

`pipe.c` with `sleep`, `wakeup` and `kill` of `proc.c`, for one pipe and any number of processes. The
functions run statement by statement: what is between `acquire(&p->lock)` and `release(&p->lock)` is a
`Stmt`, and its effect is one step. `ptable.lock` is held across steps only inside `sleep`, which lets
`p->lock` go before the process is `SLEEPING`.
-/

namespace Xv6.Ipc

def pipesize : Nat := 512

structure Pipe where
  data : Nat → UInt8
  nread : UInt32
  nwrite : UInt32
  readopen : Bool
  writeopen : Bool

namespace Pipe

def Full (p : Pipe) : Prop := p.nwrite = p.nread + 512

instance (p : Pipe) : Decidable p.Full := inferInstanceAs (Decidable (_ = _))

def Empty (p : Pipe) : Prop := p.nread = p.nwrite

instance (p : Pipe) : Decidable p.Empty := inferInstanceAs (Decidable (_ = _))

def put (p : Pipe) (c : UInt8) : Pipe :=
  { p with data := Function.update p.data (p.nwrite.toNat % pipesize) c, nwrite := p.nwrite + 1 }

def front (p : Pipe) : UInt8 := p.data (p.nread.toNat % pipesize)

def dropFront (p : Pipe) : Pipe := { p with nread := p.nread + 1 }

def shut (p : Pipe) (writable : Bool) : Pipe :=
  if writable then { p with writeopen := false } else { p with readopen := false }

def count (p : Pipe) : Nat := (p.nwrite - p.nread).toNat

def stored (p : Pipe) : List UInt8 := Ring.contents pipesize p.data p.nread.toNat p.count

end Pipe

inductive Chan where
  | nread
  | nwrite
  deriving DecidableEq

inductive Stmt where
  /-- `pipewrite`: `i < n`. -/
  | writeFor (n : Int) (i : Nat)
  /-- `while (p->nwrite == p->nread + PIPESIZE)`. -/
  | writeWhile (n : Int) (i : Nat)
  /-- `if (p->readopen == 0 || myproc()->killed)`. -/
  | writeTest (n : Int) (i : Nat)
  | writeWakeup (n : Int) (i : Nat)
  | writeSleep (n : Int) (i : Nat)
  | writeStore (n : Int) (i : Nat)
  | writeDone (n : Int)
  /-- `piperead`: `while (p->nread == p->nwrite && p->writeopen)`. -/
  | readWhile (n : Int)
  | readTest (n : Int)
  | readSleep (n : Int)
  | readFor (n : Int) (i : Nat)
  | readStore (n : Int) (i : Nat)
  | readDone (i : Nat)
  /-- `pipeclose`: the flag. -/
  | closeSet (writable : Bool)
  | closeWakeup (writable : Bool)
  | closeTest
  /-- `release(&p->lock)` and `return`. -/
  | ret (r : Int)
  deriving DecidableEq

inductive Effect where
  | goto (next : Stmt)
  | store (next : Stmt)
  | take (next : Stmt)
  | shut (writable : Bool) (next : Stmt)
  | wakeup (chan : Chan) (next : Stmt)
  | sleep (chan : Chan) (next : Stmt)
  | leave (r : Int)
  | leaveFree

def Stmt.effect (p : Pipe) (killed : Bool) : Stmt → Effect
  | .writeFor n i => .goto (if (i : Int) < n then .writeWhile n i else .writeDone n)
  | .writeWhile n i => .goto (if p.Full then .writeTest n i else .writeStore n i)
  | .writeTest n i => if p.readopen = false ∨ killed then .leave (-1) else .goto (.writeWakeup n i)
  | .writeWakeup n i => .wakeup .nread (.writeSleep n i)
  | .writeSleep n i => .sleep .nwrite (.writeWhile n i)
  | .writeStore n i => .store (.writeFor n (i + 1))
  | .writeDone n => .wakeup .nread (.ret n)
  | .readWhile n => .goto (if p.Empty ∧ p.writeopen then .readTest n else .readFor n 0)
  | .readTest n => if killed then .leave (-1) else .goto (.readSleep n)
  | .readSleep n => .sleep .nread (.readWhile n)
  | .readFor n i => .goto (if (i : Int) < n ∧ ¬ p.Empty then .readStore n i else .readDone i)
  | .readStore n i => .take (.readFor n (i + 1))
  | .readDone i => .wakeup .nwrite (.ret i)
  | .closeSet w => .shut w (.closeWakeup w)
  | .closeWakeup w => .wakeup (if w then .nread else .nwrite) .closeTest
  | .closeTest => if p.readopen = false ∧ p.writeopen = false then .leaveFree else .leave 0
  | .ret r => .leave r

inductive Pc where
  | idle
  /-- `acquire(&p->lock)`; it goes on at `next`. -/
  | acquire (next : Stmt)
  | locked (st : Stmt)
  /-- In `sleep` with both locks: `release(lk)`. -/
  | sleepRelease (chan : Chan) (next : Stmt)
  /-- In `sleep` with `ptable.lock`: `p->chan = chan; p->state = SLEEPING; sched()`. -/
  | sleepSwitch (chan : Chan) (next : Stmt)
  /-- Inside `sched()`. -/
  | sched (next : Stmt)
  /-- `kfree((char*) p)`. -/
  | kfree
  deriving DecidableEq

inductive ProcState where
  | sleeping
  | runnable
  deriving DecidableEq

structure Proc where
  state : ProcState
  chan : Option Chan
  killed : Bool
  pc : Pc
  /-- What its last call returned. -/
  ret : Int

structure State (n : Nat) where
  pipe : Pipe
  lock : Option (Fin n)
  ptable : Option (Fin n)
  freed : Bool
  proc : Fin n → Proc
  /-- All bytes that `pipewrite` has appended, and all that `piperead` has removed, in order. -/
  appended : List UInt8
  removed : List UInt8

inductive Call where
  | pipewrite (n : Int)
  | piperead (n : Int)
  | pipeclose (writable : Bool)

def Call.entry : Call → Stmt
  | .pipewrite n => .writeFor n 0
  | .piperead n => .readWhile n
  | .pipeclose w => .closeSet w

/-- A step of process `p`: a call, or its next statement, where `c` is the byte `addr[i]` of the user's
buffer. `kill` may come from any process. -/
inductive Act (n : Nat) where
  | call (p : Fin n) (c : Call)
  | step (p : Fin n) (c : UInt8)
  | kill (q : Fin n)

variable {n : Nat}

namespace State

def pc (s : State n) (q : Fin n) : Pc := (s.proc q).pc

def setProc (s : State n) (p : Fin n) (x : Proc) : State n :=
  { s with proc := Function.update s.proc p x }

def setPc (s : State n) (p : Fin n) (pc : Pc) : State n :=
  s.setProc p { s.proc p with pc := pc }

def SleepsOn (s : State n) (q : Fin n) (c : Chan) : Prop :=
  (s.proc q).state = .sleeping ∧ (s.proc q).chan = some c

instance (s : State n) (q : Fin n) (c : Chan) : Decidable (s.SleepsOn q c) :=
  inferInstanceAs (Decidable (_ ∧ _))

def wakeup (s : State n) (c : Chan) : State n :=
  { s with proc := fun q => if s.SleepsOn q c then { s.proc q with state := .runnable } else s.proc q }

def apply (s : State n) (p : Fin n) (c : UInt8) : Effect → Option (State n)
  | .goto next => some (s.setPc p (.locked next))
  | .store next =>
    some { s.setPc p (.locked next) with pipe := s.pipe.put c, appended := s.appended ++ [c] }
  | .take next =>
    some { s.setPc p (.locked next) with
      pipe := s.pipe.dropFront, removed := s.removed ++ [s.pipe.front] }
  | .shut w next => some { s.setPc p (.locked next) with pipe := s.pipe.shut w }
  | .wakeup chan next =>
    if s.ptable = none then some ((s.wakeup chan).setPc p (.locked next)) else none
  | .sleep chan next =>
    if s.ptable = none then some { s.setPc p (.sleepRelease chan next) with ptable := some p }
    else none
  | .leave r => some { s.setProc p { s.proc p with pc := .idle, ret := r } with lock := none }
  | .leaveFree => some { s.setPc p .kfree with lock := none }

def next (s : State n) (p : Fin n) (c : UInt8) : Option (State n) :=
  match s.pc p with
  | .idle => none
  | .acquire st => if s.lock = none then some { s.setPc p (.locked st) with lock := some p } else none
  | .locked st => s.apply p c (st.effect s.pipe (s.proc p).killed)
  | .sleepRelease chan st => some { s.setPc p (.sleepSwitch chan st) with lock := none }
  | .sleepSwitch chan st =>
    some { s.setProc p { s.proc p with state := .sleeping, chan := some chan, pc := .sched st } with
      ptable := none }
  | .sched st =>
    if s.ptable = none then some (s.setProc p { s.proc p with chan := none, pc := .acquire st })
    else none
  | .kfree => some { s.setPc p .idle with freed := true }

def init (data : Nat → UInt8) : State n :=
  { pipe := { data := data, nread := 0, nwrite := 0, readopen := true, writeopen := true }
    lock := none
    ptable := none
    freed := false
    proc := fun _ => { state := .runnable, chan := none, killed := false, pc := .idle, ret := 0 }
    appended := []
    removed := [] }

end State

/-- Nothing uses the page once it is free. -/
def step (s : State n) : Act n → Option (State n)
  | .call p c =>
    if s.pc p = .idle ∧ s.freed = false then some (s.setPc p (.acquire c.entry)) else none
  | .step p c => if (s.proc p).state = .runnable ∧ s.freed = false then s.next p c else none
  | .kill q =>
    if s.ptable = none then
      some (s.setProc q { s.proc q with killed := true, state := .runnable })
    else none

end Xv6.Ipc
