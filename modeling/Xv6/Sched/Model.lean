import Xv6.Ptable.Inv

/-!
# Processors

`scheduler`, `sched`, `forkret` and the callers of `sched`, on any number of processors. `ptable.lock` is
taken by one context and released by another: the scheduler of a processor takes it and the process it
switches to releases it, or the other way round. A section under the lock is split where the processor
changes hands; within it, what the section does to the table is one step, which is that of the model of
the table.
-/

namespace Xv6.Sched

open Function (update)

open Ptable (Slot Chan Create Act)

inductive Lk where
  | null
  /-- `&ptable.lock` -/
  | ptableLock
  | mutex
  deriving DecidableEq

inductive Op where
  | yield
  | alloc (call : Create)
  | ready
  | exit
  | threadExit
  | wait
  | threadJoin
  | kill (pid : Int)
  | sleep (chan : Option Chan)
  | mysleep (chan : Option Chan) (lk : Lk)
  | wakeup (chan : Option Chan)
  | mywakeup (chan : Option Chan)
  deriving DecidableEq

def Op.act (p : Slot) : Op → Act
  | .yield => .yield p
  | .alloc call => .alloc p call
  | .ready => .ready p
  | .exit => .exit p
  | .threadExit => .threadExit p
  | .wait => .wait p
  | .threadJoin => .threadJoin p
  | .kill pid => .kill p pid
  | .sleep chan | .mysleep chan _ => .sleep p chan
  | .wakeup chan | .mywakeup chan => .wakeup chan

inductive ProcPc where
  /-- Outside the sections. -/
  | run
  /-- Has acquired the lock. -/
  | body (op : Op)
  /-- In `sched`, before `swtch`. -/
  | swtch
  /-- Switched to, and still holding the lock: behind `sched`, or in `forkret`. -/
  | resumed
  /-- Before `release`. -/
  | release
  | panicked
  deriving DecidableEq

inductive SchedPc where
  /-- Before `acquire`, with interrupts on. -/
  | idle
  /-- At the entry with this number, or behind the last. -/
  | scan (i : Nat)
  /-- Behind `c->proc = p`. -/
  | chosen (p : Slot)
  /-- Behind `p->state = RUNNING`. -/
  | ran (p : Slot)
  /-- Behind `swtch`, before `c->proc = 0`. -/
  | back (p : Slot)
  /-- In `wakeup`, called by an interrupt. -/
  | intr (chan : Option Chan)
  | intrRelease
  deriving DecidableEq

inductive Ctx where
  | sched (pc : SchedPc)
  | proc (p : Slot) (pc : ProcPc)
  deriving DecidableEq

structure Cpu where
  proc : Option Slot
  ctx : Ctx
  deriving DecidableEq

structure State (n : Nat) where
  table : Ptable.State
  /-- The page of the kernel stack. -/
  kstack : Slot → Option Nat
  cpu : Fin n → Cpu
  /-- The holder of `ptable.lock`. -/
  lock : Option (Fin n)

inductive What where
  /-- The process calls `op`. -/
  | call (op : Op)
  /-- `kalloc` of the kernel stack, with its result. -/
  | kstack (page : Option Nat)
  | copy (ok : Bool)
  /-- An interrupt in the scheduler calls `wakeup`. -/
  | intr (chan : Option Chan)
  | next
  deriving DecidableEq

namespace State

variable {n : Nat}

def init : State n where
  table := .init
  kstack q := if q = Ptable.initproc then some 0 else none
  cpu _ := { proc := none, ctx := .sched .idle }
  lock := none

def goto (s : State n) (c : Fin n) (ctx : Ctx) : State n :=
  { s with cpu := update s.cpu c { s.cpu c with ctx := ctx } }

def setCurrent (s : State n) (c : Fin n) (p : Option Slot) : State n :=
  { s with cpu := update s.cpu c { s.cpu c with proc := p } }

def acquire (s : State n) (c : Fin n) (ctx : Ctx) : Option (State n) :=
  if s.lock = none then some ({ s with lock := some c }.goto c ctx) else none

def release (s : State n) (c : Fin n) (ctx : Ctx) : State n := { s with lock := none }.goto c ctx

/-- `kstack = 0` for the child that is reaped, if any; `wait` has freed the page. -/
def dropStack (kstack : Slot → Option Nat) : Option Slot → Slot → Option Nat
  | none => kstack
  | some q => update kstack q none

/-- The section of `p` has changed the table. It goes on to `sched` if the process gives up the
processor, for which it has changed its state. -/
def after (s : State n) (c : Fin n) (p : Slot) (t : Ptable.State) (gone : Option Slot) : State n :=
  { s with table := t, kstack := dropStack s.kstack gone }.goto c
    (.proc p (if (t.proc p).state = Ptable.ProcState.running then .release else .swtch))

/-- The child that the section of `op` reaps. -/
def goneIn (t : Ptable.State) (p : Slot) : Op → Option Slot
  | .wait => t.found? .wait p
  | .threadJoin => t.found? .threadJoin p
  | _ => none

def making (t : Ptable.State) (p : Slot) : Option Slot :=
  match (t.proc p).pc with
  | .kstack _ np | .copy _ np | .ready _ np => some np
  | _ => none

def call (s : State n) (c : Fin n) (p : Slot) (op : Op) : Option (State n) :=
  match s.table.step (op.act p), op with
  | none, _ => none
  -- `panic("sleep without lk")`
  | some _, .mysleep _ .null => some (s.goto c (.proc p .panicked))
  -- The lock is not acquired, and `sched` panics.
  | some t, .mysleep _ .ptableLock => some ({ s with table := t }.goto c (.proc p .panicked))
  | some _, op => s.acquire c (.proc p (.body op))

/-- `kalloc` hands out a page that is no kernel stack. -/
def allocStack (s : State n) (p : Slot) (page : Option Nat) : Option (State n) :=
  match making s.table p, s.table.step (.kstack p page.isSome) with
  | some np, some t =>
    if ∀ k, page = some k → ∀ q, s.kstack q ≠ some k then
      some { s with table := t, kstack := update s.kstack np page }
    else none
  | _, _ => none

/-- A `fork` that fails frees the kernel stack. -/
def copyProc (s : State n) (p : Slot) (ok : Bool) : Option (State n) :=
  match (s.table.proc p).pc, s.table.step (.copy p ok) with
  | .copy call np, some t =>
    some { s with
      table := t
      kstack := if call = .fork ∧ ok = false then update s.kstack np none else s.kstack }
  | _, _ => none

def stepProc (s : State n) (c : Fin n) (p : Slot) : ProcPc → What → Option (State n)
  | .run, .call op => s.call c p op
  | .run, .kstack page => s.allocStack p page
  | .run, .copy ok => s.copyProc p ok
  | .body op, .next =>
    (s.table.step (op.act p)).map fun t => s.after c p t (goneIn s.table p op)
  | .swtch, .next => some (s.goto c (.sched (.back p)))
  | .resumed, .next => some (s.after c p (s.table.goOn p) ((s.table.goneOn? p).map Prod.snd))
  | .release, .next => some (s.release c (.proc p .run))
  | _, _ => none

def stepSched (s : State n) (c : Fin n) : SchedPc → What → Option (State n)
  | .idle, .next => s.acquire c (.sched (.scan 0))
  | .idle, .intr chan => s.acquire c (.sched (.intr chan))
  | .intr chan, .next =>
    some ({ s with table := s.table.wakeup1 chan }.goto c (.sched .intrRelease))
  | .intrRelease, .next => some (s.release c (.sched .idle))
  | .scan i, .next =>
    if hi : i < Xv6.nproc then
      if (s.table.proc ⟨i, hi⟩).state = .runnable then
        some ((s.setCurrent c (some ⟨i, hi⟩)).goto c (.sched (.chosen ⟨i, hi⟩)))
      else some (s.goto c (.sched (.scan (i + 1))))
    else some (s.release c (.sched .idle))
  | .chosen p, .next =>
    some ({ s with table := s.table.setProc p { s.table.proc p with state := .running } }.goto c
      (.sched (.ran p)))
  | .ran p, .next => some (s.goto c (.proc p .resumed))
  | .back p, .next => some ((s.setCurrent c none).goto c (.sched (.scan (p + 1))))
  | _, _ => none

def step (s : State n) (a : Fin n × What) : Option (State n) :=
  match (s.cpu a.1).ctx with
  | .proc p pc => s.stepProc a.1 p pc a.2
  | .sched pc => s.stepSched a.1 pc a.2

end State

end Xv6.Sched
