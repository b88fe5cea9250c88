import Xv6.Param
import Xv6.Lib.Machine
import Mathlib.Data.Fintype.Basic
import Mathlib.Data.List.FinRange

/-!
# The process table

`allocproc`, `fork`, `thread_create`, `exit`, `thread_exit`, `wait`, `thread_join`, `kill`, `sleep` and
`wakeup` of `proc.c`, with every section under `ptable.lock` one step: in `sleep` up to the switch, and
after it from the scheduler's choice of the process on. Between the sections of `fork` and
`thread_create`, `allocproc`'s `kalloc` and the copying of the parent are steps of their own, since they
write the table without the lock.
-/

namespace Xv6.Ptable

abbrev Slot := Fin nproc

instance : NeZero nproc := ⟨by decide⟩

inductive ProcState where
  | unused
  | embryo
  | sleeping
  | runnable
  | running
  | zombie
  deriving DecidableEq

inductive Chan where
  /-- The address of a process, on which `wait` and `thread_join` sleep. -/
  | proc (q : Slot)
  | other (c : Nat)
  deriving DecidableEq

inductive Create where
  | fork
  | threadCreate
  deriving DecidableEq

inductive Reaper where
  | wait
  | threadJoin
  deriving DecidableEq

inductive Pc where
  | user
  /-- In `allocproc`, before `kalloc`. -/
  | kstack (call : Create) (np : Slot)
  /-- After `allocproc`, before the parent is copied. -/
  | copy (call : Create) (np : Slot)
  /-- Before `np->state = RUNNABLE`. -/
  | ready (call : Create) (np : Slot)
  /-- Asleep in `wait` or `thread_join`, or woken there. -/
  | reap (call : Reaper)
  /-- Asleep elsewhere, or woken there. -/
  | asleep
  deriving DecidableEq

structure Proc where
  state : ProcState
  pid : Int
  parent : Option Slot
  chan : Option Chan
  killed : Bool
  isThread : Bool
  pc : Pc
  /-- History, which the program does not keep: how many processes were made before this one. -/
  serial : Nat
  /-- By which call, and the serial of the caller. -/
  made : Create
  creator : Nat
  /-- Whether a `kill` has named its pid since it was made. -/
  named : Bool
  deriving DecidableEq

/-- A return of `wait` or `thread_join` with a child: the serials of the caller, the child and the
child's parent, and how the child was made. -/
structure Reaped where
  call : Reaper
  caller : Nat
  child : Nat
  parent : Option Nat
  made : Create
  creator : Nat
  deriving DecidableEq

structure State where
  proc : Slot → Proc
  nextpid : Int
  /-- History: the processes made, and the children reaped, the last first. -/
  created : Nat
  reaped : List Reaped

inductive Act where
  | schedule (p : Slot)
  | yield (p : Slot)
  /-- The section of `allocproc`. -/
  | alloc (p : Slot) (call : Create)
  /-- `kalloc` succeeds or fails. -/
  | kstack (p : Slot) (ok : Bool)
  /-- `copyuvm` succeeds or fails; `thread_create` shares and does not fail. -/
  | copy (p : Slot) (ok : Bool)
  | ready (p : Slot)
  | exit (p : Slot)
  | threadExit (p : Slot)
  | wait (p : Slot)
  | threadJoin (p : Slot)
  | kill (p : Slot) (pid : Int)
  /-- `sleep` and `mysleep`; the latter takes any address. -/
  | sleep (p : Slot) (chan : Option Chan)
  /-- `wakeup` and `mywakeup`, by an interrupt or any process. -/
  | wakeup (chan : Option Chan)
  deriving DecidableEq

/-- A change of the entries in use: `p` fills the entry `np` in a call, gives it up, or collects the
child `q` in a call. -/
inductive Change where
  | fill (call : Create) (p np : Slot)
  | drop (p np : Slot)
  | collect (call : Reaper) (p q : Slot)
  deriving DecidableEq

def int32 (x : Int) : Int := x.bmod (2 ^ 32)

def initproc : Slot := 0

namespace State

def init : State where
  proc q :=
    { state := if q = initproc then .runnable else .unused
      pid := if q = initproc then 1 else 0
      parent := none
      chan := none
      killed := false
      isThread := false
      pc := .user
      serial := 0
      made := .fork
      creator := 0
      named := false }
  nextpid := 2
  created := 1
  reaped := []

def setProc (s : State) (q : Slot) (x : Proc) : State := { s with proc := Function.update s.proc q x }

/-! ### Making a process -/

def unused? (s : State) : Option Slot :=
  (List.finRange nproc).find? fun q => (s.proc q).state = .unused

/-- `found:`, for the entry `np`. The flags `killed` and `isThread` stay as they are. -/
def claim (s : State) (p np : Slot) (call : Create) : State :=
  let s := { s with nextpid := int32 (s.nextpid + 1), created := s.created + 1 }.setProc np
    { s.proc np with
      state := .embryo
      pid := s.nextpid
      pc := .user
      serial := s.created
      made := call
      creator := (s.proc p).serial
      named := false }
  s.setProc p { s.proc p with pc := .kstack call np }

/-- The section of `allocproc`; without a free entry the call returns -1. -/
def allocproc (s : State) (p : Slot) (call : Create) : State :=
  match s.unused? with
  | none => s
  | some np => s.claim p np call

def giveUp (s : State) (p np : Slot) : State :=
  let s := s.setProc np { s.proc np with state := .unused }
  s.setProc p { s.proc p with pc := .user }

def copyProc (s : State) (p np : Slot) (call : Create) : State :=
  let s := s.setProc np
    { s.proc np with
      parent := some p
      isThread := (s.proc np).isThread || call = .threadCreate }
  s.setProc p { s.proc p with pc := .ready call np }

def makeReady (s : State) (p np : Slot) : State :=
  let s := s.setProc np { s.proc np with state := .runnable }
  s.setProc p { s.proc p with pc := .user }

end State

/-! ### Sleeping and waking -/

def Proc.wake (chan : Option Chan) (x : Proc) : Proc :=
  if x.state = .sleeping ∧ x.chan = chan then { x with state := .runnable } else x

namespace State

def wakeup1 (s : State) (chan : Option Chan) : State := { s with proc := fun q => (s.proc q).wake chan }

def sleep (s : State) (p : Slot) (chan : Option Chan) (pc : Pc) : State :=
  s.setProc p { s.proc p with chan := chan, state := .sleeping, pc := pc }

/-! ### The end of a process -/

def adopt (p : Slot) (s : State) (q : Slot) : State :=
  if (s.proc q).parent = some p then
    let s := s.setProc q { s.proc q with parent := some initproc }
    if (s.proc q).state = .zombie then s.wakeup1 (some (.proc initproc)) else s
  else
    s

def exitSection (s : State) (p : Slot) : State :=
  let s := s.wakeup1 ((s.proc p).parent.map .proc)
  let s := (List.finRange nproc).foldl (adopt p) s
  s.setProc p { s.proc p with state := .zombie }

def exit (s : State) (p : Slot) : State := s.exitSection p

def threadExit (s : State) (p : Slot) : State := s.exitSection p

/-! ### Reaping -/

def Child (s : State) (call : Reaper) (p q : Slot) : Prop :=
  (s.proc q).parent = some p ∧ (call = .threadJoin → (s.proc q).isThread = true)

instance (s : State) (call : Reaper) (p q : Slot) : Decidable (s.Child call p q) :=
  inferInstanceAs (Decidable (_ ∧ _))

inductive Scan where
  | found (q : Slot)
  /-- `return -1` -/
  | fails
  | sleeps
  deriving DecidableEq

def scan (s : State) (call : Reaper) (p : Slot) : Scan :=
  match (List.finRange nproc).find? fun q => s.Child call p q ∧ (s.proc q).state = .zombie with
  | some q => .found q
  | none => if (¬ ∃ q, s.Child call p q) ∨ (s.proc p).killed then .fails else .sleeps

def found? (s : State) (call : Reaper) (p : Slot) : Option Slot :=
  match s.scan call p with
  | .found q => some q
  | .fails | .sleeps => none

/-- The entry `q` becomes free; `isThread` stays as it is. -/
def clear (s : State) (q : Slot) : State :=
  s.setProc q { s.proc q with pid := 0, parent := none, killed := false, state := .unused }

def record (s : State) (call : Reaper) (p q : Slot) : Reaped where
  call := call
  caller := (s.proc p).serial
  child := (s.proc q).serial
  parent := (s.proc q).parent.map fun r => (s.proc r).serial
  made := (s.proc q).made
  creator := (s.proc q).creator

/-- One pass of the loop of `wait` or `thread_join`. -/
def reap (s : State) (call : Reaper) (p : Slot) : State :=
  match s.scan call p with
  | .found q =>
    let s := { s with reaped := s.record call p q :: s.reaped }.clear q
    s.setProc p { s.proc p with pc := .user }
  | .fails => s.setProc p { s.proc p with pc := .user }
  | .sleeps => s.sleep p (some (.proc p)) (.reap call)

def wait (s : State) (p : Slot) : State := s.reap .wait p

def threadJoin (s : State) (p : Slot) : State := s.reap .threadJoin p

/-! ### Killing -/

def target? (s : State) (pid : Int) : Option Slot :=
  (List.finRange nproc).find? fun q => (s.proc q).pid = pid

def kill (s : State) (pid : Int) : Int × State :=
  let s' : State := { s with proc := fun q =>
    { s.proc q with named := (s.proc q).named || (s.proc q).pid = pid } }
  match s.target? pid with
  | none => (-1, s')
  | some q =>
    let x := s'.proc q
    (0, s'.setProc q { x with killed := true, state := if x.state = .sleeping then .runnable else x.state })

/-! ### Steps -/

def InUser (s : State) (p : Slot) : Prop := (s.proc p).state = .running ∧ (s.proc p).pc = .user

instance (s : State) (p : Slot) : Decidable (s.InUser p) := inferInstanceAs (Decidable (_ ∧ _))

def goOn (s : State) (p : Slot) : State :=
  match (s.proc p).pc with
  | .reap call => (s.setProc p { s.proc p with chan := none }).reap call p
  | .asleep => s.setProc p { s.proc p with chan := none, pc := .user }
  | _ => s

def resume (s : State) (p : Slot) : State :=
  (s.setProc p { s.proc p with state := .running }).goOn p

def step (s : State) : Act → Option State
  | .schedule p => if (s.proc p).state = .runnable then some (s.resume p) else none
  | .yield p =>
    if (s.proc p).state = .running then some (s.setProc p { s.proc p with state := .runnable }) else none
  | .alloc p call => if s.InUser p then some (s.allocproc p call) else none
  | .kstack p ok =>
    match (s.proc p).state, (s.proc p).pc with
    | .running, .kstack call np =>
      some (if ok then s.setProc p { s.proc p with pc := .copy call np } else s.giveUp p np)
    | _, _ => none
  | .copy p ok =>
    match (s.proc p).state, (s.proc p).pc with
    | .running, .copy call np =>
      some (if call = .fork ∧ ok = false then s.giveUp p np else s.copyProc p np call)
    | _, _ => none
  | .ready p =>
    match (s.proc p).state, (s.proc p).pc with
    | .running, .ready _ np => some (s.makeReady p np)
    | _, _ => none
  -- `panic("init exiting")`
  | .exit p => if s.InUser p ∧ p ≠ initproc then some (s.exit p) else none
  | .threadExit p => if s.InUser p ∧ p ≠ initproc then some (s.threadExit p) else none
  | .wait p => if s.InUser p then some (s.wait p) else none
  | .threadJoin p => if s.InUser p then some (s.threadJoin p) else none
  | .kill p pid => if s.InUser p then some (s.kill pid).2 else none
  | .sleep p chan => if s.InUser p then some (s.sleep p chan .asleep) else none
  | .wakeup chan => some (s.wakeup1 chan)

def goneOn? (s : State) (p : Slot) : Option (Reaper × Slot) :=
  match (s.proc p).pc with
  | .reap call => (s.found? call p).map fun q => (call, q)
  | _ => none

def change? (s : State) : Act → Option Change
  | .kstack p false =>
    match (s.proc p).pc with
    | .kstack _ np => some (.drop p np)
    | _ => none
  | .copy p ok =>
    match (s.proc p).pc with
    | .copy call np => some (if call = .fork ∧ ok = false then .drop p np else .fill call p np)
    | _ => none
  | .wait p => (s.found? .wait p).map (.collect .wait p)
  | .threadJoin p => (s.found? .threadJoin p).map (.collect .threadJoin p)
  | .schedule p => (s.goneOn? p).map fun g => .collect g.1 p g.2
  | _ => none

def creates (p : Slot) (call : Create) : List Act :=
  [.alloc p call, .kstack p true, .copy p true, .ready p]

end State

end Xv6.Ptable
