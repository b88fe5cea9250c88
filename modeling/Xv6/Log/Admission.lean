import Xv6.Lib.Machine
import Xv6.Param
import Mathlib.Data.Finset.Card
import Mathlib.Data.Fintype.Basic

/-!
# Admission to the log

`begin_op`, `log_write`, `end_op` and `commit` of `log.c`, for any number of processes. Each `log.lock`
section is one step, and so is each access of `log` without the lock: the checks at the head of
`log_write`, and the statements of `commit`. A section with a `wakeup` waits for `ptable.lock`, which a
process keeps between `release(&log.lock)` in `sleep` and `p->state = SLEEPING`.

A panic is an outcome of its own. What the buffers hold is left out.
-/

namespace Xv6.Admission

structure Layout where
  start : Nat
  size : Nat

inductive Pc where
  | idle
  /-- `begin_op`: `acquire(&log.lock)` and the tests of the loop. -/
  | beginOp
  /-- In `sleep`, with `ptable.lock`. -/
  | switch
  /-- `SLEEPING` on `&log`. -/
  | asleep
  /-- Inside an operation, outside of the functions of `log.c`. -/
  | op
  /-- `log_write`: `if (log.lh.n >= LOGSIZE || log.lh.n >= log.size - 1)`. -/
  | logSize (b : Nat)
  /-- `if (log.outstanding < 1)`. -/
  | logOutstanding (b : Nat)
  /-- The locked part of `log_write`. -/
  | logRecord (b : Nat)
  /-- The first locked part of `end_op`. -/
  | endOp
  /-- `commit`: `if (log.lh.n > 0)`. -/
  | commit
  | writeLog (tail : Nat)
  | writeHead
  | installTrans (tail : Nat)
  /-- `log.lh.n = 0`. -/
  | clear
  | writeHeadAgain
  /-- The second locked part of `end_op`. -/
  | commitDone
  deriving DecidableEq

structure Proc where
  pc : Pc
  /-- The blocks that its operation has recorded. -/
  wrote : Finset Nat

structure State (n : Nat) where
  outstanding : Nat
  committing : Bool
  /-- `log.lh.block[0..n)`. -/
  lh : List Nat
  ptable : Option (Fin n)
  proc : Fin n → Proc
  /-- All blocks recorded since the last commit, once for each `log_write`. -/
  recorded : List Nat

inductive Panic where
  | tooBig
  | outsideTrans
  | committing
  deriving DecidableEq

inductive Outcome (σ : Type) where
  | panic (m : Panic)
  | blocked
  | ok (s : σ)

inductive Act (n : Nat) where
  | beginOp (p : Fin n)
  | logWrite (p : Fin n) (b : Nat)
  | endOp (p : Fin n)
  | step (p : Fin n)
  | kill (q : Fin n)

variable {n : Nat}

namespace State

def pc (s : State n) (q : Fin n) : Pc := (s.proc q).pc

def setProc (s : State n) (p : Fin n) (x : Proc) : State n :=
  { s with proc := Function.update s.proc p x }

def setPc (s : State n) (p : Fin n) (pc : Pc) : State n :=
  s.setProc p { s.proc p with pc := pc }

def wakeup (s : State n) : State n :=
  { s with proc := fun q => if s.pc q = .asleep then { s.proc q with pc := .beginOp } else s.proc q }

/-- `log.lh.n + (log.outstanding + 1) * MAXOPBLOCKS <= LOGSIZE`. -/
def Room (s : State n) : Prop := s.lh.length + (s.outstanding + 1) * maxOpBlocks ≤ logSize

instance (s : State n) : Decidable s.Room := inferInstanceAs (Decidable (_ ≤ _))

/-- `log.lh.block[i] = b->blockno` at the first `i` with that block, or at the end. -/
def absorb (lh : List Nat) (b : Nat) : List Nat :=
  let i := lh.idxOf b
  if i = lh.length then lh ++ [b] else lh.set i b

def sleep (s : State n) (p : Fin n) : Outcome (State n) :=
  if s.ptable = none then .ok { s.setPc p .switch with ptable := some p } else .blocked

def next (lay : Layout) (s : State n) (p : Fin n) : Outcome (State n) :=
  match s.pc p with
  | .idle | .asleep | .op => .blocked
  | .beginOp =>
    if s.committing then
      s.sleep p
    else if ¬ s.Room then
      s.sleep p
    else
      .ok { s.setProc p { pc := .op, wrote := ∅ } with outstanding := s.outstanding + 1 }
  | .switch => .ok { s.setPc p .asleep with ptable := none }
  | .logSize b =>
    if Xv6.logSize ≤ s.lh.length ∨ lay.size ≤ s.lh.length + 1 then .panic .tooBig
    else .ok (s.setPc p (.logOutstanding b))
  | .logOutstanding b =>
    if s.outstanding < 1 then .panic .outsideTrans else .ok (s.setPc p (.logRecord b))
  | .logRecord b =>
    .ok { s.setProc p { pc := .op, wrote := insert b (s.proc p).wrote } with
      lh := absorb s.lh b, recorded := b :: s.recorded }
  | .endOp =>
    if s.committing then
      .panic .committing
    else if s.outstanding - 1 = 0 then
      .ok { s.setPc p .commit with outstanding := s.outstanding - 1, committing := true }
    else if s.ptable = none then
      .ok { s.wakeup.setPc p .idle with outstanding := s.outstanding - 1 }
    else
      .blocked
  | .commit => .ok (s.setPc p (if 0 < s.lh.length then .writeLog 0 else .commitDone))
  | .writeLog tail =>
    .ok (s.setPc p (if tail < s.lh.length then .writeLog (tail + 1) else .writeHead))
  | .writeHead => .ok (s.setPc p (.installTrans 0))
  | .installTrans tail =>
    .ok (s.setPc p (if tail < s.lh.length then .installTrans (tail + 1) else .clear))
  | .clear => .ok { s.setPc p .writeHeadAgain with lh := [], recorded := [] }
  | .writeHeadAgain => .ok (s.setPc p .commitDone)
  | .commitDone =>
    if s.ptable = none then .ok { s.wakeup.setPc p .idle with committing := false } else .blocked

/-- The block that `bwrite` in the next statement of `p` writes, inside `write_log`, unless `bget` panics
for want of a buffer before. -/
def writesLog (lay : Layout) (s : State n) (p : Fin n) : Option Nat :=
  match s.pc p with
  | .writeLog tail => if tail < s.lh.length then some (lay.start + tail + 1) else none
  | _ => none

def init : State n :=
  { outstanding := 0
    committing := false
    lh := []
    ptable := none
    proc := fun _ => { pc := .idle, wrote := ∅ }
    recorded := [] }

end State

def outcome (lay : Layout) (s : State n) : Act n → Outcome (State n)
  | .beginOp p => if s.pc p = .idle then .ok (s.setPc p .beginOp) else .blocked
  | .logWrite p b => if s.pc p = .op then .ok (s.setPc p (.logSize b)) else .blocked
  | .endOp p => if s.pc p = .op then .ok (s.setPc p .endOp) else .blocked
  | .step p => s.next lay p
  | .kill q =>
    if s.ptable = none then .ok (if s.pc q = .asleep then s.setPc q .beginOp else s) else .blocked

def step (lay : Layout) (s : State n) (a : Act n) : Option (State n) :=
  match outcome lay s a with
  | .ok s' => some s'
  | _ => none

/-- An operation logs at most `MAXOPBLOCKS` distinct blocks. -/
def Fits (s : State n) : Act n → Prop
  | .logWrite p b => (insert b (s.proc p).wrote).card ≤ maxOpBlocks
  | _ => True

instance (s : State n) (a : Act n) : Decidable (Fits s a) := by
  cases a <;> unfold Fits <;> infer_instance

end Xv6.Admission
