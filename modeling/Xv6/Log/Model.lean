import Xv6.Lib.Pool
import Xv6.Param
import Mathlib.Data.List.Basic
import Mathlib.Data.Fintype.Basic

/-!
# The log and the buffer cache

`bio.c` and `log.c` as programs over their critical sections. A block is the array of its words; a
write of the disk is one step. The disk driver's queue is left out: `iderw` returns when its request
is done. A panic, and a process that sleeps, has no step.

The state keeps a record that the kernel does not have: the history of the operations, and the
contents of the cache when `commit` was entered.
-/

namespace Xv6.Log

open Function (update)

abbrev Blockno := Nat

abbrev Data := Nat → Nat

abbrev Disk := Blockno → Data

def logStart : Nat := 2

def Home (bn : Nat) : Prop := bn < logStart ∨ logStart + logSize ≤ bn

instance (bn : Blockno) : Decidable (Home bn) := inferInstanceAs (Decidable (_ ∨ _))

abbrev BufId := Fin nbuf

structure Buf (n : Nat) where
  valid : Bool
  dirty : Bool
  /-- `none` before the first use, when `dev` is still `0`. -/
  blockno : Option Blockno
  lock : Option (Fin n)
  refcnt : Nat
  data : Data

def Buf.unused {n : Nat} : Buf n :=
  { valid := false, dirty := false, blockno := none, lock := none, refcnt := 0, data := fun _ => 0 }

inductive Event (n : Nat) where
  | beginOp (p : Fin n)
  | logWrite (p : Fin n) (bn : Blockno) (d : Data)
  | endOp (p : Fin n)

structure State (n : Nat) where
  disk : Disk
  buf : BufId → Buf n
  /-- `bcache.head`, the most recently used first. -/
  lru : List BufId
  /-- `log.lh`, the blocks up to `n`. -/
  lh : List Blockno
  outstanding : Nat
  committing : Bool
  /-- `initlog` has returned. -/
  ready : Bool
  /-- The disk of the first boot. -/
  initial : Disk
  /-- The operations whose effect is in the cache. -/
  hist : List (Event n)
  /-- The cache and the history when the last `commit` was entered. -/
  snap : Disk
  snapHist : List (Event n)
  /-- The same for the last `commit` whose first `write_head` reached the disk. -/
  committed : Disk
  commitHist : List (Event n)

def decode (d : Data) : List Blockno := (List.range (d 0)).map fun i => d (i + 1)

def encode (d : Data) (lh : List Blockno) : Data :=
  fun j => if j = 0 then lh.length else lh.getD (j - 1) (d j)

inductive Op where
  /-- The `bcache.lock` section of `bget`. -/
  | bget (bn : Blockno)
  | acquiresleep (b : BufId)
  /-- `if ((b->flags & B_VALID) == 0) iderw(b)`. -/
  | fill (b : BufId)
  /-- The change that a caller of `bread` makes; the answer is the data before it. -/
  | modify (b : BufId) (f : Data → Data)
  | memmove (dst src : BufId)
  | bwrite (b : BufId)
  | releasesleep (b : BufId)
  /-- The `bcache.lock` section of `brelse`. -/
  | bput (b : BufId)
  | beginOp
  /-- The `log.lock` section of `end_op`; the answer is `do_commit`. -/
  | endOp
  | endCommit
  /-- The checks of `log_write`, made without a lock. -/
  | logCheck
  /-- The `log.lock` section of `log_write`. -/
  | logAppend (b : BufId)
  /-- `log.lh.n`, `log.lh.block[i]` and `log.lh.n = 0`. -/
  | lhN
  | lhBlock (i : Nat)
  | lhClear
  /-- Copying between `log.lh` and the header block's buffer. -/
  | setHead (b : BufId)
  | getHead (b : BufId)
  /-- The return of `initlog`. -/
  | initDone

@[reducible]
def Op.Res : Op → Type
  | .bget _ => BufId
  | .modify _ _ => Data
  | .endOp => Bool
  | .lhN => Nat
  | .lhBlock _ => Blockno
  | _ => Unit

abbrev LogM := Prog Op Op.Res

abbrev atomic (o : Op) : LogM o.Res := Prog.perform o

/-! ### `bio.c` -/

def bget (bn : Blockno) : LogM BufId := do
  let b ← atomic (.bget bn)
  atomic (.acquiresleep b)
  pure b

def bread (bn : Blockno) : LogM BufId := do
  let b ← bget bn
  atomic (.fill b)
  pure b

def bwrite (b : BufId) : LogM Unit := atomic (.bwrite b)

def brelse (b : BufId) : LogM Unit := do
  atomic (.releasesleep b)
  atomic (.bput b)

/-! ### `log.c` -/

/-- The loop `for (tail = 0; tail < log.lh.n; tail++)`, for `k` more turns. -/
def forTail (body : Nat → LogM Unit) : Nat → Nat → LogM Unit
  | _, 0 => pure ()
  | tail, k + 1 => do
      body tail
      forTail body (tail + 1) k

def installBlock (tail : Nat) : LogM Unit := do
  let lbuf ← bread (logStart + tail + 1)
  let bn ← atomic (.lhBlock tail)
  let dbuf ← bread bn
  atomic (.memmove dbuf lbuf)
  bwrite dbuf
  brelse lbuf
  brelse dbuf

def installTrans : LogM Unit := do
  let n ← atomic .lhN
  forTail installBlock 0 n

def readHead : LogM Unit := do
  let buf ← bread logStart
  atomic (.getHead buf)
  brelse buf

def writeHead : LogM Unit := do
  let buf ← bread logStart
  atomic (.setHead buf)
  bwrite buf
  brelse buf

def recoverFromLog : LogM Unit := do
  readHead
  installTrans
  atomic .lhClear
  writeHead

def writeLogBlock (tail : Nat) : LogM Unit := do
  let tobuf ← bread (logStart + tail + 1)
  let bn ← atomic (.lhBlock tail)
  let frombuf ← bread bn
  atomic (.memmove tobuf frombuf)
  bwrite tobuf
  brelse frombuf
  brelse tobuf

def writeLog : LogM Unit := do
  let n ← atomic .lhN
  forTail writeLogBlock 0 n

def commit : LogM Unit := do
  let n ← atomic .lhN
  if 0 < n then
    writeLog
    writeHead
    installTrans
    atomic .lhClear
    writeHead

def beginOp : LogM Unit := atomic .beginOp

def endOp : LogM Unit := do
  if ← atomic .endOp then
    commit
    atomic .endCommit

def logWrite (b : BufId) : LogM Unit := do
  atomic .logCheck
  atomic (.logAppend b)

/-- An operation of the file system. What it reads may decide what it does next. -/
inductive FsOp where
  | done
  | update (bn : Blockno) (f : Data → Data) (next : Data → FsOp)

namespace FsOp

def body : FsOp → LogM Unit
  | .done => pure ()
  | .update bn f next => do
      let b ← bread bn
      let d ← atomic (.modify b f)
      logWrite b
      brelse b
      (next d).body

def prog (x : FsOp) : LogM Unit := do
  beginOp
  x.body
  endOp

def Outside : FsOp → Prop
  | .done => True
  | .update bn _ next => Home bn ∧ ∀ d, (next d).Outside

end FsOp

/-- `initlog`, by the first process. -/
def initlog : LogM Unit := do
  recoverFromLog
  atomic .initDone

/-! ### Their meaning -/

variable {n : Nat}

namespace State

def setBuf (s : State n) (b : BufId) (x : Buf n) : State n :=
  { s with buf := update s.buf b x }

def record (s : State n) (e : Event n) : State n := { s with hist := s.hist ++ [e] }

def cacheView (s : State n) (bn : Blockno) : Data :=
  match (List.finRange nbuf).find? fun b => (s.buf b).blockno = some bn ∧ (s.buf b).valid with
  | some b => (s.buf b).data
  | none => s.disk bn

/-- A block reaches the disk. The transaction is committed when it is a header that is not empty. -/
def diskWrite (s : State n) (bn : Blockno) (d : Data) : State n :=
  let s' := { s with disk := update s.disk bn d }
  if bn = logStart ∧ 0 < d 0 then
    { s' with committed := s.snap, commitHist := s.snapHist }
  else
    s'

def iderw (s : State n) (b : BufId) : Option (State n) :=
  let x := s.buf b
  match x.blockno with
  | none => none
  | some bn =>
    if x.lock.isNone ∨ (x.valid ∧ ¬ x.dirty) then
      none
    else if x.dirty then
      some ((s.setBuf b { x with valid := true, dirty := false }).diskWrite bn x.data)
    else
      some (s.setBuf b { x with valid := true, data := s.disk bn })

def bgetEntry (s : State n) (bn : Blockno) : Option (BufId × State n) :=
  match s.lru.find? fun b => (s.buf b).blockno = some bn with
  | some b => some (b, s.setBuf b { s.buf b with refcnt := (s.buf b).refcnt + 1 })
  | none =>
    match s.lru.reverse.find? fun b => (s.buf b).refcnt = 0 ∧ (s.buf b).dirty = false with
    | some b => some (b, s.setBuf b { s.buf b with
        blockno := some bn, valid := false, dirty := false, refcnt := 1 })
    | none => none

/-- Drop a reference; a buffer without references becomes the most recently used. -/
def bput (s : State n) (b : BufId) : State n :=
  let s' := s.setBuf b { s.buf b with refcnt := (s.buf b).refcnt - 1 }
  if (s.buf b).refcnt - 1 = 0 then { s' with lru := b :: s.lru.erase b } else s'

def logAppend (s : State n) (p : Fin n) (b : BufId) : Option (State n) :=
  match (s.buf b).blockno with
  | none => none
  | some bn =>
    let s' := s.setBuf b { s.buf b with dirty := true }
    let lh := if bn ∈ s.lh then s.lh else s.lh ++ [bn]
    some ({ s' with lh := lh }.record (.logWrite p bn (s.buf b).data))

def endOp (s : State n) (p : Fin n) : Option (Bool × State n) :=
  if s.committing then
    none
  else
    let s' := { s.record (.endOp p) with outstanding := s.outstanding - 1 }
    if s.outstanding - 1 = 0 then
      some (true, { s' with committing := true, snap := s'.cacheView, snapHist := s'.hist })
    else
      some (false, s')

def exec (p : Fin n) : Exec Op Op.Res (State n)
  | .bget bn, s => s.bgetEntry bn
  | .acquiresleep b, s =>
    if (s.buf b).lock = none then some ((), s.setBuf b { s.buf b with lock := some p }) else none
  | .fill b, s => if (s.buf b).valid then some ((), s) else (s.iderw b).map fun s' => ((), s')
  | .modify b f, s =>
    some ((s.buf b).data, s.setBuf b { s.buf b with data := f (s.buf b).data })
  | .memmove dst src, s => some ((), s.setBuf dst { s.buf dst with data := (s.buf src).data })
  | .bwrite b, s =>
    ((s.setBuf b { s.buf b with dirty := true }).iderw b).map fun s' => ((), s')
  | .releasesleep b, s =>
    if (s.buf b).lock.isSome then some ((), s.setBuf b { s.buf b with lock := none }) else none
  | .bput b, s => some ((), s.bput b)
  | .beginOp, s =>
    if s.committing = false ∧ s.lh.length + (s.outstanding + 1) * maxOpBlocks ≤ logSize then
      some ((), { s.record (.beginOp p) with outstanding := s.outstanding + 1 })
    else
      none
  | .endOp, s => s.endOp p
  | .endCommit, s => some ((), { s with committing := false })
  | .logCheck, s =>
    if s.lh.length < logSize - 1 ∧ 1 ≤ s.outstanding then some ((), s) else none
  | .logAppend b, s => (s.logAppend p b).map fun s' => ((), s')
  | .lhN, s => some (s.lh.length, s)
  | .lhBlock i, s => some (s.lh.getD i 0, s)
  | .lhClear, s => some ((), { s with lh := [] })
  | .setHead b, s => some ((), s.setBuf b { s.buf b with data := encode (s.buf b).data s.lh })
  | .getHead b, s => some ((), { s with lh := decode (s.buf b).data })
  | .initDone, s => some ((), { s with ready := true })

/-- What a power failure leaves: the disk. The record forgets what had not been committed. -/
def reset (s : State n) : State n :=
  { s with
    buf := fun _ => .unused
    lru := (List.finRange nbuf).reverse
    lh := []
    outstanding := 0
    committing := false
    ready := false
    hist := s.commitHist }

def init (disk : Disk) : State n where
  disk := disk
  buf _ := .unused
  lru := (List.finRange nbuf).reverse
  lh := []
  outstanding := 0
  committing := false
  ready := false
  initial := disk
  hist := []
  snap := disk
  snapHist := []
  committed := disk
  commitHist := []

end State

/-! ### Runs with power failures -/

abbrev Machine (n : Nat) := Pool (Fin n) Op Op.Res Unit (State n)

namespace Machine

inductive Act (n : Nat) where
  | start (p : Fin n) (x : FsOp) (hx : x.Outside)
  | run (p : Fin n)
  | crash (p : Fin n)

def bootThreads (p : Fin n) : Fin n → LogM Unit := update (fun _ => .pure ()) p initlog

def step (m : Machine n) : Act n → Option (Machine n)
  | .start p x _ =>
    match m.thread p with
    | .pure _ =>
      if m.shared.ready then some ⟨update m.thread p x.prog, m.shared⟩ else none
    | .op _ _ => none
  | .run p =>
    match m.thread p with
    | .pure _ => none
    | .op o next => (State.exec p o m.shared).map fun rs =>
      ⟨update m.thread p (next rs.1), rs.2⟩
  | .crash p => some ⟨bootThreads p, m.shared.reset⟩

/-- The log has room for the block of buffer `b`, which `log_write` is about to append. -/
def RoomFor (s : State n) (b : BufId) : Prop :=
  ∀ bn ∈ (s.buf b).blockno, bn ∈ s.lh ∨ s.lh.length < logSize - 1

instance (s : State n) (b : BufId) : Decidable (RoomFor s b) :=
  inferInstanceAs (Decidable (∀ bn ∈ (s.buf b).blockno, _))

/-- At most `log.size - 1` distinct blocks are logged between two commits. -/
def Fits (m : Machine n) : Act n → Prop
  | .run p =>
    match m.thread p with
    | .op (.logAppend b) _ => RoomFor m.shared b
    | _ => True
  | _ => True

instance (m : Machine n) (a : Act n) : Decidable (Fits m a) := by
  unfold Fits
  split
  · split <;> infer_instance
  · infer_instance

def init (disk : Disk) (p : Fin n) : Machine n := ⟨bootThreads p, .init disk⟩

end Machine

end Xv6.Log
