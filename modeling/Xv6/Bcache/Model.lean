import Xv6.Lib.LinkedRing
import Xv6.Lib.Machine
import Xv6.Param
import Mathlib.Data.List.FinRange

/-!
# The buffer cache

`bio.c` with its `prev` and `next` pointers. A section under `bcache.lock` is one action, and so is a
transfer by `iderw`. A process uses a buffer only while `bread` has given it to it; between that and
`brelse` it may change the data, and calls `log_write` or `bwrite`.
-/

namespace Xv6.Bcache

open Function (update)

abbrev BufId := Fin nbuf

abbrev Dev := UInt32

abbrev Blockno := UInt32

/-- `bcache.head` and `bcache.buf`. -/
inductive Node where
  | head
  | buf (b : BufId)
  deriving DecidableEq

structure Buf (δ : Type) where
  /-- `B_VALID` and `B_DIRTY`. -/
  valid : Bool
  dirty : Bool
  dev : Dev
  blockno : Blockno
  /-- `lock.locked`. -/
  locked : Bool
  refcnt : Nat
  data : δ

inductive Pc where
  | idle
  /-- In `acquiresleep` of `bget(dev, blockno)`. -/
  | acquiring (b : BufId) (dev : Dev) (blockno : Blockno)
  /-- In `bread(dev, blockno)`, with the buffer locked. -/
  | reading (b : BufId) (dev : Dev) (blockno : Blockno)
  /-- In `bwrite`, before `iderw`. -/
  | writing (b : BufId)
  /-- In `brelse`, after `releasesleep`. -/
  | dropping (b : BufId)
  deriving DecidableEq

structure State (n : Nat) (δ : Type) where
  buf : BufId → Buf δ
  links : Links Node
  disk : Dev → Blockno → δ
  pc : Fin n → Pc
  /-- The process has locked the buffer. -/
  holds : Fin n → BufId → Bool
  /-- What a holder has left in a block since it was last written to the disk. -/
  left : Dev → Blockno → Option δ
  /-- The holder has changed the data, and neither `log_write` nor `bwrite` has followed. -/
  touched : BufId → Bool

inductive Act (n : Nat) (δ : Type) where
  | bget (p : Fin n) (dev : Dev) (blockno : Blockno)
  | acquiresleep (p : Fin n)
  /-- `if ((b->flags & B_VALID) == 0) iderw(b)`, and `bread` returns. -/
  | fill (p : Fin n)
  | modify (p : Fin n) (b : BufId) (d : δ)
  | logWrite (p : Fin n) (b : BufId)
  | bwrite (p : Fin n) (b : BufId)
  | iderw (p : Fin n)
  | brelse (p : Fin n) (b : BufId)
  /-- The rest of `brelse`. -/
  | drop (p : Fin n)

def binit (k : Links Node) : Links Node :=
  (List.finRange nbuf).foldl (fun k b => k.insertAfter .head (.buf b))
    ((k.setPrev .head .head).setNext .head .head)

inductive Got where
  | cached (b : BufId)
  | recycled (b : BufId)
  deriving DecidableEq

variable {n : Nat} {δ : Type}

namespace State

def setBuf (s : State n δ) (b : BufId) (x : Buf δ) : State n δ := { s with buf := update s.buf b x }

def setPc (s : State n δ) (p : Fin n) (pc : Pc) : State n δ := { s with pc := update s.pc p pc }

def setHolds (s : State n δ) (p : Fin n) (b : BufId) (x : Bool) : State n δ :=
  { s with holds := update s.holds p (update (s.holds p) b x) }

def setTouched (s : State n δ) (b : BufId) (x : Bool) : State n δ :=
  { s with touched := update s.touched b x }

/-- What is left in the block of the buffer `b`. -/
def setLeft (s : State n δ) (b : BufId) (x : Option δ) : State n δ :=
  { s with
    left := update s.left (s.buf b).dev (update (s.left (s.buf b).dev) (s.buf b).blockno x) }

def setDisk (s : State n δ) (b : BufId) (d : δ) : State n δ :=
  { s with
    disk := update s.disk (s.buf b).dev (update (s.disk (s.buf b).dev) (s.buf b).blockno d) }

/-- The first loop of `bget` asks for the block. -/
def isCached (s : State n δ) (dev : Dev) (blockno : Blockno) : Node → Option BufId
  | .head => none
  | .buf b => if (s.buf b).dev = dev ∧ (s.buf b).blockno = blockno then some b else none

/-- The second one asks for a buffer that is not in use. -/
def isUnused (s : State n δ) : Node → Option BufId
  | .head => none
  | .buf b => if (s.buf b).refcnt = 0 ∧ (s.buf b).dirty = false then some b else none

/-- `none`: `panic("bget: no buffers")`, or a loop that does not end. -/
def bget (s : State n δ) (dev : Dev) (blockno : Blockno) : Option Got :=
  match Links.findFrom s.links.next .head (s.isCached dev blockno) (nbuf + 1) (s.links.next .head) with
  | some (some b) => some (.cached b)
  | some none =>
    match Links.findFrom s.links.prev .head s.isUnused (nbuf + 1) (s.links.prev .head) with
    | some (some b) => some (.recycled b)
    | _ => none
  | none => none

def got (s : State n δ) (dev : Dev) (blockno : Blockno) : Got → BufId × State n δ
  | .cached b => (b, s.setBuf b { s.buf b with refcnt := (s.buf b).refcnt + 1 })
  | .recycled b =>
    (b, s.setBuf b { s.buf b with
      dev := dev, blockno := blockno, valid := false, dirty := false, refcnt := 1 })

/-- `iderw` until its request is done; it panics if there is nothing to do. -/
def iderw (s : State n δ) (b : BufId) : Option (State n δ) :=
  if (s.buf b).dirty then
    some ((((s.setDisk b (s.buf b).data).setLeft b none).setTouched b false).setBuf b
      { s.buf b with valid := true, dirty := false })
  else if (s.buf b).valid then none
  else
    some (s.setBuf b { s.buf b with
      valid := true, data := s.disk (s.buf b).dev (s.buf b).blockno })

/-- The end of `brelse`: a buffer that nobody waits for becomes the most recently used one. -/
def bput (s : State n δ) (b : BufId) : State n δ :=
  let s := s.setBuf b { s.buf b with refcnt := (s.buf b).refcnt - 1 }
  if (s.buf b).refcnt = 0 then
    { s with links := (s.links.unlink (.buf b)).insertAfter .head (.buf b) }
  else s

/-- After `binit`. The buffers are zero, but for their data nothing depends on it. -/
def init (k : Links Node) (disk : Dev → Blockno → δ) (data : BufId → δ) : State n δ where
  buf := fun b =>
    { valid := false, dirty := false, dev := 0, blockno := 0, locked := false, refcnt := 0, data := data b }
  links := binit k
  disk := disk
  pc := fun _ => .idle
  holds := fun _ _ => false
  left := fun _ _ => none
  touched := fun _ => false

end State

/-- `none`: the action does not fit, the process has to wait, or the kernel panics. -/
def step (s : State n δ) : Act n δ → Option (State n δ)
  | .bget p dev blockno =>
    match s.pc p, s.bget dev blockno with
    | .idle, some g =>
      let (b, s) := s.got dev blockno g
      some (s.setPc p (.acquiring b dev blockno))
    | _, _ => none
  | .acquiresleep p =>
    match s.pc p with
    | .acquiring b dev blockno =>
      if (s.buf b).locked then none
      else
        some (((s.setBuf b { s.buf b with locked := true }).setHolds p b true).setPc p
          (.reading b dev blockno))
    | _ => none
  | .fill p =>
    match s.pc p with
    | .reading b _ _ =>
      if (s.buf b).valid then some (s.setPc p .idle)
      else (s.iderw b).map fun s => s.setPc p .idle
    | _ => none
  | .modify p b d =>
    if s.pc p = .idle ∧ s.holds p b then
      some (((s.setBuf b { s.buf b with data := d }).setLeft b (some d)).setTouched b true)
    else none
  | .logWrite p b =>
    if s.pc p = .idle ∧ s.holds p b then
      some ((s.setBuf b { s.buf b with dirty := true }).setTouched b false)
    else none
  | .bwrite p b =>
    if s.pc p = .idle ∧ s.holds p b ∧ (s.buf b).locked then
      some ((s.setBuf b { s.buf b with dirty := true }).setPc p (.writing b))
    else none
  | .iderw p =>
    match s.pc p with
    | .writing b => (s.iderw b).map fun s => s.setPc p .idle
    | _ => none
  | .brelse p b =>
    if s.pc p = .idle ∧ s.holds p b ∧ (s.buf b).locked then
      some (((s.setBuf b { s.buf b with locked := false }).setHolds p b false).setPc p (.dropping b))
    else none
  | .drop p =>
    match s.pc p with
    | .dropping b => some ((s.bput b).setPc p .idle)
    | _ => none

/-- The discipline of the callers: no block of device 0, and a change is followed by `log_write` or
`bwrite` before `brelse`. -/
def Disciplined (s : State n δ) : Act n δ → Prop
  | .bget _ dev _ => dev ≠ 0
  | .brelse _ b => s.touched b = false
  | _ => True

instance (s : State n δ) (a : Act n δ) : Decidable (Disciplined s a) := by
  cases a <;> unfold Disciplined <;> infer_instance

end Xv6.Bcache
