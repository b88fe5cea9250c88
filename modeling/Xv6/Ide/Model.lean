import Mathlib.Data.Fintype.Card
import Xv6.Lib.LinkedQueue
import Xv6.Lib.Machine
import Xv6.Param

/-!
# The disk drivers

`ide.c` queues a request, starts the disk and sleeps until `ideintr` has taken the completion; `memide.c`
copies between the buffer and a disk in memory within the call. The queue of `ide.c` is changed under
`idelock`, which a process lets go only in `sleep`, so that each section is one step. Buffers are
numbered by a finite type, and what a block holds is left open.
-/

namespace Xv6.Ide

open Function (update)

def sectorSize : Nat := 512

structure Buf (δ : Type) where
  /-- `B_VALID`. -/
  valid : Bool
  /-- `B_DIRTY`. -/
  dirty : Bool
  dev : UInt32
  blockno : UInt32
  data : δ
  deriving DecidableEq

namespace Buf

variable {δ : Type}

def synced (x : Buf δ) : Bool := x.valid && !x.dirty

/-- What `ideintr` makes of a buffer, with `port` at the data register. -/
def receive (x : Buf δ) (port : δ) : Buf δ :=
  let x := if x.dirty then x else { x with data := port }
  let x := { x with valid := true }
  { x with dirty := false }

end Buf

/-! ### The disk -/

/-- A command as the registers of the controller give it, with the data for a write. -/
structure Cmd (δ : Type) where
  drive : Nat
  sector : Nat
  write : Option δ

/-- The sector that the controller puts together from the four registers. -/
def lba (sector : Nat) : Nat :=
  sector % 256 + sector / 256 % 256 * 256 + sector / 65536 % 256 * 65536 + sector / 16777216 % 16 * 16777216

inductive Device (δ : Type) where
  | ready
  | busy (c : Cmd δ)
  /-- The command is done and the interrupt pending; a read finds `port` at the data register. -/
  | done (c : Cmd δ) (port : δ)

namespace Cmd

variable {δ : Type}

/-- What a command leaves of the disk that it is for. -/
def apply (c : Cmd δ) (disk : Nat → δ) : Nat → δ :=
  match c.write with
  | some data => update disk c.sector data
  | none => disk

end Cmd

section

variable {δ : Type}

def command (x : Buf δ) : Cmd δ where
  drive := x.dev.toNat % 2
  sector := lba (x.blockno.toNat * (bsize / sectorSize))
  write := if x.dirty then some x.data else none

/-- `idestart`; `none` when it panics, or when `idewait` finds the controller at work. -/
def idestart (x : Buf δ) : Device δ → Option (Device δ)
  | .ready => if x.blockno.toNat < fssize then some (.busy (command x)) else none
  | _ => none

end

/-! ### `ide.c` -/

structure State (β δ : Type) where
  buf : β → Buf δ
  /-- Who holds the lock of a buffer. -/
  holder : β → Option Nat
  /-- `idequeue` and the fields `qnext`. -/
  queue : LinkedQueue β
  device : Device δ
  /-- What is on the drives. -/
  disk : Nat → Nat → δ
  havedisk1 : Bool
  /-- The processes that sleep in `iderw`, with the buffer and the number of the request. -/
  call : Nat → Option (β × Nat)
  /-- History: the requests as they came, and the commands that the disk has carried out. -/
  arrived : List (β × Cmd δ)
  executed : List (Cmd δ)

inductive Act (β δ : Type) where
  | acquiresleep (p : Nat) (b : β)
  | releasesleep (p : Nat) (b : β)
  /-- A buffer is changed outside the driver. -/
  | set (b : β) (x : Buf δ)
  /-- `iderw` up to its first `sleep`. -/
  | iderw (p : Nat) (b : β)
  /-- The disk carries the command out. After a write, `junk` is at the data register. -/
  | complete (junk : δ)
  | ideintr
  /-- A process goes on after `sleep`. -/
  | wake (p : Nat)

namespace State

variable {β δ : Type} [DecidableEq β]

def init (buf : β → Buf δ) (disk : Nat → Nat → δ) : State β δ where
  buf := buf
  holder _ := none
  queue := ⟨none, fun _ => none⟩
  device := .ready
  disk := disk
  havedisk1 := true
  call _ := none
  arrived := []
  executed := []

def free (s : State β δ) (b : β) : Bool := (s.holder b).all fun p => (s.call p).isNone

def start (s : State β δ) (b : β) : Option (State β δ) :=
  (idestart (s.buf b) s.device).map fun d => { s with device := d }

def iderw [Fintype β] (s : State β δ) (p : Nat) (b : β) : Option (State β δ) :=
  let x := s.buf b
  if s.holder b ≠ some p then none
  else if x.synced then none
  else if x.dev ≠ 0 ∧ !s.havedisk1 then none
  else
    (s.queue.push (Fintype.card β) b).bind fun q =>
      let s := { s with
        queue := q
        call := update s.call p (some (b, s.arrived.length))
        arrived := s.arrived ++ [(b, command x)] }
      if q.head = some b then s.start b else some s

/-- The disk carries out the command that it has been given. -/
def complete (s : State β δ) (junk : δ) : Option (State β δ) :=
  match s.device with
  | .busy c =>
    let port := match c.write with
      | some _ => junk
      | none => s.disk c.drive c.sector
    some { s with
      disk := update s.disk c.drive (c.apply (s.disk c.drive))
      device := .done c port
      executed := s.executed ++ [c] }
  | _ => none

def handle (s : State β δ) (port : δ) : Option (State β δ) :=
  match s.queue.head with
  | none => some s
  | some b =>
    let q := s.queue.pop b
    let s := { s with queue := q, buf := update s.buf b ((s.buf b).receive port) }
    match q.head with
    | none => some s
    | some next => s.start next

def ideintr (s : State β δ) : Option (State β δ) :=
  match s.device with
  | .done _ port => handle { s with device := .ready } port
  | _ => none

def wake (s : State β δ) (p : Nat) : Option (State β δ) :=
  (s.call p).map fun (b, _) =>
    if (s.buf b).synced then { s with call := update s.call p none } else s

def step [Fintype β] (s : State β δ) : Act β δ → Option (State β δ)
  | .acquiresleep p b =>
    if s.holder b = none ∧ s.call p = none then
      some { s with holder := update s.holder b (some p) }
    else none
  | .releasesleep p b =>
    if s.holder b = some p ∧ s.call p = none then
      some { s with holder := update s.holder b none }
    else none
  | .set b x => if s.free b then some { s with buf := update s.buf b x } else none
  | .iderw p b => if s.call p = none then s.iderw p b else none
  | .complete junk => s.complete junk
  | .ideintr => s.ideintr
  | .wake p => s.wake p

/-- Requests are for device 1 and blocks of the file system. -/
def Proper (s : State β δ) : Act β δ → Prop
  | .iderw _ b => (s.buf b).dev = 1 ∧ (s.buf b).blockno.toNat < fssize
  | _ => True

instance (s : State β δ) : ∀ a, Decidable (s.Proper a)
  | .iderw _ b => inferInstanceAs (Decidable ((s.buf b).dev = 1 ∧ (s.buf b).blockno.toNat < fssize))
  | .acquiresleep .. | .releasesleep .. | .set .. | .complete _ | .ideintr | .wake _ =>
    inferInstanceAs (Decidable True)

end State

/-! ### `memide.c` -/

structure Mem (β δ : Type) where
  buf : β → Buf δ
  /-- The blocks at `memdisk`. -/
  memdisk : Nat → δ
  /-- History: the buffers of the calls as they were left. -/
  done : List (β × Buf δ)

inductive MemAct (β δ : Type) where
  | set (b : β) (x : Buf δ)
  | iderw (b : β)

namespace Mem

variable {β δ : Type} [DecidableEq β]

/-- The copy that `iderw` makes: the disk and the buffer after it. -/
def transfer (x : Buf δ) (disk : Nat → δ) : Buf δ × (Nat → δ) :=
  let (x, disk) :=
    if x.dirty then ({ x with dirty := false }, update disk x.blockno.toNat x.data)
    else ({ x with data := disk x.blockno.toNat }, disk)
  ({ x with valid := true }, disk)

/-- `iderw` on a disk of `FSSIZE` blocks; `none` when it panics. -/
def iderw (m : Mem β δ) (b : β) : Option (Mem β δ) :=
  let x := m.buf b
  if x.synced then none
  else if x.dev ≠ 1 then none
  else if x.blockno.toNat ≥ fssize then none
  else
    let (x, disk) := transfer x m.memdisk
    some { buf := update m.buf b x, memdisk := disk, done := m.done ++ [(b, x)] }

def step (m : Mem β δ) : MemAct β δ → Option (Mem β δ)
  | .set b x => some { m with buf := update m.buf b x }
  | .iderw b => m.iderw b

end Mem

end Xv6.Ide
