import Xv6.Lib.Pool
import Xv6.Param
import Mathlib.Data.List.FinRange

/-!
# Open files

The file table of `file.c`, the descriptor tables of the processes, the two ends of a pipe, and the
calls that create and drop references. A section under `ftable.lock` or `p->lock` is one operation, and
so is an access to a descriptor table or to a file that a call has not published yet. What the inode
layer, `kalloc` and `copyuvm` answer is a choice of the run.
-/

namespace Xv6.OpenFile

open Function (update)

abbrev FileId := Fin nfile

abbrev Fd := Fin nofile

abbrev Slot := Fin nproc

abbrev Page := Nat

inductive FileType where
  | fdNone
  | fdPipe
  | fdInode
  deriving DecidableEq

structure File where
  type : FileType
  ref : Nat
  readable : Bool
  writable : Bool
  pipe : Page
  deriving DecidableEq

structure Pipe where
  readopen : Bool
  writeopen : Bool
  deriving DecidableEq

namespace Pipe

def isOpen (p : Pipe) (writable : Bool) : Bool := if writable then p.writeopen else p.readopen

def close (p : Pipe) (writable : Bool) : Pipe :=
  if writable then { p with writeopen := false } else { p with readopen := false }

end Pipe

inductive ProcState where
  | unused
  | embryo
  /-- Sleeping, runnable or running. -/
  | live
  | zombie
  deriving DecidableEq

structure State where
  file : FileId → File
  ofile : Slot → Fd → Option FileId
  proc : Slot → ProcState
  pid : Slot → Nat
  nextpid : Nat
  /-- The pages as `struct pipe`. -/
  pipe : Page → Pipe
  /-- How often a page has been allocated for a pipe, and freed. -/
  kallocs : Page → Nat
  kfrees : Page → Nat

inductive Content where
  | pipe (p : Page) (writable : Bool)
  | inode (readable writable : Bool)

def Content.apply : Content → File → File
  | .pipe p writable, f =>
    { f with type := .fdPipe, readable := !writable, writable := writable, pipe := p }
  | .inode readable writable, f =>
    { f with type := .fdInode, readable := readable, writable := writable }

inductive Op where
  | filealloc
  | filedup (f : FileId)
  /-- `fileclose` up to `release`: it answers the copy `ff` if this was the last reference. -/
  | fileclose (f : FileId)
  | setFile (f : FileId) (c : Content)
  /-- `ofile[fd]`. -/
  | getOfile (fd : Fd)
  | clearOfile (fd : Fd)
  | fdalloc (f : FileId)
  | kalloc
  | kfree (p : Page)
  | pipeinit (p : Page)
  /-- `pipeclose` up to `release`: are both ends closed? -/
  | pipeclose (p : Page) (writable : Bool)
  /-- `allocproc` up to `release`. -/
  | allocproc
  /-- Does `kalloc` find a page for the kernel stack? -/
  | kstack
  | copyuvm
  /-- `np->state = UNUSED`. -/
  | abortproc (np : Slot)
  | setChild (np : Slot) (fd : Fd) (f : FileId)
  /-- `np->state = RUNNABLE`. -/
  | ready (np : Slot)
  | zombie
  /-- `wait` and `thread_join` free the entry of a zombie. -/
  | reap (q : Slot)
  /-- Does `namei` or `create` find an inode that may be opened? -/
  | namei
  /-- Back to user mode. -/
  | ret (v : Int)

abbrev Op.Res : Op → Type
  | .filealloc => Option FileId
  | .fileclose _ => Option File
  | .getOfile _ => Option FileId
  | .fdalloc _ => Option Fd
  | .kalloc => Option Page
  | .pipeclose _ _ => Bool
  | .allocproc => Option (Slot × Nat)
  | .kstack => Bool
  | .copyuvm => Bool
  | .reap _ => Nat
  | .namei => Bool
  | _ => Unit

structure Choice where
  ok : Bool
  page : Option Page
  /-- What a new page holds. -/
  junk : Pipe

namespace State

def setFile (s : State) (f : FileId) (x : File) : State := { s with file := update s.file f x }

def setOfile (s : State) (p : Slot) (fd : Fd) (x : Option FileId) : State :=
  { s with ofile := update s.ofile p (update (s.ofile p) fd x) }

def setProc (s : State) (p : Slot) (x : ProcState) : State := { s with proc := update s.proc p x }

def setPipe (s : State) (p : Page) (x : Pipe) : State := { s with pipe := update s.pipe p x }

def IsFree (s : State) (p : Page) : Prop := s.kallocs p = s.kfrees p

instance (s : State) (p : Page) : Decidable (s.IsFree p) :=
  inferInstanceAs (Decidable (s.kallocs p = s.kfrees p))

def firstFile (s : State) : Option FileId := (List.finRange nfile).find? fun f => (s.file f).ref = 0

def firstFd (s : State) (p : Slot) : Option Fd := (List.finRange nofile).find? fun fd => s.ofile p fd = none

def firstProc (s : State) : Option Slot := (List.finRange nproc).find? fun p => s.proc p = .unused

def takePage (s : State) (p : Page) (junk : Pipe) : State :=
  { s.setPipe p junk with kallocs := update s.kallocs p (s.kallocs p + 1) }

def freePage (s : State) (p : Page) : State :=
  { s with kfrees := update s.kfrees p (s.kfrees p + 1) }

def embryo (s : State) (np : Slot) : State :=
  { s.setProc np .embryo with pid := update s.pid np s.nextpid, nextpid := s.nextpid + 1 }

def init : State where
  file := fun _ => { type := .fdNone, ref := 0, readable := false, writable := false, pipe := 0 }
  ofile := fun _ _ => none
  proc := fun p => if p.val = 0 then .live else .unused
  pid := fun p => if p.val = 0 then 1 else 0
  nextpid := 2
  pipe := fun _ => { readopen := false, writeopen := false }
  kallocs := fun _ => 0
  kfrees := fun _ => 0

end State

/-- An operation of the process `p`, which has to be live. `none`: the kernel panics, or the choice does
not fit. -/
def exec (ch : Choice) (p : Slot) (o : Op) (s : State) : Option (o.Res × State) :=
  if s.proc p = .live then
    match o with
    | .filealloc =>
      match s.firstFile with
      | some f => some (some f, s.setFile f { s.file f with ref := 1 })
      | none => some (none, s)
    | .filedup f =>
      if (s.file f).ref < 1 then none
      else some ((), s.setFile f { s.file f with ref := (s.file f).ref + 1 })
    | .fileclose f =>
      if (s.file f).ref < 1 then none
      else if 0 < (s.file f).ref - 1 then
        some (none, s.setFile f { s.file f with ref := (s.file f).ref - 1 })
      else some (some (s.file f), s.setFile f { s.file f with ref := 0, type := .fdNone })
    | .setFile f c => some ((), s.setFile f (c.apply (s.file f)))
    | .getOfile fd => some (s.ofile p fd, s)
    | .clearOfile fd => some ((), s.setOfile p fd none)
    | .fdalloc f =>
      match s.firstFd p with
      | some fd => some (some fd, s.setOfile p fd (some f))
      | none => some (none, s)
    | .kalloc =>
      match ch.page with
      | none => some (none, s)
      | some q => if s.IsFree q then some (some q, s.takePage q ch.junk) else none
    | .kfree q => some ((), s.freePage q)
    | .pipeinit q => some ((), s.setPipe q { readopen := true, writeopen := true })
    | .pipeclose q writable =>
      let x := (s.pipe q).close writable
      some (!x.readopen && !x.writeopen, s.setPipe q x)
    | .allocproc =>
      match s.firstProc with
      | some np => some (some (np, s.nextpid), s.embryo np)
      | none => some (none, s)
    | .kstack => some (ch.ok, s)
    | .copyuvm => some (ch.ok, s)
    | .abortproc np => some ((), s.setProc np .unused)
    | .setChild np fd f => some ((), s.setOfile np fd (some f))
    | .ready np => some ((), s.setProc np .live)
    | .zombie => some ((), s.setProc p .zombie)
    | .reap q =>
      if s.proc q = .zombie then
        some (s.pid q, { s.setProc q .unused with pid := update s.pid q 0 })
      else none
    | .namei => some (ch.ok, s)
    | .ret _ => some ((), s)
  else none

def sem : Sem Slot Op Op.Res State := fun p o s r s' => ∃ ch, exec ch p o s = some (r, s')

def Panics (s : State) : Op → Prop
  | .filedup f | .fileclose f => (s.file f).ref < 1
  | _ => False

/-! ### The system calls -/

abbrev Kernel := Prog Op Op.Res

abbrev atomic (o : Op) : Kernel o.Res := Prog.perform o

def pipeclose (p : Page) (writable : Bool) : Kernel Unit := do
  let closed ← atomic (.pipeclose p writable)
  if closed then atomic (.kfree p) else pure ()

def fileclose (f : FileId) : Kernel Unit := do
  match ← atomic (.fileclose f) with
  | none => pure ()
  | some ff => if ff.type = .fdPipe then pipeclose ff.pipe ff.writable else pure ()

/-- In none of the failures is there a page to free yet. -/
def pipealloc : Kernel (Option (FileId × FileId)) := do
  match ← atomic .filealloc with
  | none => pure none
  | some f0 =>
    match ← atomic .filealloc with
    | none =>
      fileclose f0
      pure none
    | some f1 =>
      match ← atomic .kalloc with
      | none =>
        fileclose f0
        fileclose f1
        pure none
      | some p =>
        atomic (.pipeinit p)
        atomic (.setFile f0 (.pipe p false))
        atomic (.setFile f1 (.pipe p true))
        pure (some (f0, f1))

def argfd (fd : Int) : Kernel (Option (Fd × FileId)) :=
  if h : 0 ≤ fd ∧ fd < nofile then do
    let i : Fd := ⟨fd.toNat, by omega⟩
    match ← atomic (.getOfile i) with
    | none => pure none
    | some f => pure (some (i, f))
  else
    pure none

def sysDup (fd : Int) : Kernel Int := do
  match ← argfd fd with
  | none => pure (-1)
  | some (_, f) =>
    match ← atomic (.fdalloc f) with
    | none => pure (-1)
    | some fd' =>
      atomic (.filedup f)
      pure fd'.val

def sysClose (fd : Int) : Kernel Int := do
  match ← argfd fd with
  | none => pure (-1)
  | some (i, f) =>
    atomic (.clearOfile i)
    fileclose f
    pure 0

def oWronly : UInt32 := 1

def oRdwr : UInt32 := 2

/-- `sys_open` from the lookup on. -/
def sysOpen (omode : UInt32) : Kernel Int := do
  if ← atomic .namei then
    match ← atomic .filealloc with
    | none => pure (-1)
    | some f =>
      match ← atomic (.fdalloc f) with
      | none =>
        fileclose f
        pure (-1)
      | some fd =>
        let readable : Bool := omode &&& oWronly = 0
        let writable : Bool := omode &&& oWronly ≠ 0 ∨ omode &&& oRdwr ≠ 0
        atomic (.setFile f (.inode readable writable))
        pure fd.val
  else
    pure (-1)

def sysPipe : Kernel Int := do
  match ← pipealloc with
  | none => pure (-1)
  | some (rf, wf) =>
    match ← atomic (.fdalloc rf) with
    | none =>
      fileclose rf
      fileclose wf
      pure (-1)
    | some fd0 =>
      match ← atomic (.fdalloc wf) with
      | none =>
        atomic (.clearOfile fd0)
        fileclose rf
        fileclose wf
        pure (-1)
      | some _ => pure 0

def allocproc : Kernel (Option (Slot × Nat)) := do
  match ← atomic .allocproc with
  | none => pure none
  | some (np, pid) =>
    if ← atomic .kstack then
      pure (some (np, pid))
    else
      atomic (.abortproc np)
      pure none

/-- `np->ofile[i] = filedup(curproc->ofile[i])`. -/
def dupChild (np : Slot) (fd : Fd) : Kernel Unit := do
  match ← atomic (.getOfile fd) with
  | none => pure ()
  | some f =>
    atomic (.filedup f)
    atomic (.setChild np fd f)

/-- The end of `fork` and of `thread_create`. -/
def start (np : Slot) (pid : Nat) : Kernel Int := do
  Prog.forFin nofile (dupChild np)
  atomic (.ready np)
  pure pid

def fork : Kernel Int := do
  match ← allocproc with
  | none => pure (-1)
  | some (np, pid) =>
    if ← atomic .copyuvm then
      start np pid
    else
      atomic (.abortproc np)
      pure (-1)

def threadCreate (stack : UInt32) : Kernel Int :=
  if stack = 0 then pure (-1)
  else do
    match ← allocproc with
    | none => pure (-1)
    | some (np, pid) => start np pid

def closeFd (fd : Fd) : Kernel Unit := do
  match ← atomic (.getOfile fd) with
  | none => pure ()
  | some f =>
    fileclose f
    atomic (.clearOfile fd)

/-- `exit` and `thread_exit` do the same here. -/
def exit : Kernel Unit := do
  Prog.forFin nofile closeFd
  atomic .zombie

inductive Call where
  | open (omode : UInt32)
  | dup (fd : Int)
  | close (fd : Int)
  | pipe
  | fork
  | threadCreate (stack : UInt32)
  | exit
  | threadExit
  /-- `wait` or `thread_join` that finds the zombie `q`. -/
  | wait (q : Slot)

def returning (body : Kernel Int) : Kernel Int := do
  let v ← body
  atomic (.ret v)
  pure v

def syscall : Call → Kernel Int
  | .open omode => returning (sysOpen omode)
  | .dup fd => returning (sysDup fd)
  | .close fd => returning (sysClose fd)
  | .pipe => returning sysPipe
  | .fork => returning fork
  | .threadCreate stack => returning (threadCreate stack)
  | .exit | .threadExit => do
      exit
      pure 0
  | .wait q => returning do
      let pid ← atomic (.reap q)
      pure (pid : Int)

def starts (p : Slot) (s : State) (x : Kernel Int) : Prop := s.proc p = .live ∧ ∃ call, x = syscall call

abbrev System := Pool Slot Op Op.Res Int State

def System.init : System := ⟨fun _ => .pure 0, .init⟩

def System.Quiet (c : System) : Prop := ∀ p, ∃ v, c.thread p = .pure v

end Xv6.OpenFile
