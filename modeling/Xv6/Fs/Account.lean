import Xv6.Fs.LockOrder

/-!
# What a call holds

The calls that take a path, and `exec`, with their arguments as `argstr` and `argint` deliver them or
refuse them. To the locks and references of `Hold` a process adds the transactions it is in and the open
files it has set up; `Settles` says which of all these a call may leave.
-/

namespace Xv6.Fs

/-! ### `exec` -/

/-- What the tests of `exec` on the program file and on memory come to. -/
structure ExecTests where
  /-- The header is there, and its magic number. -/
  header : Bool
  setupkvm : Bool
  /-- For each program header, whether none of its tests goes to `bad`. -/
  phdrs : List Bool
  /-- The two pages of `allocuvm`. -/
  stack : Bool
  /-- For each argument, that it is not one too many and `copyout` has a place for it. -/
  args : List Bool
  ustack : Bool

/-- The label `bad` of `exec`, without the pages that it frees. -/
def execBad : Option Inum → FsM Int
  | none => pure (-1)
  | some ip => do
      iunlockput ip
      endOp
      pure (-1)

/-- After `ip = 0`. -/
def execStack (t : ExecTests) : FsM Int :=
  if t.stack = false then
    execBad none
  else if t.args.all id = false then
    execBad none
  else if t.ustack = false then
    execBad none
  else
    pure 0

def exec (t : ExecTests) (path : Path) : FsM Int := do
  beginOp
  match ← namei path with
  | none => do
      endOp
      pure (-1)
  | some ip => do
      ilock ip
      if t.header = false then
        execBad (some ip)
      else if t.setupkvm = false then
        execBad (some ip)
      else if t.phdrs.all id = false then
        execBad (some ip)
      else do
        iunlockput ip
        endOp
        execStack t

/-! ### Requests -/

inductive Request where
  | open (args : Option (Path × UInt32))
  | link (args : Option (Path × Path))
  | unlink (path : Option Path)
  | mkdir (path : Option Path)
  | mknod (args : Option (Path × Int × Int))
  | chdir (path : Option Path)
  | exec (t : ExecTests) (path : Path)
  | namei (path : Path)
  | nameiparent (path : Path)

inductive Reply where
  | int (r : Int)
  | inode (r : Option Inum)
  deriving DecidableEq

/-- `begin_op` comes before the arguments. -/
def refusedInOp : FsM Int := do
  beginOp
  endOp
  pure (-1)

/-- `if (argstr(..) < 0 || ..) return -1`. -/
def refused : FsM Int := pure (-1)

def intReply (x : FsM Int) : FsM Reply := do
  let r ← x
  pure (.int r)

def Request.prog : Request → FsM Reply
  | .open (some (path, omode)) => intReply (sysOpen path omode)
  | .open none => intReply refused
  | .link (some (old, new)) => intReply (sysLink old new)
  | .link none => intReply refused
  | .unlink (some path) => intReply (sysUnlink path)
  | .unlink none => intReply refused
  | .mkdir (some path) => intReply (sysMkdir path)
  | .mkdir none => intReply refusedInOp
  | .mknod (some (path, major, minor)) => intReply (sysMknod path major minor)
  | .mknod none => intReply refusedInOp
  | .chdir (some path) => intReply (sysChdir path)
  | .chdir none => intReply refusedInOp
  | .exec t path => intReply (Fs.exec t path)
  | .namei path => do
      let r ← Fs.namei path
      pure (.inode r)
  | .nameiparent path => do
      let r ← Fs.nameiparent path
      pure (.inode (r.map Prod.fst))

/-! ### What a process has and knows -/

/-- Between two calls a process holds no lock, has set up every file, and references its current
directory. -/
structure Hold.Idle (l : Hold) : Prop where
  held : l.held = []
  files : l.files = ∅
  cwd : ∀ c, l.cwd = some c → c ∈ l.refs

structure Account extends Hold where
  /-- Calls of `begin_op` that have not been matched. -/
  ops : Nat
  /-- The open files that the process has set up, with the inodes it has put in them. -/
  opened : List (Nat × Inum)

namespace Account

def pre (o : Op) (t : Account) : Prop :=
  Hold.pre o t.toHold ∧
    match o with
    | .beginOp => t.ops = 0
    | .endOp => t.ops = 1
    | _ => True

def next (o : Op) (t : Account) (r : o.Res) : Account :=
  { Hold.next o t.toHold r with
    ops := match o with
      | .beginOp => t.ops + 1
      | .endOp => t.ops - 1
      | _ => t.ops
    opened := match o with
      | .fileInit f ip _ _ => (f, ip) :: t.opened
      | _ => t.opened }

structure Rest (t : Account) : Prop where
  idle : t.Idle
  ops : t.ops = 0

structure Same (t t' : Account) : Prop where
  held : t'.held = t.held
  refs : t'.refs = t.refs
  cwd : t'.cwd = t.cwd
  files : t'.files = t.files
  ops : t'.ops = t.ops
  opened : t'.opened = t.opened

/-- One reference more. Nothing is known of an inode before there is one. -/
def take (t : Account) (ip : Inum) : Account :=
  { t with refs := ip ::ₘ t.refs, nondir := { i | i ∈ t.nondir ∧ i ∈ t.refs } }

def taken (t : Account) (r : Option Inum) : Account := r.elim t t.take

/-- How a request may end: with an open file and the reference in it, with another current directory,
with a reference to the inode it returns, or with what it had. -/
def Settles : Request → Account → Reply → Account → Prop
  | .open _, t, r, t' =>
    r = .int (-1) ∧ t.Same t' ∨ ∃ (fd : Nat) (f : Nat) (ip : Inum), r = .int fd ∧
        Same { t.take ip with opened := (f, ip) :: t.opened } t'
  | .chdir _, t, r, t' =>
    r = .int (-1) ∧ t.Same t' ∨ ∃ c ip, r = .int 0 ∧ t.cwd = some c ∧
        Same { t with cwd := some ip, refs := ip ::ₘ t.refs.erase c } t'
  | .namei _, t, r, t' => ∃ ip, r = .inode ip ∧ (t.taken ip).Same t'
  | .nameiparent _, t, r, t' => ∃ ip, r = .inode ip ∧ (t.taken ip).Same t'
  | _, t, _, t' => t.Same t'

end Account

def accountProtocol : Protocol Op Op.Res Account where
  pre := Account.pre
  res o t := Hold.res o t.toHold
  next := Account.next

end Xv6.Fs
