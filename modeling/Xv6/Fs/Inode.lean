import Xv6.Lib.Prog
import Xv6.Param

/-!
# The inode layer's operations

The file-system calls are written once, as programs over the operations below, and given several
meanings: one copy of every inode with its directory entries (`Xv6.Fs.OneCopy`), the same under
interleaving, and the bytes of a disk (`Xv6.Disk`). Each operation is one critical section of the
source, or a piece of code that runs with the inode's sleep-lock held and contains no lock step.

There is one device, so an inode pointer is identified with the inode number it caches.
-/

namespace Xv6.Fs

abbrev Inum := Nat

/-- A path component: the bytes before the first NUL, at most `dirsiz` of them. -/
abbrev Name := List UInt8

abbrev Path := List UInt8

/-- The `type` field of an inode: `0`, `T_DIR`, `T_FILE`, `T_DEV`, or a value on the disk that the
kernel gives to no inode. -/
inductive FileType where
  | free
  | dir
  | file
  | dev
  | other
  deriving DecidableEq, Repr

structure Dirent where
  inum : Inum
  name : Name
  deriving DecidableEq, Repr

/-- The two callers of `acquiresleep` on an inode. -/
inductive LockSite where
  | ilock
  | iput
  deriving DecidableEq, Repr

structure InodeFields where
  valid : Bool
  type : FileType
  nlink : Int
  size : Nat
  deriving DecidableEq, Repr

/-- The fields of a `struct file` of type `FD_INODE`; `ip` is `none` for `FD_NONE`. -/
structure FileFields where
  ip : Option Inum
  off : Nat
  readable : Bool
  writable : Bool
  deriving DecidableEq, Repr

/-- What the `ftable.lock` section of `fileclose` found: no reference to drop, others left, or the
last one, with the copy taken of the structure. -/
inductive Dropped where
  | bad
  | kept
  | last (ff : FileFields)
  deriving DecidableEq, Repr

inductive Panic where
  | igetNoInodes
  | ilock
  | iunlock
  | ilockNoType
  | iallocNoInodes
  | dirlookupNotDir
  | dirlookupRead
  | dirlinkRead
  | dirlink
  | isdiremptyReadi
  | unlinkNlink
  | unlinkWritei
  | createDots
  | createDirlink
  | fileclose
  | filewrite
  | shortFilewrite
  deriving DecidableEq, Repr

inductive Op where
  /-- `begin_op` and `end_op`. -/
  | beginOp
  | endOp
  /-- `myproc()->cwd`. -/
  | cwd
  | setCwd (ip : Option Inum)
  /-- The `icache.lock` section of `iget`; the answer is `false` when no entry is free. -/
  | igetEntry (inum : Inum)
  | idup (ip : Inum)
  /-- `acquiresleep`: the first test of `locked`, then sleeping until it is clear. -/
  | tryLock (site : LockSite) (ip : Inum)
  | waitLock (ip : Inum)
  /-- `releasesleep`. -/
  | unlock (ip : Inum)
  | holdingsleep (ip : Inum)
  /-- The body of `ilock` after `acquiresleep`; the answer is the type found. -/
  | load (ip : Inum)
  | fields (ip : Inum)
  /-- Reading `ref`, and `ip->ref--`. -/
  | ref (ip : Inum)
  | decRef (ip : Inum)
  /-- The branch of `iput` that truncates and frees. -/
  | ifree (ip : Inum)
  /-- The scan and update of `ialloc`, before its `iget`. -/
  | iallocEntry (type : FileType)
  /-- `ip->major = ..; ip->minor = ..; ip->nlink = 1; iupdate(ip)`. -/
  | initInode (ip : Inum) (major minor : Int)
  /-- `ip->nlink += d; iupdate(ip)`. -/
  | addNlink (ip : Inum) (d : Int)
  /-- `readi` and `writei` of one directory entry: no entry, or `false`, for a short transfer. -/
  | readDirent (ip : Inum) (off : Nat)
  | writeDirent (ip : Inum) (off : Nat) (de : Dirent)
  | writei (ip : Inum) (off : Nat) (src : List UInt8)
  /-- The reads of `exec` from the program file; the answer is whether it could be loaded. -/
  | readProgram (ip : Inum)
  | filealloc
  | fdalloc (f : Nat)
  /-- `argfd`: the open file that a descriptor names. -/
  | argfd (fd : Nat)
  | clearFd (fd : Nat)
  | file (f : Nat)
  | fileInit (f : Nat) (ip : Inum) (readable writable : Bool)
  /-- The `ftable.lock` section of `fileclose`. -/
  | fileDrop (f : Nat)
  | addOff (f : Nat) (r : Nat)
  | panic (msg : Panic)
  deriving DecidableEq

@[reducible]
def Op.Res : Op → Type
  | .cwd => Inum
  | .igetEntry _ => Bool
  | .tryLock _ _ => Bool
  | .holdingsleep _ => Bool
  | .load _ => FileType
  | .fields _ => InodeFields
  | .ref _ => Nat
  | .iallocEntry _ => Option Inum
  | .readDirent _ _ => Option Dirent
  | .writeDirent _ _ _ => Bool
  | .writei _ _ _ => Int
  | .readProgram _ => Bool
  | .filealloc => Option Nat
  | .fdalloc _ => Option Nat
  | .argfd _ => Option Nat
  | .file _ => FileFields
  | .fileDrop _ => Dropped
  | .panic _ => Empty
  | _ => Unit

abbrev FsM := Prog Op Op.Res

abbrev atomic (o : Op) : FsM o.Res := Prog.perform o

def beginOp : FsM Unit := atomic .beginOp
def endOp : FsM Unit := atomic .endOp
def cwd : FsM Inum := atomic .cwd
def setCwd (ip : Option Inum) : FsM Unit := atomic (.setCwd ip)
def idup (ip : Inum) : FsM Unit := atomic (.idup ip)
def fields (ip : Inum) : FsM InodeFields := atomic (.fields ip)
def initInode (ip : Inum) (major minor : Int) : FsM Unit := atomic (.initInode ip major minor)
def addNlink (ip : Inum) (d : Int) : FsM Unit := atomic (.addNlink ip d)
def readDirent (ip : Inum) (off : Nat) : FsM (Option Dirent) := atomic (.readDirent ip off)
def writeDirent (ip : Inum) (off : Nat) (de : Dirent) : FsM Bool :=
  atomic (.writeDirent ip off de)
def writei (ip : Inum) (off : Nat) (src : List UInt8) : FsM Int := atomic (.writei ip off src)
def readProgram (ip : Inum) : FsM Bool := atomic (.readProgram ip)
def filealloc : FsM (Option Nat) := atomic .filealloc
def fdalloc (f : Nat) : FsM (Option Nat) := atomic (.fdalloc f)
def argfd (fd : Nat) : FsM (Option Nat) := atomic (.argfd fd)
def clearFd (fd : Nat) : FsM Unit := atomic (.clearFd fd)
def file (f : Nat) : FsM FileFields := atomic (.file f)
def fileInit (f : Nat) (ip : Inum) (readable writable : Bool) : FsM Unit :=
  atomic (.fileInit f ip readable writable)
def addOff (f : Nat) (r : Nat) : FsM Unit := atomic (.addOff f r)
def panic {α : Type} (msg : Panic) : FsM α := .op (.panic msg) Empty.elim

def iget (inum : Inum) : FsM Unit := do
  if ← atomic (.igetEntry inum) then
    pure ()
  else
    panic .igetNoInodes

def acquiresleep (site : LockSite) (ip : Inum) : FsM Unit := do
  if ← atomic (.tryLock site ip) then
    pure ()
  else
    atomic (.waitLock ip)

def releasesleep (ip : Inum) : FsM Unit := atomic (.unlock ip)

def ilock (ip : Inum) : FsM Unit := do
  let r ← atomic (.ref ip)
  if r < 1 then
    panic .ilock
  else
    acquiresleep .ilock ip
    let type ← atomic (.load ip)
    if type = .free then
      panic .ilockNoType

def iunlock (ip : Inum) : FsM Unit := do
  if ← atomic (.holdingsleep ip) then
    let r ← atomic (.ref ip)
    if r < 1 then
      panic .iunlock
    else
      releasesleep ip
  else
    panic .iunlock

/-- Drop a reference. The test of `ref` and the decrement are two critical sections, the second
after the inode lock has been released. -/
def iput (ip : Inum) : FsM Unit := do
  acquiresleep .iput ip
  let f ← fields ip
  if f.valid ∧ f.nlink = 0 then
    let r ← atomic (.ref ip)
    if r = 1 then
      atomic (.ifree ip)
  releasesleep ip
  atomic (.decRef ip)

def iunlockput (ip : Inum) : FsM Unit := do
  iunlock ip
  iput ip

def ialloc (type : FileType) : FsM Inum := do
  match ← atomic (.iallocEntry type) with
  | none => panic .iallocNoInodes
  | some inum =>
    iget inum
    pure inum

end Xv6.Fs
