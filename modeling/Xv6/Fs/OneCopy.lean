import Xv6.Fs.Syscall
import Mathlib.Data.List.Basic

/-!
# One copy of every inode

The meaning of the inode layer's operations when the inode cache is write-through: an inode has one
set of fields, the cache adds its reference count, its `valid` flag and its sleep-lock. A directory
is the list of its entries, a `readi` or `writei` of `sizeof(de)` bytes at a multiple of
`direntSize` being one of them; another file is the list of its bytes.

The log is left out: `begin_op` can only delay a call. So is a full disk, where `balloc` panics.
-/

namespace Xv6.Fs

open Function (update)

structure Inode where
  type : FileType
  major : Int
  minor : Int
  nlink : Int
  dents : List Dirent
  data : List UInt8
  deriving DecidableEq, Repr

namespace Inode

def size (node : Inode) : Nat :=
  if node.type = .dir then direntSize * node.dents.length else node.data.length

def fresh (type : FileType) : Inode :=
  { type := type, major := 0, minor := 0, nlink := 0, dents := [], data := [] }

def freed (node : Inode) : Inode :=
  { node with type := .free, dents := [], data := [] }

end Inode

structure File where
  ref : Nat
  fields : FileFields
  deriving DecidableEq, Repr

structure State (n : Nat) where
  /-- `sb.ninodes`. -/
  ninodes : Nat
  ino : Inum → Inode
  ref : Inum → Nat
  valid : Inum → Bool
  lock : Inum → Option (Fin n)
  cwd : Fin n → Option Inum
  ofile : Fin n → Nat → Option Nat
  file : Nat → File

variable {n : Nat}

namespace State

def setIno (s : State n) (ip : Inum) (node : Inode) : State n :=
  { s with ino := update s.ino ip node }

def setRef (s : State n) (ip : Inum) (r : Nat) : State n :=
  { s with ref := update s.ref ip r }

def setValid (s : State n) (ip : Inum) (v : Bool) : State n :=
  { s with valid := update s.valid ip v }

def setLock (s : State n) (ip : Inum) (l : Option (Fin n)) : State n :=
  { s with lock := update s.lock ip l }

def setFile (s : State n) (f : Nat) (fl : File) : State n :=
  { s with file := update s.file f fl }

def setFd (s : State n) (p : Fin n) (fd : Nat) (f : Option Nat) : State n :=
  { s with ofile := update s.ofile p (update (s.ofile p) fd f) }

def active (s : State n) : Nat := (List.range s.ninodes).countP fun i => 0 < s.ref i

def freeInum (s : State n) : Option Inum :=
  (List.range s.ninodes).find? fun i => 1 ≤ i ∧ (s.ino i).type = .free

def freeFile (s : State n) : Option Nat := (List.range nfile).find? fun f => (s.file f).ref = 0

def freeFd (s : State n) (p : Fin n) : Option Nat :=
  (List.range nofile).find? fun fd => (s.ofile p fd).isNone

end State

/-- `writei` of one entry: overwrite a slot or append one. -/
def writeSlot (dents : List Dirent) (k : Nat) (de : Dirent) : Option (List Dirent) :=
  if k < dents.length then
    some (dents.set k de)
  else if k = dents.length ∧ direntSize * (k + 1) ≤ maxfile * bsize then
    some (dents ++ [de])
  else
    none

def overwrite (data : List UInt8) (off : Nat) (src : List UInt8) : List UInt8 :=
  data.take off ++ src ++ data.drop (off + src.length)

def isProgram (data : List UInt8) : Bool :=
  52 ≤ data.length && data.take 4 == [0x7f, 0x45, 0x4c, 0x46]

namespace State

def igetEntry (s : State n) (inum : Inum) : Bool × State n :=
  if 0 < s.ref inum then
    (true, s.setRef inum (s.ref inum + 1))
  else if s.active < ninode then
    (true, (s.setRef inum 1).setValid inum false)
  else
    (false, s)

def tryLock (s : State n) (p : Fin n) (ip : Inum) : Bool × State n :=
  match s.lock ip with
  | none => (true, s.setLock ip (some p))
  | some _ => (false, s)

/-- An inode of type `0` is left alone: `ilock` panics on it. -/
def load (s : State n) (ip : Inum) : FileType × State n :=
  if s.valid ip ∨ (s.ino ip).type = .free then
    ((s.ino ip).type, s)
  else
    ((s.ino ip).type, s.setValid ip true)

def fields (s : State n) (ip : Inum) : InodeFields :=
  { valid := s.valid ip, type := (s.ino ip).type, nlink := (s.ino ip).nlink,
    size := (s.ino ip).size }

def ifree (s : State n) (ip : Inum) : State n :=
  (s.setIno ip (s.ino ip).freed).setValid ip false

def iallocEntry (s : State n) (type : FileType) : Option Inum × State n :=
  match s.freeInum with
  | none => (none, s)
  | some i => (some i, s.setIno i (.fresh type))

def initInode (s : State n) (ip : Inum) (major minor : Int) : State n :=
  s.setIno ip { s.ino ip with major := major, minor := minor, nlink := 1 }

def addNlink (s : State n) (ip : Inum) (d : Int) : State n :=
  s.setIno ip { s.ino ip with nlink := (s.ino ip).nlink + d }

def writeDirent (s : State n) (ip : Inum) (off : Nat) (de : Dirent) : Bool × State n :=
  match writeSlot (s.ino ip).dents (off / direntSize) de with
  | none => (false, s)
  | some dents => (true, s.setIno ip { s.ino ip with dents := dents })

/-- `writei` on a device goes to `devsw`, where only the console writes. -/
def writei (s : State n) (ip : Inum) (off : Nat) (src : List UInt8) : Int × State n :=
  let node := s.ino ip
  if node.type = .dev then
    (if node.major = console then src.length else -1, s)
  else if node.size < off ∨ maxfile * bsize < off + src.length then
    (-1, s)
  else
    (src.length, s.setIno ip { node with data := overwrite node.data off src })

def filealloc (s : State n) : Option Nat × State n :=
  match s.freeFile with
  | none => (none, s)
  | some f => (some f, s.setFile f { s.file f with ref := 1 })

def fdalloc (s : State n) (p : Fin n) (f : Nat) : Option Nat × State n :=
  match s.freeFd p with
  | none => (none, s)
  | some fd => (some fd, s.setFd p fd (some f))

def fileInit (s : State n) (f : Nat) (ip : Inum) (readable writable : Bool) : State n :=
  s.setFile f { s.file f with
    fields := { ip := some ip, off := 0, readable := readable, writable := writable } }

def fileDrop (s : State n) (f : Nat) : Dropped × State n :=
  let fl := s.file f
  if fl.ref < 1 then
    (.bad, s)
  else if 1 < fl.ref then
    (.kept, s.setFile f { fl with ref := fl.ref - 1 })
  else
    (.last fl.fields, s.setFile f { ref := 0, fields := { fl.fields with ip := none } })

def addOff (s : State n) (f r : Nat) : State n :=
  s.setFile f { s.file f with fields := { (s.file f).fields with off := (s.file f).fields.off + r } }

/-- The operations of process `p`. `none` is a sleeping process or a panic. -/
def exec (p : Fin n) : Exec Op Op.Res (State n)
  | .beginOp, s => some ((), s)
  | .endOp, s => some ((), s)
  | .cwd, s => (s.cwd p).map fun ip => (ip, s)
  | .setCwd ip, s => some ((), { s with cwd := update s.cwd p ip })
  | .igetEntry inum, s => some (s.igetEntry inum)
  | .idup ip, s => some ((), s.setRef ip (s.ref ip + 1))
  | .tryLock _ ip, s => some (s.tryLock p ip)
  | .waitLock ip, s => if s.lock ip = none then some ((), s.setLock ip (some p)) else none
  | .unlock ip, s => some ((), s.setLock ip none)
  | .holdingsleep ip, s => some ((s.lock ip).isSome, s)
  | .load ip, s => some (s.load ip)
  | .fields ip, s => some (s.fields ip, s)
  | .ref ip, s => some (s.ref ip, s)
  | .decRef ip, s => some ((), s.setRef ip (s.ref ip - 1))
  | .ifree ip, s => some ((), s.ifree ip)
  | .iallocEntry type, s => some (s.iallocEntry type)
  | .initInode ip major minor, s => some ((), s.initInode ip major minor)
  | .addNlink ip d, s => some ((), s.addNlink ip d)
  | .readDirent ip off, s => some ((s.ino ip).dents[off / direntSize]?, s)
  | .writeDirent ip off de, s => some (s.writeDirent ip off de)
  -- bytes written over the entries of a directory have no meaning here, and never are
  | .writei ip off src, s => if (s.ino ip).type = .dir then none else some (s.writei ip off src)
  | .readProgram ip, s => some (isProgram (s.ino ip).data, s)
  | .filealloc, s => some s.filealloc
  | .fdalloc f, s => some (s.fdalloc p f)
  | .argfd fd, s => some (if fd < nofile then s.ofile p fd else none, s)
  | .clearFd fd, s => some ((), s.setFd p fd none)
  | .file f, s => some ((s.file f).fields, s)
  | .fileInit f ip readable writable, s => some ((), s.fileInit f ip readable writable)
  | .fileDrop f, s => some (s.fileDrop f)
  | .addOff f r, s => some ((), s.addOff f r)
  | .panic _, _ => none

end State

/-! ### The state that `mkfs` leaves -/

/-- An input file of `mkfs`: its name in the image and its bytes. -/
structure InputFile where
  name : Name
  data : List UInt8
  not_dot : ¬ IsDot name

structure Image where
  ninodes : Nat
  files : List InputFile
  fits : rootino + 1 + files.length ≤ ninodes

namespace Image

/-- The root directory: `.`, `..`, one entry a file, and empty entries up to the rounded size. -/
def rootDents (img : Image) : List Dirent :=
  let named := ⟨rootino, dot⟩ :: ⟨rootino, dotdot⟩ ::
    img.files.mapIdx fun k file => { inum := rootino + 1 + k, name := file.name }
  let perBlock := bsize / direntSize
  named ++ List.replicate ((named.length / perBlock + 1) * perBlock - named.length) ⟨0, []⟩

def ino (img : Image) (i : Inum) : Inode :=
  if i = rootino then
    { Inode.fresh .dir with nlink := 1, dents := img.rootDents }
  else if i < rootino + 1 then
    .fresh .free
  else
    match img.files[i - (rootino + 1)]? with
    | none => .fresh .free
    | some file => { Inode.fresh .file with nlink := 1, data := file.data }

/-- The file system after `mkfs`, with `n` processes whose current directory is the root. -/
def boot (n : Nat) (img : Image) : State n where
  ninodes := img.ninodes
  ino := img.ino
  ref := fun i => if i = rootino then n else 0
  valid := fun _ => false
  lock := fun _ => none
  cwd := fun _ => some rootino
  ofile := fun _ _ => none
  file := fun _ => { ref := 0, fields := { ip := none, off := 0, readable := false, writable := false } }

end Image

def emptyImage : Image where
  ninodes := 10
  files := []
  fits := by decide

def oneFile : Image where
  ninodes := 10
  files := [{ name := [102], data := [], not_dot := by decide }]
  fits := by decide

end Xv6.Fs
