import Xv6.Disk.Format
import Xv6.Fs.OneCopy

/-!
# The calls on a disk

The meaning of the inode layer's operations on the bytes of a disk. The in-memory inodes are copies
of the fields on disk; reference counts, `valid` flags, locks and the process and file tables are
those of the one-copy model, whose own inodes play no part here.
-/

namespace Xv6.Disk

open Function (update)

open Fs (Inum Op FileType Dirent InodeFields)

structure State (n : Nat) where
  disk : Volume
  /-- The fields of the in-memory inodes; they mean something while the inode is `valid`. -/
  node : Inum → Dinode
  tables : Fs.State n

variable {n : Nat}

namespace State

/-- A change of the fields in memory followed by `iupdate`. -/
def iupdate (s : State n) (ip : Inum) (node : Dinode) : State n :=
  { s with disk := s.disk.iupdate ip node, node := update s.node ip node }

/-- An inode of type `0` is left alone: `ilock` panics on it. -/
def load (s : State n) (ip : Inum) : FileType × State n :=
  if s.tables.valid ip then
    (typeOf (s.node ip).type, s)
  else if (s.disk.dinode ip).type = 0 then
    (.free, s)
  else
    (typeOf (s.disk.dinode ip).type,
      { s with node := update s.node ip (s.disk.dinode ip)
               tables := s.tables.setValid ip true })

def fields (s : State n) (ip : Inum) : InodeFields where
  valid := s.tables.valid ip
  type := typeOf (s.node ip).type
  nlink := shortVal (s.node ip).nlink
  size := (s.node ip).size.toNat

def ifree (s : State n) (ip : Inum) : Except Trap (State n) := do
  let (node, disk) ← s.disk.itrunc ip (s.node ip)
  let node := { node with type := 0 }
  .ok { disk := disk.iupdate ip node
        node := update s.node ip node
        tables := s.tables.setValid ip false }

def iallocEntry (s : State n) (type : FileType) : Option Inum × State n :=
  match s.disk.ialloc (typeCode type) with
  | none => (none, s)
  | some (i, disk) => (some i, { s with disk := disk })

def readi (s : State n) (ip : Inum) (off len : Nat) : Except Trap (Option (List UInt8) × State n) := do
  let (bytes, node, disk) ← s.disk.readi (s.node ip) off len
  .ok (bytes, { s with disk := disk, node := update s.node ip node })

def writei (s : State n) (ip : Inum) (off : Nat) (src : List UInt8) : Except Trap (Int × State n) := do
  let (r, node, disk) ← s.disk.writei ip (s.node ip) off src
  .ok (r, { s with disk := disk, node := update s.node ip node })

def readDirent (s : State n) (ip : Inum) (off : Nat) : Except Trap (Option Dirent × State n) := do
  let (bytes, s) ← s.readi ip off direntSize
  .ok (bytes.bind fun bytes =>
    if bytes.length = direntSize then some (readEntry (Bytes.ofList bytes)) else none, s)

def writeDirent (s : State n) (ip : Inum) (off : Nat) (de : Dirent) : Except Trap (Bool × State n) := do
  let (r, s) ← s.writei ip off (direntBytes de)
  .ok (r == direntSize, s)

def readProgram (s : State n) (ip : Inum) : Except Trap (Bool × State n) := do
  let (bytes, s) ← s.readi ip 0 52
  .ok (bytes.any Fs.isProgram, s)

def onTables (p : Fin n) (o : Op) (s : State n) : Except Trap (o.Res × State n) :=
  match s.tables.exec p o with
  | none => .error .waits
  | some (r, tables) => .ok (r, { s with tables := tables })

def step (p : Fin n) : (o : Op) → State n → Except Trap (o.Res × State n)
  | .beginOp, s => .ok ((), { s with disk := { s.disk with logged := [] } })
  | .load ip, s => .ok (s.load ip)
  | .fields ip, s => .ok (s.fields ip, s)
  | .ifree ip, s => do
      let s ← s.ifree ip
      .ok ((), s)
  | .iallocEntry type, s => .ok (s.iallocEntry type)
  | .initInode ip major minor, s =>
    .ok ((), s.iupdate ip { s.node ip with major := short major, minor := short minor, nlink := 1 })
  | .addNlink ip v, s =>
    .ok ((), s.iupdate ip { s.node ip with nlink := (s.node ip).nlink + short v })
  | .readDirent ip off, s => s.readDirent ip off
  | .writeDirent ip off de, s => s.writeDirent ip off de
  | .writei ip off src, s => s.writei ip off src
  | .readProgram ip, s => s.readProgram ip
  | o, s => s.onTables p o

def exec (p : Fin n) : Exec Op Op.Res (State n) := fun o s => (s.step p o).toOption

end State

/-- The disk as the kernel finds it, with `n` processes whose current directory is the root. -/
def boot (n : Nat) (d : Volume) : State n where
  disk := d
  node := fun _ => .fresh 0
  tables :=
    { ninodes := d.sb.ninodes
      ino := fun _ => .fresh .free
      ref := fun i => if i = rootino then n else 0
      valid := fun _ => false
      lock := fun _ => none
      cwd := fun _ => some rootino
      ofile := fun _ _ => none
      file := fun _ =>
        { ref := 0, fields := { ip := none, off := 0, readable := false, writable := false } } }

inductive Calls (s₀ : State n) : State n → Prop
  | init : Calls s₀ s₀
  | call {s s' : State n} (p : Fin n) (call : Fs.Call) (r : Int) (hbefore : Calls s₀ s)
      (hrun : call.prog.run (State.exec p) s = .done r s') : Calls s₀ s'

end Xv6.Disk
