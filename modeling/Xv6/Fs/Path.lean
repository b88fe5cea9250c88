import Xv6.Fs.Inode

/-!
# Directories and path names

`dirlookup`, `dirlink` and `namex` of `fs.c`. A loop over a directory runs with the directory
locked, so its bound `dp->size` is read once; a path is consumed by `skipelem`.
-/

namespace Xv6.Fs

def slash : UInt8 := 47

def dot : Name := [46]

def dotdot : Name := [46, 46]

def IsDot (name : Name) : Prop := name = dot ∨ name = dotdot

instance (name : Name) : Decidable (IsDot name) := inferInstanceAs (Decidable (_ ∨ _))

/-! ### Directory entries -/

/-- The number of iterations of `for (off = 0; off < size; off += sizeof(de))`. -/
def slots (size : Nat) : Nat := (size + direntSize - 1) / direntSize

def dirlookupFrom (dp : Inum) (name : Name) : Nat → Nat → FsM (Option (Inum × Nat))
  | 0, _ => pure none
  | n + 1, off => do
      match ← readDirent dp off with
      | none => panic .dirlookupRead
      | some de =>
        if de.inum = 0 then
          dirlookupFrom dp name n (off + direntSize)
        else if name = de.name then do
          iget de.inum
          pure (some (de.inum, off))
        else
          dirlookupFrom dp name n (off + direntSize)

def dirlookup (dp : Inum) (name : Name) : FsM (Option (Inum × Nat)) := do
  let f ← fields dp
  if f.type ≠ .dir then
    panic .dirlookupNotDir
  else
    dirlookupFrom dp name (slots f.size) 0

/-- The offset of the first empty entry, the size of the directory if there is none. -/
def emptyDirent (dp : Inum) : Nat → Nat → FsM Nat
  | 0, off => pure off
  | n + 1, off => do
      match ← readDirent dp off with
      | none => panic .dirlinkRead
      | some de =>
        if de.inum = 0 then
          pure off
        else
          emptyDirent dp n (off + direntSize)

def dirlink (dp : Inum) (name : Name) (inum : Inum) : FsM Bool := do
  match ← dirlookup dp name with
  | some (ip, _) => do
      iput ip
      pure false
  | none => do
      let f ← fields dp
      let off ← emptyDirent dp (slots f.size) 0
      if ← writeDirent dp off ⟨inum, name⟩ then
        pure true
      else
        panic .dirlink

def isdiremptyFrom (dp : Inum) : Nat → Nat → FsM Bool
  | 0, _ => pure true
  | n + 1, off => do
      match ← readDirent dp off with
      | none => panic .isdiremptyReadi
      | some de =>
        if de.inum ≠ 0 then
          pure false
        else
          isdiremptyFrom dp n (off + direntSize)

def isdirempty (dp : Inum) : FsM Bool := do
  let f ← fields dp
  isdiremptyFrom dp (slots (f.size - 2 * direntSize)) (2 * direntSize)

/-! ### Paths -/

/-- The next path element, cut to `dirsiz` bytes, and what follows it without leading slashes. -/
def skipelem (path : Path) : Option (Name × Path) :=
  let path := path.dropWhile (· == slash)
  if path.isEmpty then
    none
  else
    some ((path.takeWhile (· != slash)).take dirsiz, (path.dropWhile (· != slash)).dropWhile (· == slash))

def elemsFuel : Nat → Path → List Name
  | 0, _ => []
  | n + 1, path =>
    match skipelem path with
    | none => []
    | some (name, rest) => name :: elemsFuel n rest

/-- What the calls of `skipelem` in the loop of `namex` return, one after another. -/
def elems (path : Path) : List Name := elemsFuel path.length path

def namexEnd (parent : Bool) (ip : Inum) : FsM (Option (Inum × Name)) :=
  if parent then do
    iput ip
    pure none
  else
    pure (some (ip, []))

/-- The loop of `namex`. In the parent mode it stops before the last element. -/
def namexLoop (parent : Bool) : Nat → Path → Inum → FsM (Option (Inum × Name))
  | 0, _, ip => namexEnd parent ip
  | n + 1, path, ip =>
    match skipelem path with
    | none => namexEnd parent ip
    | some (name, path) => do
        ilock ip
        let f ← fields ip
        if f.type ≠ .dir then do
          iunlockput ip
          pure none
        else if parent ∧ path = [] then do
          iunlock ip
          pure (some (ip, name))
        else
          match ← dirlookup ip name with
          | none => do
              iunlockput ip
              pure none
          | some (next, _) => do
              iunlockput ip
              namexLoop parent n path next

/-- The inode at which a walk starts: the root for an absolute path, else the current directory. -/
def namexStart (path : Path) : FsM Inum := do
  if path.head? = some slash then
    iget rootino
    pure rootino
  else
    let ip ← cwd
    idup ip
    pure ip

def namex (path : Path) (parent : Bool) : FsM (Option (Inum × Name)) := do
  let ip ← namexStart path
  namexLoop parent path.length path ip

def namei (path : Path) : FsM (Option Inum) := do
  match ← namex path false with
  | none => pure none
  | some (ip, _) => pure (some ip)

def nameiparent (path : Path) : FsM (Option (Inum × Name)) := namex path true

end Xv6.Fs
