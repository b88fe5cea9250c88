import Xv6.Fs.Path

/-!
# File-system calls

The functions of `sysfile.c` and `file.c`, and the parts of `exec` and `exit` that use inodes. The
arguments are those that `argstr` and `argint` deliver; a call whose arguments they refuse returns
`-1` without touching an inode.
-/

namespace Xv6.Fs

def oCreate : UInt32 := 0x200
def oWronly : UInt32 := 0x001
def oRdwr : UInt32 := 0x002

def createDots (ip dp : Inum) : FsM Unit := do
  if ← dirlink ip dot ip then
    if ← dirlink ip dotdot dp then
      pure ()
    else
      panic .createDots
  else
    panic .createDots

/-- Returns the inode locked. -/
def create (path : Path) (type : FileType) (major minor : Int) : FsM (Option Inum) := do
  match ← nameiparent path with
  | none => pure none
  | some (dp, name) => do
      ilock dp
      match ← dirlookup dp name with
      | some (ip, _) => do
          iunlockput dp
          ilock ip
          let f ← fields ip
          if type = .file ∧ f.type = .file then
            pure (some ip)
          else do
            iunlockput ip
            pure none
      | none => do
          let ip ← ialloc type
          ilock ip
          initInode ip major minor
          if type = .dir then do
            addNlink dp 1
            createDots ip dp
          if ← dirlink dp name ip then do
            iunlockput dp
            pure (some ip)
          else
            panic .createDirlink

def fileclose (f : Nat) : FsM Unit := do
  match ← atomic (.fileDrop f) with
  | .bad => panic .fileclose
  | .kept => pure ()
  | .last ff =>
    match ff.ip with
    | none => pure ()
    | some ip => do
        beginOp
        iput ip
        endOp

/-- `sys_open` without `O_CREATE`, up to the allocation of the file: the inode, locked. -/
def openExisting (path : Path) (omode : UInt32) : FsM (Option Inum) := do
  match ← namei path with
  | none => pure none
  | some ip => do
      ilock ip
      let f ← fields ip
      if f.type = .dir ∧ omode ≠ 0 then do
        iunlockput ip
        pure none
      else
        pure (some ip)

/-- The rest of `sys_open`, with the inode locked. -/
def openFile (ip : Inum) (omode : UInt32) : FsM Int := do
  match ← filealloc with
  | none => do
      iunlockput ip
      endOp
      pure (-1)
  | some f => do
      match ← fdalloc f with
      | none => do
          fileclose f
          iunlockput ip
          endOp
          pure (-1)
      | some fd => do
          iunlock ip
          endOp
          fileInit f ip (omode &&& oWronly == 0) (omode &&& oWronly != 0 || omode &&& oRdwr != 0)
          pure fd

def sysOpen (path : Path) (omode : UInt32) : FsM Int := do
  beginOp
  let ip ← if omode &&& oCreate != 0 then create path .file 0 0 else openExisting path omode
  match ip with
  | none => do
      endOp
      pure (-1)
  | some ip => openFile ip omode

def sysMkdir (path : Path) : FsM Int := do
  beginOp
  match ← create path .dir 0 0 with
  | none => do
      endOp
      pure (-1)
  | some ip => do
      iunlockput ip
      endOp
      pure 0

/-- The parameters `major` and `minor` of `create` are of type `short`. -/
def short (x : Int) : Int := x.bmod (2 ^ 16)

def sysMknod (path : Path) (major minor : Int) : FsM Int := do
  beginOp
  match ← create path .dev (short major) (short minor) with
  | none => do
      endOp
      pure (-1)
  | some ip => do
      iunlockput ip
      endOp
      pure 0

def linkBad (ip : Inum) : FsM Int := do
  ilock ip
  addNlink ip (-1)
  iunlockput ip
  endOp
  pure (-1)

def sysLink (old new : Path) : FsM Int := do
  beginOp
  match ← namei old with
  | none => do
      endOp
      pure (-1)
  | some ip => do
      ilock ip
      let f ← fields ip
      if f.type = .dir then do
        iunlockput ip
        endOp
        pure (-1)
      else do
        addNlink ip 1
        iunlock ip
        match ← nameiparent new with
        | none => linkBad ip
        | some (dp, name) => do
            ilock dp
            if ← dirlink dp name ip then do
              iunlockput dp
              iput ip
              endOp
              pure 0
            else do
              iunlockput dp
              linkBad ip

def unlinkBad (dp : Inum) : FsM Int := do
  iunlockput dp
  endOp
  pure (-1)

/-- `sys_unlink` once the entry at `off` of `dp` may go: both inodes are locked. -/
def unlinkEntry (dp ip : Inum) (off : Nat) (type : FileType) : FsM Int := do
  if ← writeDirent dp off ⟨0, []⟩ then do
    if type = .dir then
      addNlink dp (-1)
    iunlockput dp
    addNlink ip (-1)
    iunlockput ip
    endOp
    pure 0
  else
    panic .unlinkWritei

def sysUnlink (path : Path) : FsM Int := do
  beginOp
  match ← nameiparent path with
  | none => do
      endOp
      pure (-1)
  | some (dp, name) => do
      ilock dp
      if IsDot name then
        unlinkBad dp
      else
        match ← dirlookup dp name with
        | none => unlinkBad dp
        | some (ip, off) => do
            ilock ip
            let f ← fields ip
            if f.nlink < 1 then
              panic .unlinkNlink
            else if f.type = .dir then do
              if ← isdirempty ip then
                unlinkEntry dp ip off f.type
              else do
                iunlockput ip
                unlinkBad dp
            else
              unlinkEntry dp ip off f.type

def sysChdir (path : Path) : FsM Int := do
  beginOp
  match ← namei path with
  | none => do
      endOp
      pure (-1)
  | some ip => do
      ilock ip
      let f ← fields ip
      if f.type ≠ .dir then do
        iunlockput ip
        endOp
        pure (-1)
      else do
        iunlock ip
        let old ← cwd
        iput old
        endOp
        setCwd (some ip)
        pure 0

/-- The part of `exec` that holds the program's inode. -/
def execInode (path : Path) : FsM Int := do
  beginOp
  match ← namei path with
  | none => do
      endOp
      pure (-1)
  | some ip => do
      ilock ip
      let ok ← readProgram ip
      iunlockput ip
      endOp
      pure (if ok then 0 else -1)

def sysClose (fd : Nat) : FsM Int := do
  match ← argfd fd with
  | none => pure (-1)
  | some f => do
      clearFd fd
      fileclose f
      pure 0

def filewriteMax : Nat := (maxOpBlocks - 1 - 1 - 2) / 2 * 512

/-- The loop of `filewrite`, on the bytes still to be written; `fuel` bounds the chunks. -/
def filewriteLoop (f ip : Nat) : Nat → List UInt8 → FsM Bool
  | 0, rest => pure rest.isEmpty
  | fuel + 1, rest =>
    if rest.isEmpty then
      pure true
    else do
      let chunk := rest.take filewriteMax
      beginOp
      ilock ip
      let ff ← file f
      let r ← writei ip ff.off chunk
      if 0 < r then
        addOff f r.toNat
      iunlock ip
      endOp
      if r < 0 then
        pure false
      else if r ≠ chunk.length then
        panic .shortFilewrite
      else
        filewriteLoop f ip fuel (rest.drop filewriteMax)

def filewrite (f : Nat) (src : List UInt8) : FsM Int := do
  let ff ← file f
  if ff.writable then
    match ff.ip with
    | none => panic .filewrite
    | some ip => do
        if ← filewriteLoop f ip src.length src then
          pure src.length
        else
          pure (-1)
  else
    pure (-1)

def sysWrite (fd : Nat) (src : List UInt8) : FsM Int := do
  match ← argfd fd with
  | none => pure (-1)
  | some f => filewrite f src

def exitFiles : List Nat → FsM Unit
  | [] => pure ()
  | fd :: fds => do
      match ← argfd fd with
      | none => exitFiles fds
      | some f => do
          fileclose f
          clearFd fd
          exitFiles fds

/-- `exit` up to `curproc->cwd = 0`; what follows concerns the process table. -/
def exitInodes : FsM Int := do
  exitFiles (List.range nofile)
  beginOp
  let ip ← cwd
  iput ip
  endOp
  setCwd none
  pure 0

inductive Call where
  | open (path : Path) (omode : UInt32)
  | mkdir (path : Path)
  | mknod (path : Path) (major minor : Int)
  | link (old new : Path)
  | unlink (path : Path)
  | chdir (path : Path)
  | exec (path : Path)
  | close (fd : Nat)
  | write (fd : Nat) (src : List UInt8)
  | exit

def Call.prog : Call → FsM Int
  | .open path omode => sysOpen path omode
  | .mkdir path => sysMkdir path
  | .mknod path major minor => sysMknod path major minor
  | .link old new => sysLink old new
  | .unlink path => sysUnlink path
  | .chdir path => sysChdir path
  | .exec path => execInode path
  | .close fd => sysClose fd
  | .write fd src => sysWrite fd src
  | .exit => exitInodes

end Xv6.Fs
