import Xv6.Disk.Layout

/-!
# Blocks and inodes

The functions of `fs.c` below directories, over the bytes of the blocks. A block is what the buffer
cache shows: a change to a buffer followed by `log_write` is `Volume.write`, which also notes the block
number; `bread` and `brelse` leave no trace. A function returns the fields of the in-memory inode it
was given together with the disk. A panic is an error.
-/

namespace Xv6.Disk

open Fs (Inum FileType)

/-- Why a function does not return: the panics of `balloc`, `bfree` and `bmap`, or waiting. -/
inductive Trap where
  | outOfBlocks
  | freeingFree
  | outOfRange
  | waits
  deriving DecidableEq, Repr

structure Volume where
  /-- The kernel's copy of the superblock. -/
  sb : Superblock
  blk : Nat → Bytes
  /-- The blocks passed to `log_write` since `begin_op`, the last first. -/
  logged : List Nat

namespace Volume

/-- Change a buffer and `log_write` it. -/
def write (d : Volume) (b : Nat) (data : Bytes) : Volume :=
  { d with blk := Function.update d.blk b data, logged := b :: d.logged }

/-! ### Blocks -/

def bblock (d : Volume) (b : Nat) : Nat := b / bpb + d.sb.bmapstart

def bit (d : Volume) (b : Nat) : Bool := (d.blk (d.bblock b)).bit (b % bpb)

def readsb (d : Volume) : Volume := { d with sb := .read (d.blk 1) }

def bzero (d : Volume) (b : Nat) : Volume := d.write b fun _ => 0

/-- The two loops visit the bits in order, one bitmap block after the other. -/
def balloc (d : Volume) : Except Trap (Nat × Volume) :=
  match (List.range d.sb.size).find? fun b => !d.bit b with
  | none => .error .outOfBlocks
  | some b =>
    .ok (b, (d.write (d.bblock b) ((d.blk (d.bblock b)).setBit (b % bpb))).bzero b)

def bfree (d : Volume) (b : Nat) : Except Trap Volume :=
  let d := d.readsb
  if d.bit b then
    .ok (d.write (d.bblock b) ((d.blk (d.bblock b)).clearBit (b % bpb)))
  else
    .error .freeingFree

/-! ### Inodes -/

def iblock (d : Volume) (i : Inum) : Nat := i / ipb + d.sb.inodestart

def dinode (d : Volume) (i : Inum) : Dinode :=
  .read (d.blk (d.iblock i)) (dinodeSize * (i % ipb))

def iupdate (d : Volume) (i : Inum) (node : Dinode) : Volume :=
  d.write (d.iblock i) ((d.blk (d.iblock i)).fill (dinodeSize * (i % ipb)) dinodeSize node.byte)

def freeInum (d : Volume) : Option Inum :=
  (List.range d.sb.ninodes).find? fun i => 1 ≤ i ∧ (d.dinode i).type = 0

def ialloc (d : Volume) (type : UInt16) : Option (Inum × Volume) :=
  d.freeInum.map fun i => (i, d.iupdate i (.fresh type))

/-! ### Inode content -/

def entry (d : Volume) (a j : Nat) : Nat := (d.blk a).get 4 (4 * j)

def setEntry (d : Volume) (a j b : Nat) : Volume :=
  d.write a ((d.blk a).fill (4 * j) 4 (Bytes.leByte b))

/-- `if ((addr = ip->addrs[k]) == 0) ip->addrs[k] = addr = balloc(ip->dev)`. -/
def bmapAddr (d : Volume) (node : Dinode) (k : Fin (ndirect + 1)) : Except Trap (Nat × Dinode × Volume) :=
  if node.addr k = 0 then do
    let (b, d) ← d.balloc
    .ok (b, node.setAddr k b, d)
  else
    .ok (node.addr k, node, d)

/-- `if ((addr = a[j]) == 0) a[j] = addr = balloc(ip->dev)`, with the `log_write` of `a`. -/
def bmapEntry (d : Volume) (a j : Nat) : Except Trap (Nat × Volume) :=
  if d.entry a j = 0 then do
    let (b, d) ← d.balloc
    .ok (b, d.setEntry a j b)
  else
    .ok (d.entry a j, d)

def bmap (d : Volume) (node : Dinode) (bn : Nat) : Except Trap (Nat × Dinode × Volume) :=
  if bn < ndirect then
    d.bmapAddr node (Fin.ofNat _ bn)
  else if bn - ndirect < nindirect then do
    let (a, node, d) ← d.bmapAddr node (Fin.last ndirect)
    let (b, d) ← d.bmapEntry a (bn - ndirect)
    .ok (b, node, d)
  else
    .error .outOfRange

/-- `if (addr) bfree(ip->dev, addr)`. -/
def bfreeAddr (d : Volume) (b : Nat) : Except Trap Volume :=
  if b = 0 then .ok d else d.bfree b

def freeEach (addr : Volume → Nat → Nat) : List Nat → Volume → Except Trap Volume
  | [], d => .ok d
  | k :: ks, d => do
      let d ← d.bfreeAddr (addr d k)
      freeEach addr ks d

/-- The second half of `itrunc`: the entries of the indirect block, then the block. -/
def freeIndirect (d : Volume) (a : Nat) : Except Trap Volume :=
  if a = 0 then
    .ok d
  else do
    let d ← freeEach (fun d j => d.entry a j) (List.range nindirect) d
    d.bfree a

def itrunc (d : Volume) (i : Inum) (node : Dinode) : Except Trap (Dinode × Volume) := do
  let d ← freeEach (fun _ k => node.addr (Fin.ofNat _ k)) (List.range ndirect) d
  let d ← d.freeIndirect (node.addr (Fin.last ndirect))
  let node := { node with addrs := fun _ => 0, size := 0 }
  .ok (node, d.iupdate i node)

def tDev : UInt16 := 3

def consoleMajor : UInt16 := 1

/-- `off > ip->size || off + n < off`, in 32 bits. -/
def outside (node : Dinode) (off n : Nat) : Prop :=
  node.size.toNat < off ∨ (off + n) % 2 ^ 32 < off

instance (node : Dinode) (off n : Nat) : Decidable (outside node off n) :=
  inferInstanceAs (Decidable (_ ∨ _))

/-- The loop of `readi`; every turn copies at least one byte, so `fuel` is never short of `n`. -/
def readiLoop : Nat → Nat → Nat → Dinode → Volume → Except Trap (List UInt8 × Dinode × Volume)
  | 0, _, _, node, d => .ok ([], node, d)
  | fuel + 1, off, n, node, d =>
    if n = 0 then
      .ok ([], node, d)
    else do
      let (b, node, d) ← d.bmap node (off / bsize)
      let m := min n (bsize - off % bsize)
      let bytes := (d.blk b).slice (off % bsize) m
      let (rest, node, d) ← readiLoop fuel (off + m) (n - m) node d
      .ok (bytes ++ rest, node, d)

/-- `none` stands for the result `-1`. The console's `read` waits for a line. -/
def readi (d : Volume) (node : Dinode) (off n : Nat) :
    Except Trap (Option (List UInt8) × Dinode × Volume) :=
  if node.type = tDev then
    if node.major = consoleMajor then .error .waits else .ok (none, node, d)
  else if outside node off n then
    .ok (none, node, d)
  else do
    let n := if node.size.toNat < (off + n) % 2 ^ 32 then node.size.toNat - off else n
    let (bytes, node, d) ← readiLoop n off n node d
    .ok (some bytes, node, d)

/-- The loop of `writei` on the bytes still to be copied. -/
def writeiLoop : Nat → Nat → List UInt8 → Dinode → Volume → Except Trap (Dinode × Volume)
  | 0, _, _, node, d => .ok (node, d)
  | fuel + 1, off, src, node, d =>
    if src = [] then
      .ok (node, d)
    else do
      let (b, node, d) ← d.bmap node (off / bsize)
      let m := min src.length (bsize - off % bsize)
      let d := d.write b ((d.blk b).fill (off % bsize) m (Bytes.ofList src))
      writeiLoop fuel (off + m) (src.drop m) node d

def writei (d : Volume) (i : Inum) (node : Dinode) (off : Nat) (src : List UInt8) :
    Except Trap (Int × Dinode × Volume) :=
  let n := src.length
  if node.type = tDev then
    .ok (if node.major = consoleMajor then n else -1, node, d)
  else if outside node off n then
    .ok (-1, node, d)
  else if maxfile * bsize < (off + n) % 2 ^ 32 then
    .ok (-1, node, d)
  else do
    let (node, d) ← writeiLoop n off src node d
    if 0 < n ∧ node.size.toNat < off + n then
      let node := { node with size := .ofNat (off + n) }
      .ok (n, node, d.iupdate i node)
    else
      .ok (n, node, d)

end Volume

end Xv6.Disk
