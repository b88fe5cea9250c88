import Xv6.Fs.Inode
import Xv6.Lib.Bytes
import Mathlib.Data.Fintype.Basic

/-!
# The disk format

The superblock, the inodes and the directory entries as bytes, in the layout of the stock `fs.h`.
The numbers of a `struct dinode` have the widths of the C types, so that what is written is what is
read back.
-/

namespace Xv6.Disk

open Fs (Inum FileType Dirent)

structure Superblock where
  size : Nat
  nblocks : Nat
  ninodes : Nat
  nlog : Nat
  logstart : Nat
  inodestart : Nat
  bmapstart : Nat
  deriving DecidableEq, Repr

def Superblock.read (b : Bytes) : Superblock where
  size := b.get 4 0
  nblocks := b.get 4 4
  ninodes := b.get 4 8
  nlog := b.get 4 12
  logstart := b.get 4 16
  inodestart := b.get 4 20
  bmapstart := b.get 4 24

/-! ### Inodes -/

/-- The fields of an inode that are on disk, with `addrs[NDIRECT]` the indirect block. -/
structure Dinode where
  type : UInt16
  major : UInt16
  minor : UInt16
  nlink : UInt16
  size : UInt32
  addrs : Fin (ndirect + 1) → UInt32
  deriving DecidableEq

namespace Dinode

def read (b : Bytes) (off : Nat) : Dinode where
  type := .ofNat (b.get 2 off)
  major := .ofNat (b.get 2 (off + 2))
  minor := .ofNat (b.get 2 (off + 4))
  nlink := .ofNat (b.get 2 (off + 6))
  size := .ofNat (b.get 4 (off + 8))
  addrs k := .ofNat (b.get 4 (off + (12 + 4 * k)))

def byte (node : Dinode) : Bytes := fun k =>
  if k < 2 then Bytes.leByte node.type.toNat k
  else if k < 4 then Bytes.leByte node.major.toNat (k - 2)
  else if k < 6 then Bytes.leByte node.minor.toNat (k - 4)
  else if k < 8 then Bytes.leByte node.nlink.toNat (k - 6)
  else if k < 12 then Bytes.leByte node.size.toNat (k - 8)
  else Bytes.leByte (node.addrs (Fin.ofNat _ ((k - 12) / 4))).toNat ((k - 12) % 4)

def addr (node : Dinode) (k : Fin (ndirect + 1)) : Nat := (node.addrs k).toNat

def setAddr (node : Dinode) (k : Fin (ndirect + 1)) (b : Nat) : Dinode :=
  { node with addrs := Function.update node.addrs k (.ofNat b) }

/-- What `memset(dip, 0, sizeof(*dip)); dip->type = type` leaves. -/
def fresh (type : UInt16) : Dinode :=
  { type := type, major := 0, minor := 0, nlink := 0, size := 0, addrs := fun _ => 0 }

theorem get_byte_addrs (node : Dinode) (k : Fin (ndirect + 1)) :
    node.byte.get 4 (12 + 4 * k) = (node.addrs k).toNat := by
  refine Bytes.get_of_leByte (node.addrs k).toNat_lt fun i hi => ?_
  have hindex : (12 + 4 * (k : Nat) + i - 12) / 4 = k := by omega
  have hrest : (12 + 4 * (k : Nat) + i - 12) % 4 = i := by omega
  have hword : Fin.ofNat (ndirect + 1) k = k := Fin.ofNat_val_eq_self k
  unfold byte
  rw [if_neg (by omega), if_neg (by omega), if_neg (by omega), if_neg (by omega), if_neg (by omega),
    hindex, hrest, hword]

theorem read_fill (b : Bytes) (off : Nat) (node : Dinode) :
    read (b.fill off dinodeSize node.byte) off = node := by
  have htype : node.byte.get 2 0 = node.type.toNat :=
    Bytes.get_of_leByte node.type.toNat_lt fun i hi => by
      unfold byte
      rw [if_pos (by omega), Nat.zero_add]
  have hmajor : node.byte.get 2 2 = node.major.toNat :=
    Bytes.get_of_leByte node.major.toNat_lt fun i hi => by
      unfold byte
      rw [if_neg (by omega), if_pos (by omega), Nat.add_sub_cancel_left]
  have hminor : node.byte.get 2 4 = node.minor.toNat :=
    Bytes.get_of_leByte node.minor.toNat_lt fun i hi => by
      unfold byte
      rw [if_neg (by omega), if_neg (by omega), if_pos (by omega), Nat.add_sub_cancel_left]
  have hnlink : node.byte.get 2 6 = node.nlink.toNat :=
    Bytes.get_of_leByte node.nlink.toNat_lt fun i hi => by
      unfold byte
      rw [if_neg (by omega), if_neg (by omega), if_neg (by omega), if_pos (by omega),
        Nat.add_sub_cancel_left]
  have hsize : node.byte.get 4 8 = node.size.toNat :=
    Bytes.get_of_leByte node.size.toNat_lt fun i hi => by
      unfold byte
      rw [if_neg (by omega), if_neg (by omega), if_neg (by omega), if_neg (by omega),
        if_pos (by omega), Nat.add_sub_cancel_left]
  have hfield : ∀ w o, o + w ≤ dinodeSize →
      (b.fill off dinodeSize node.byte).get w (off + o) = node.byte.get w o :=
    fun w o ho => Bytes.get_fill_inside ho
  have haddrs : ∀ k : Fin (ndirect + 1),
      (b.fill off dinodeSize node.byte).get 4 (off + (12 + 4 * k)) = (node.addrs k).toNat := by
    intro k
    have hk : (k : Nat) < 13 := k.isLt
    rw [hfield 4 _ (by simp only [dinodeSize]; omega), get_byte_addrs]
  have hzero := hfield 2 0 (by decide)
  rw [Nat.add_zero] at hzero
  unfold read
  rw [hzero, hfield 2 2 (by decide), hfield 2 4 (by decide), hfield 2 6 (by decide),
    hfield 4 8 (by decide), htype, hmajor, hminor, hnlink, hsize]
  simp only [haddrs, UInt16.ofNat_toNat, UInt32.ofNat_toNat]

theorem read_congr {b b' : Bytes} {off off' : Nat}
    (h : ∀ i < dinodeSize, b (off + i) = b' (off' + i)) : read b off = read b' off' := by
  have hfield : ∀ w o, o + w ≤ dinodeSize → b.get w (off + o) = b'.get w (off' + o) := by
    intro w o ho
    apply Bytes.get_congr
    intro i hi
    rw [Nat.add_assoc, Nat.add_assoc]
    exact h (o + i) (by omega)
  have hzero := hfield 2 0 (by decide)
  rw [Nat.add_zero, Nat.add_zero] at hzero
  unfold read
  rw [hzero, hfield 2 2 (by decide), hfield 2 4 (by decide), hfield 2 6 (by decide), hfield 4 8 (by decide)]
  congr
  funext k
  have hk : (k : Nat) < 13 := k.isLt
  rw [hfield 4 _ (by simp only [dinodeSize]; omega)]

end Dinode

/-- The values of `stat.h`. -/
def typeOf (t : UInt16) : FileType :=
  if t = 0 then .free else if t = 1 then .dir else if t = 2 then .file else if t = 3 then .dev
  else .other

def typeCode : FileType → UInt16
  | .free => 0
  | .dir => 1
  | .file => 2
  | .dev => 3
  | .other => 4

def short (x : Int) : UInt16 := .ofBitVec (.ofInt 16 x)

def shortVal (x : UInt16) : Int := x.toBitVec.toInt

/-! ### Directory entries -/

/-- The bytes of a `struct dirent`: the number, then the name as `strncpy` pads it. -/
def direntBytes (de : Dirent) : List UInt8 :=
  (List.range direntSize).map fun k =>
    if k < 2 then Bytes.leByte de.inum k else de.name.getD (k - 2) 0

/-- The entry in the first bytes of a buffer; a name ends at the first NUL. -/
def readEntry (b : Bytes) : Dirent where
  inum := b.get 2 0
  name := (b.slice 2 dirsiz).takeWhile (· != 0)

theorem length_direntBytes (de : Dirent) : (direntBytes de).length = direntSize := by
  simp [direntBytes]

end Xv6.Disk
