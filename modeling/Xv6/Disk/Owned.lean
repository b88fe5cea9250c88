import Xv6.Disk.Model
import Xv6.Lib.Owner
import Mathlib.Data.Finset.Card
import Mathlib.Data.Finset.Range

/-!
# Block ownership

Which places hold block numbers, what it means that they own them, and what each function that
allocates or frees does to it. While a function works on an inode its fields in memory are ahead of
those on disk, so ownership is stated for any reading `nodes` of the inodes.
-/

namespace Xv6.Disk

open Fs (Inum)

namespace Superblock

def dataStart (sb : Superblock) : Nat := sb.bmapstart + sb.size / bpb + 1

def IsData (sb : Superblock) (b : Nat) : Prop := sb.dataStart ≤ b ∧ b < sb.size

instance (sb : Superblock) (b : Nat) : Decidable (sb.IsData b) :=
  inferInstanceAs (Decidable (_ ∧ _))

structure Ok (sb : Superblock) : Prop where
  boot : 1 < sb.inodestart
  inodes : sb.inodestart + sb.ninodes / ipb < sb.bmapstart
  size_lt : sb.size < 2 ^ 32

end Superblock

/-! ### Places -/

/-- Where an inode keeps block numbers: its own addresses, the last one being the indirect block,
and the entries of that block. -/
inductive Slot where
  | addr (k : Fin (ndirect + 1))
  | entry (j : Fin nindirect)
  deriving DecidableEq

abbrev Place := Inum × Slot

instance : NeZero nindirect := ⟨by decide⟩

def slotOf (m : Nat) : Slot :=
  if m < ndirect then .addr (Fin.ofNat _ m) else .entry (Fin.ofNat _ (m - ndirect))

namespace Dinode

def indirect (node : Dinode) : Nat := node.addr (Fin.last ndirect)

def slotAt (node : Dinode) (blk : Nat → Bytes) : Slot → Nat
  | .addr k => node.addr k
  | .entry j => if node.indirect = 0 then 0 else (blk node.indirect).get 4 (4 * j)

def blockOf (node : Dinode) (blk : Nat → Bytes) (m : Nat) : Nat := node.slotAt blk (slotOf m)

end Dinode

def holds (ninodes : Nat) (nodes : Inum → Dinode) (blk : Nat → Bytes) (x : Place) : Nat :=
  if x.1 < ninodes ∧ (nodes x.1).type ≠ 0 then (nodes x.1).slotAt blk x.2 else 0

namespace Volume

/-- Ownership with the inodes read as `nodes`: the metadata blocks are marked, every block in a place
is a data block, no block is in two places, and of the data blocks those in places are marked. -/
structure Owned (d : Volume) (nodes : Inum → Dinode) : Prop where
  ok : d.sb.Ok
  super : d.sb = .read (d.blk 1)
  fixed : ∀ b < d.sb.dataStart, b < d.sb.size → d.bit b = true
  owns : Owns (holds d.sb.ninodes nodes d.blk) d.sb.IsData (fun b => d.bit b = true)

def nfree (d : Volume) : Nat := ((Finset.range d.sb.size).filter fun b => d.bit b = false).card

/-! ### Where a write goes -/

variable {d d' : Volume} {i j : Inum} {b c x : Nat} {v : Bytes} {node : Dinode}

theorem bblock_lt (hb : b < d.sb.size) : d.bblock b < d.sb.dataStart := by
  have hdiv : b / bpb ≤ d.sb.size / bpb := Nat.div_le_div_right hb.le
  calc d.bblock b ≤ d.sb.size / bpb + d.sb.bmapstart := Nat.add_le_add_right hdiv _
    _ = d.sb.bmapstart + d.sb.size / bpb := Nat.add_comm ..
    _ < d.sb.dataStart := Nat.lt_succ_self _

theorem le_bblock (d : Volume) (b : Nat) : d.sb.bmapstart ≤ d.bblock b := Nat.le_add_left ..

theorem iblock_lt (hok : d.sb.Ok) (hi : i < d.sb.ninodes) : d.iblock i < d.sb.bmapstart := by
  have hdiv : i / ipb ≤ d.sb.ninodes / ipb := Nat.div_le_div_right hi.le
  calc d.iblock i ≤ d.sb.ninodes / ipb + d.sb.inodestart := Nat.add_le_add_right hdiv _
    _ = d.sb.inodestart + d.sb.ninodes / ipb := Nat.add_comm ..
    _ < d.sb.bmapstart := hok.inodes

theorem one_lt_iblock (hok : d.sb.Ok) (i : Inum) : 1 < d.iblock i :=
  Nat.lt_of_lt_of_le hok.boot (Nat.le_add_left ..)

theorem bmapstart_lt_dataStart (sb : Superblock) : sb.bmapstart < sb.dataStart :=
  Nat.lt_succ_of_le (Nat.le_add_right ..)

theorem one_lt_bmapstart (hok : d.sb.Ok) : 1 < d.sb.bmapstart :=
  hok.boot.trans ((Nat.le_add_right ..).trans_lt hok.inodes)

@[simp]
theorem blk_write_self : (d.write b v).blk b = v := Function.update_self ..

theorem blk_write_of_ne (hx : x ≠ b) : (d.write b v).blk x = d.blk x := Function.update_of_ne hx ..

theorem bit_write_of_ne (hne : d.bblock c ≠ b) : (d.write b v).bit c = d.bit c := by
  unfold bit
  change ((d.write b v).blk (d.bblock c)).bit _ = _
  rw [blk_write_of_ne hne]

theorem dinode_write_of_ne (hne : d.iblock i ≠ b) : (d.write b v).dinode i = d.dinode i := by
  unfold dinode
  change Dinode.read ((d.write b v).blk (d.iblock i)) _ = _
  rw [blk_write_of_ne hne]

structure Stable (d d' : Volume) : Prop where
  sb : d'.sb = d.sb
  super : d'.blk 1 = d.blk 1
  dinode : ∀ i < d.sb.ninodes, d'.dinode i = d.dinode i

namespace Stable

variable {d'' : Volume}

theorem refl (d : Volume) : Stable d d := ⟨rfl, rfl, fun _ _ => rfl⟩

theorem trans (h : Stable d d') (h' : Stable d' d'') : Stable d d'' where
  sb := h'.sb.trans h.sb
  super := h'.super.trans h.super
  dinode i hi := by rw [h'.dinode i (by rw [h.sb]; exact hi), h.dinode i hi]

theorem of_write (hok : d.sb.Ok) (hb : d.sb.bmapstart ≤ b) : Stable d (d.write b v) where
  sb := rfl
  super := blk_write_of_ne (Nat.ne_of_lt ((one_lt_bmapstart hok).trans_le hb))
  dinode _ hi := dinode_write_of_ne (Nat.ne_of_lt ((iblock_lt hok hi).trans_le hb))

end Stable

theorem bit_write_data (hx : d.sb.IsData x) (hc : c < d.sb.size) : (d.write x v).bit c = d.bit c :=
  bit_write_of_ne (Nat.ne_of_lt ((bblock_lt hc).trans_le hx.1))

theorem eq_of_bblock {m : Nat} (hblock : d.bblock b = d.bblock c) (hmod : b % m = c % m)
    (hm : m = bpb) : b = c := by
  subst hm
  have hdiv : b / bpb = c / bpb := Nat.add_right_cancel hblock
  rw [← Nat.div_add_mod b bpb, ← Nat.div_add_mod c bpb, hdiv, hmod]

theorem bit_write_bitmap (c : Nat) {g : Bool → Bool}
    (hv : ∀ k, v.bit k = if k = b % bpb then g ((d.blk (d.bblock b)).bit k)
      else (d.blk (d.bblock b)).bit k) :
    (d.write (d.bblock b) v).bit c = if c = b then g (d.bit c) else d.bit c := by
  by_cases hblock : d.bblock c = d.bblock b
  · have hread : (d.write (d.bblock b) v).bit c = v.bit (c % bpb) := by
      unfold bit
      change ((d.write (d.bblock b) v).blk (d.bblock c)).bit _ = _
      rw [hblock, blk_write_self]
    have hold : d.bit c = (d.blk (d.bblock b)).bit (c % bpb) := by rw [bit, hblock]
    rw [hread, hv, hold]
    by_cases hcb : c = b
    · rw [if_pos hcb, if_pos (by rw [hcb])]
    · rw [if_neg hcb, if_neg fun hmod => hcb (eq_of_bblock hblock hmod rfl)]
  · rw [bit_write_of_ne hblock, if_neg fun hcb => hblock (by rw [hcb])]

/-! ### Allocating and freeing a block -/

structure Allocs (d : Volume) (b : Nat) (d' : Volume) : Prop extends Stable d d' where
  data : d.sb.IsData b
  unused : d.bit b = false
  bit : ∀ c < d.sb.size, d'.bit c = (decide (c = b) || d.bit c)
  blk : ∀ x, d.sb.IsData x → x ≠ b → d'.blk x = d.blk x
  zero : d'.blk b = fun _ => 0
  logged : d'.logged = b :: d.bblock b :: d.logged

/-- How a function ends: it returns with `post`, or `balloc` finds no block, which needs `short`. -/
def Ends {α : Type} (short : Prop) (post : α → Prop) : Except Trap α → Prop
  | .ok a => post a
  | .error e => e = .outOfBlocks ∧ short

namespace Ends

variable {α β : Type} {short short' : Prop} {post post' mid : α → Prop} {e : Except Trap α}

theorem mono (he : Ends short post e) (hshort : short → short') (hpost : ∀ a, post a → post' a) :
    Ends short' post' e := by
  cases e with
  | ok a => exact hpost a he
  | error t => exact ⟨he.1, hshort he.2⟩

theorem bind {f : α → Except Trap β} {last : β → Prop} (he : Ends short mid e)
    (hf : ∀ a, mid a → Ends short last (f a)) : Ends short last (e >>= f) := by
  cases e with
  | ok a => exact hf a he
  | error t => exact he

theorem exists_ok (he : Ends short post e) (hnot : ¬ short) : ∃ a, e = .ok a ∧ post a := by
  cases e with
  | ok a => exact ⟨a, rfl, he⟩
  | error t => exact absurd he.2 hnot

end Ends

theorem balloc_ends (hok : d.sb.Ok) (hfixed : ∀ b < d.sb.dataStart, b < d.sb.size → d.bit b = true) :
    Ends (d.nfree = 0) (fun r => Allocs d r.1 r.2) d.balloc := by
  unfold balloc
  cases hfind : (List.range d.sb.size).find? fun b => !d.bit b with
  | none =>
    refine ⟨rfl, Finset.card_eq_zero.mpr (Finset.filter_eq_empty_iff.mpr fun b hb => ?_)⟩
    have hset := List.find?_eq_none.mp hfind b (List.mem_range.mpr (Finset.mem_range.mp hb))
    simpa using hset
  | some b =>
    have hlt : b < d.sb.size := List.mem_range.mp (List.mem_of_find?_eq_some hfind)
    have hunused : d.bit b = false := by simpa using List.find?_some hfind
    have hdata : d.sb.IsData b := by
      refine ⟨?_, hlt⟩
      by_contra hmeta
      rw [hfixed b (not_le.mp hmeta) hlt] at hunused
      cases hunused
    have hbit : ∀ c, (d.write (d.bblock b) ((d.blk (d.bblock b)).setBit (b % bpb))).bit c
        = (decide (c = b) || d.bit c) := by
      intro c
      rw [bit_write_bitmap c (g := fun _ => true)]
      · by_cases hcb : c = b <;> simp [hcb]
      · intro k
        rw [Bytes.bit_setBit]
        by_cases hk : k = b % bpb <;> simp [hk]
    have hne : d.bblock b ≠ b := Nat.ne_of_lt ((bblock_lt hlt).trans_le hdata.1)
    refine
      { toStable := (Stable.of_write hok (le_bblock d b)).trans (.of_write hok ?_)
        data := hdata
        unused := hunused
        bit := fun c hc => ?_
        blk := fun x hx hxb => ?_
        zero := blk_write_self
        logged := rfl }
    · exact Nat.le_of_lt ((bmapstart_lt_dataStart _).trans_le hdata.1)
    · rw [← hbit c]
      exact bit_write_data hdata hc
    · change (Volume.write _ b _).blk x = _
      rw [blk_write_of_ne hxb]
      exact blk_write_of_ne (Nat.ne_of_gt ((bblock_lt hlt).trans_le hx.1))

theorem Allocs.nfree (halloc : Allocs d b d') : d'.nfree + 1 = d.nfree := by
  have hmem : b ∈ (Finset.range d.sb.size).filter fun c => d.bit c = false :=
    Finset.mem_filter.mpr ⟨Finset.mem_range.mpr halloc.data.2, halloc.unused⟩
  have hrest : ((Finset.range d'.sb.size).filter fun c => d'.bit c = false)
      = ((Finset.range d.sb.size).filter fun c => d.bit c = false).erase b := by
    ext c
    rw [Finset.mem_erase, Finset.mem_filter, Finset.mem_filter, Finset.mem_range, Finset.mem_range,
      halloc.sb]
    by_cases hc : c < d.sb.size
    · rw [halloc.bit c hc]
      by_cases hcb : c = b <;> simp [hcb, hc]
    · simp [hc]
  unfold Volume.nfree
  rw [hrest, Finset.card_erase_add_one hmem]

structure Frees (d : Volume) (b : Nat) (d' : Volume) : Prop extends Stable d d' where
  bit : ∀ c, d'.bit c = (!decide (c = b) && d.bit c)
  blk : ∀ x, d.sb.IsData x → d'.blk x = d.blk x
  logged : d'.logged = d.bblock b :: d.logged

theorem bfree_frees (hok : d.sb.Ok) (hsuper : d.sb = .read (d.blk 1)) (hlt : b < d.sb.size)
    (hbit : d.bit b = true) : ∃ d', d.bfree b = .ok d' ∧ Frees d b d' := by
  have hsb : d.readsb = d := by rw [readsb, ← hsuper]
  refine ⟨d.write (d.bblock b) ((d.blk (d.bblock b)).clearBit (b % bpb)), ?_, ?_⟩
  · unfold bfree
    rw [hsb]
    simp only [hbit, if_true]
  · refine
      { toStable := .of_write hok (le_bblock d b)
        bit := fun c => ?_
        blk := fun x hx => ?_
        logged := rfl }
    · rw [bit_write_bitmap c (g := fun _ => false)]
      · by_cases hcb : c = b <;> simp [hcb]
      · intro k
        rw [Bytes.bit_clearBit]
        by_cases hk : k = b % bpb <;> simp [hk]
    · exact blk_write_of_ne (Nat.ne_of_gt ((bblock_lt hlt).trans_le hx.1))

/-! ### Writing an inode -/

theorem dinode_iupdate (d : Volume) (i : Inum) (node : Dinode) : (d.iupdate i node).dinode i = node := by
  unfold dinode
  change Dinode.read ((d.write (d.iblock i) _).blk (d.iblock i)) _ = _
  rw [blk_write_self]
  exact Dinode.read_fill _ _ _

theorem dinode_iupdate_of_ne (hne : j ≠ i) : (d.iupdate i node).dinode j = d.dinode j := by
  by_cases hblock : d.iblock j = d.iblock i
  · have hdiv : j / ipb = i / ipb := Nat.add_right_cancel hblock
    have hmod : j % ipb ≠ i % ipb := by
      intro hmod
      apply hne
      rw [← Nat.div_add_mod j ipb, ← Nat.div_add_mod i ipb, hdiv, hmod]
    unfold dinode
    change Dinode.read ((d.write (d.iblock i) _).blk (d.iblock j)) _ = _
    rw [hblock, blk_write_self]
    apply Dinode.read_congr
    intro k hk
    apply Bytes.fill_outside
    simp only [dinodeSize] at hk ⊢
    rcases Nat.lt_or_gt_of_ne hmod with hlt | hgt
    · omega
    · omega
  · exact dinode_write_of_ne hblock

theorem bit_iupdate (hok : d.sb.Ok) (hi : i < d.sb.ninodes) (c : Nat) :
    (d.iupdate i node).bit c = d.bit c :=
  bit_write_of_ne (Nat.ne_of_gt ((iblock_lt hok hi).trans_le (le_bblock d c)))

theorem blk_iupdate (hok : d.sb.Ok) (hi : i < d.sb.ninodes) (hx : d.sb.IsData x) :
    (d.iupdate i node).blk x = d.blk x := by
  refine blk_write_of_ne (Nat.ne_of_gt ?_)
  calc d.iblock i < d.sb.bmapstart := iblock_lt hok hi
    _ < d.sb.dataStart := bmapstart_lt_dataStart _
    _ ≤ x := hx.1

theorem super_iupdate (hok : d.sb.Ok) : (d.iupdate i node).blk 1 = d.blk 1 :=
  blk_write_of_ne (Nat.ne_of_lt (one_lt_iblock hok i))

end Volume

end Xv6.Disk
