import Xv6.Disk.Content

/-!
# Laying out a disk

A volume made of a superblock, inodes, a bitmap and data blocks, and a finite check that its inodes
own their blocks.
-/

namespace Xv6.Disk

open Fs (Inum)

def Superblock.byte (sb : Superblock) : Bytes := fun k =>
  Bytes.leByte ([sb.size, sb.nblocks, sb.ninodes, sb.nlog, sb.logstart, sb.inodestart, sb.bmapstart].getD
      (k / 4) 0) (k % 4)

def bitmapByte (used : Nat → Bool) (k : Nat) : UInt8 :=
  .ofNat (((List.range 8).map fun i => if used (8 * k + i) then 2 ^ i else 0).sum)

namespace Volume

def format (sb : Superblock) (node : Inum → Dinode) (used : Nat → Bool) (data : Nat → Bytes) : Volume where
  sb := sb
  blk b :=
    if b = 1 then
      sb.byte
    else if b < sb.inodestart then
      fun _ => 0
    else if b < sb.bmapstart then
      fun k => (node (ipb * (b - sb.inodestart) + k / dinodeSize)).byte (k % dinodeSize)
    else if b < sb.dataStart then
      fun k => bitmapByte used (bsize * (b - sb.bmapstart) + k)
    else
      data b
  logged := []

/-! ### Checking ownership -/

def slots (node : Dinode) : List Slot :=
  (List.finRange (ndirect + 1)).map .addr ++
    if node.indirect = 0 then [] else (List.finRange nindirect).map .entry

theorem mem_slots {node : Dinode} {blk : Nat → Bytes} {s : Slot} (hs : node.slotAt blk s ≠ 0) :
    s ∈ slots node := by
  cases s with
  | addr k => exact List.mem_append_left _ (List.mem_map_of_mem (List.mem_finRange k))
  | entry j =>
    have hind : node.indirect ≠ 0 := fun hzero => hs (if_pos hzero)
    refine List.mem_append_right _ ?_
    rw [if_neg hind]
    exact List.mem_map_of_mem (List.mem_finRange j)

def kept (d : Volume) : List Place :=
  (((List.range d.sb.ninodes).filter fun i => (d.dinode i).type ≠ 0).flatMap fun i =>
    (slots (d.dinode i)).map fun s => (i, s)).filter fun x =>
      holds d.sb.ninodes d.dinode d.blk x ≠ 0

theorem mem_kept {d : Volume} {x : Place} : x ∈ d.kept ↔ holds d.sb.ninodes d.dinode d.blk x ≠ 0 := by
  unfold kept
  rw [List.mem_filter, decide_eq_true_eq, and_iff_right_iff_imp]
  intro hne
  have hlive : x.1 < d.sb.ninodes ∧ (d.dinode x.1).type ≠ 0 := by
    by_contra hnot
    exact hne (if_neg hnot)
  have hslot : (d.dinode x.1).slotAt d.blk x.2 ≠ 0 := by
    rwa [holds, if_pos hlive] at hne
  refine List.mem_flatMap.mpr ⟨x.1, List.mem_filter.mpr ⟨List.mem_range.mpr hlive.1, ?_⟩,
    List.mem_map.mpr ⟨x.2, mem_slots hslot, rfl⟩⟩
  simpa using hlive.2

def heldBlocks (d : Volume) : List Nat := d.kept.map (holds d.sb.ninodes d.dinode d.blk)

/-- A finite form of soundness, for a volume whose places hold the blocks of `held`. -/
def Checked (d : Volume) (held : List Nat) : Prop :=
  (1 < d.sb.inodestart ∧ d.sb.inodestart + d.sb.ninodes / ipb < d.sb.bmapstart ∧
    d.sb.size < 2 ^ 32 ∧ d.sb = .read (d.blk 1)) ∧
  d.heldBlocks = held ∧ held.Nodup ∧ (∀ b ∈ held, d.sb.IsData b) ∧
  (∀ b ∈ List.range d.sb.size, d.bit b = (decide (b < d.sb.dataStart) || decide (b ∈ held))) ∧
  ∀ j ∈ List.range d.sb.ninodes, (d.dinode j).type ≠ 0 → (d.dinode j).size.toNat ≤ maxfile * bsize ∧
      ∀ m ∈ List.range (blocks (d.dinode j).size.toNat), (d.dinode j).blockOf d.blk m ≠ 0

instance (d : Volume) (held : List Nat) : Decidable (d.Checked held) := by
  unfold Checked
  infer_instance

theorem Checked.sound {d : Volume} {held : List Nat} (hcheck : d.Checked held) : d.Sound := by
  obtain ⟨⟨hboot, hinodes, hsize, hsuper⟩, rfl, hnodup, hdata, hbits, hsolid⟩ := hcheck
  have hheld : ∀ x, holds d.sb.ninodes d.dinode d.blk x ≠ 0 →
      holds d.sb.ninodes d.dinode d.blk x ∈ d.heldBlocks :=
    fun x hx => List.mem_map_of_mem (mem_kept.mpr hx)
  refine ⟨⟨⟨hboot, hinodes, hsize⟩, hsuper, fun b hb hlt => ?_, ?_⟩, fun j hj htype => ?_⟩
  · rw [hbits b (List.mem_range.mpr hlt)]
    simp [hb]
  · refine ⟨fun b hb => ?_, fun x hx => hdata _ (hheld x hx), fun x y hx heq => ?_, fun b hb => ?_⟩
    · exact Nat.ne_of_gt ((Nat.succ_pos _).trans_le hb.1)
    · exact List.inj_on_of_nodup_map hnodup (mem_kept.mpr hx) (mem_kept.mpr (heq ▸ hx)) heq
    · rw [hbits b (List.mem_range.mpr hb.2)]
      have hge : ¬ b < d.sb.dataStart := not_lt.mpr hb.1
      simp only [hge, decide_false, Bool.false_or, decide_eq_true_eq]
      constructor
      · intro hmem
        obtain ⟨x, -, hx⟩ := List.mem_map.mp hmem
        exact ⟨x, hx⟩
      · rintro ⟨x, rfl⟩
        refine hheld x fun hzero => ?_
        exact absurd hb.1 (by rw [hzero]; exact not_le.mpr (Nat.succ_pos _))
  · obtain ⟨hle, hblocks⟩ := hsolid j (List.mem_range.mpr hj) htype
    refine ⟨hle, fun m hm => hblocks m (List.mem_range.mpr ?_)⟩
    unfold blocks
    simp only [bsize] at hm ⊢
    omega

end Volume

end Xv6.Disk
