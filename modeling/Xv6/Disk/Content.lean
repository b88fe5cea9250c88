import Xv6.Disk.Itrunc
import Mathlib.Order.Interval.Finset.Nat

/-!
# Files as byte arrays

The content of an inode is the bytes of its blocks in order. `readi` returns a piece of it and changes
nothing, since no block of it is missing; `writei` replaces a piece, allocating what lies beyond the
old end, and no other inode's content changes.
-/

namespace Xv6.Disk

open Function (update)

open Fs (Inum)

namespace Volume

def content (d : Volume) (node : Dinode) : Bytes := fun o =>
  d.blk (node.blockOf d.blk (o / bsize)) (o % bsize)

def file (d : Volume) (node : Dinode) : List UInt8 := (d.content node).slice 0 node.size.toNat

/-- No block below the size of the file is missing. -/
structure Solid (d : Volume) (node : Dinode) : Prop where
  size_le : node.size.toNat ≤ maxfile * bsize
  block : ∀ m, m * bsize < node.size.toNat → node.blockOf d.blk m ≠ 0

/-- Every allocated inode owns its blocks, and none of them is missing. -/
structure Sound (d : Volume) : Prop where
  owned : d.Owned d.dinode
  solid : ∀ j < d.sb.ninodes, (d.dinode j).type ≠ 0 → d.Solid (d.dinode j)

variable {d d' d'' : Volume} {nodes : Inum → Dinode} {i j : Inum} {node node' node'' : Dinode}
  {off n m : Nat} {src : List UInt8}

/-- The list of logged blocks is no part of the file system. -/
theorem Sound.clearLog (hsound : d.Sound) : Sound { d with logged := [] } := by
  have hown := hsound.owned
  refine ⟨⟨hown.ok, hown.super, hown.fixed, hown.owns⟩, fun j hj htype => ?_⟩
  have hsolid := hsound.solid j hj htype
  exact ⟨hsolid.size_le, hsolid.block⟩

theorem Sound.owned_update (hsound : d.Sound) (i : Inum) : d.Owned (update d.dinode i (d.dinode i)) := by
  rw [Function.update_eq_self]
  exact hsound.owned

/-! ### Offsets and blocks -/

theorem div_lt_maxfile {o : Nat} (ho : o < maxfile * bsize) : o / bsize < maxfile :=
  Nat.div_lt_of_lt_mul (by rwa [Nat.mul_comm] at ho)

theorem Solid.block_at (hsolid : d.Solid node) {o : Nat} (ho : o < node.size.toNat) :
    node.blockOf d.blk (o / bsize) ≠ 0 :=
  hsolid.block _ ((Nat.div_mul_le_self o bsize).trans_lt ho)

theorem chunk_offset {k : Nat} (hk : k < bsize - off % bsize) :
    (off + k) / bsize = off / bsize ∧ (off + k) % bsize = off % bsize + k := by
  simp only [bsize] at hk ⊢
  omega

/-! ### Reading -/

theorem bmap_hit (hm : m < maxfile) (hblock : node.blockOf d.blk m ≠ 0) :
    d.bmap node m = .ok (node.blockOf d.blk m, node, d) := by
  unfold bmap
  by_cases hlow : m < ndirect
  · have hslot : node.blockOf d.blk m = node.addr (Fin.ofNat _ m) := by
      rw [Dinode.blockOf, slotOf_of_lt hlow]
      rfl
    rw [if_pos hlow, bmapAddr, if_neg (by rwa [← hslot]), hslot]
  have hrange : m - ndirect < nindirect := by
    have hmax : maxfile = ndirect + nindirect := rfl
    omega
  have hslot : node.blockOf d.blk m
      = if node.indirect = 0 then 0 else d.entry node.indirect (m - ndirect) := by
    rw [Dinode.blockOf, slotOf_of_not_lt hlow]
    simp only [Dinode.slotAt, Fin.val_ofNat, Nat.mod_eq_of_lt hrange, entry]
  have hind : node.indirect ≠ 0 := by
    intro hzero
    rw [hslot, if_pos hzero] at hblock
    exact hblock rfl
  rw [if_neg hind] at hslot
  have haddr : d.bmapAddr node (Fin.last ndirect) = .ok (node.indirect, node, d) := if_neg hind
  have hentry : d.bmapEntry node.indirect (m - ndirect)
      = .ok (d.entry node.indirect (m - ndirect), d) := if_neg (by rwa [← hslot])
  rw [if_neg hlow, if_pos hrange, haddr]
  change (d.bmapEntry node.indirect (m - ndirect) >>= fun r => _) = _
  rw [hentry, hslot]
  rfl

theorem readiLoop_eq (hsolid : d.Solid node) (fuel : Nat) (hfuel : n ≤ fuel)
    (hend : off + n ≤ node.size.toNat) :
    readiLoop fuel off n node d = .ok ((d.content node).slice off n, node, d) := by
  induction fuel generalizing off n with
  | zero =>
    obtain rfl : n = 0 := Nat.le_zero.mp hfuel
    rfl
  | succ fuel ih =>
    unfold readiLoop
    by_cases hn : n = 0
    · rw [if_pos hn, hn]
      rfl
    rw [if_neg hn, bmap_hit (div_lt_maxfile (by have := hsolid.size_le; omega))
      (hsolid.block_at (by omega))]
    have hpos : 0 < min n (bsize - off % bsize) := by
      simp only [bsize]
      omega
    have hrest : readiLoop fuel (off + min n (bsize - off % bsize)) (n - min n (bsize - off % bsize)) node d
        = .ok ((d.content node).slice (off + min n (bsize - off % bsize))
          (n - min n (bsize - off % bsize)), node, d) :=
      ih (by omega) (by omega)
    have hchunk : (d.blk (node.blockOf d.blk (off / bsize))).slice (off % bsize)
        (min n (bsize - off % bsize)) = (d.content node).slice off (min n (bsize - off % bsize)) := by
      apply Bytes.slice_congr
      intro k hk
      have hoffset : (off + k) / bsize = off / bsize ∧ (off + k) % bsize = off % bsize + k :=
        chunk_offset (by omega)
      obtain ⟨hdiv, hmod⟩ := hoffset
      rw [content, hdiv, hmod]
    simp only [bind, Except.bind]
    rw [hrest]
    simp only
    rw [hchunk, Bytes.slice_append, Nat.add_sub_cancel' (Nat.min_le_left ..)]

theorem readi_eq (hsolid : d.Solid node) (hdev : node.type ≠ tDev) (hoff : off < 2 ^ 32) (hn : n < 2 ^ 32) :
    d.readi node off n = .ok (if outside node off n then none
        else some ((d.content node).slice off (min n (node.size.toNat - off))), node, d) := by
  unfold readi
  rw [if_neg hdev]
  by_cases hout : outside node off n
  · rw [if_pos hout, if_pos hout]
  rw [if_neg hout, if_neg hout]
  unfold outside at hout
  have hlen : (if node.size.toNat < (off + n) % 2 ^ 32 then node.size.toNat - off else n)
      = min n (node.size.toNat - off) := by
    split_ifs with hlong
    · omega
    · omega
  simp only [hlen]
  rw [readiLoop_eq hsolid _ le_rfl (by omega)]
  rfl

/-! ### Writing -/

theorem Grows.blockOf (h : Grows nodes i d node d' node') (hblock : node.blockOf d.blk m ≠ 0) :
    node'.blockOf d'.blk m = node.blockOf d.blk m := h.slot _ hblock

theorem slotAt_write (hown : d.Owned (update nodes i node)) (hi : i < d.sb.ninodes)
    (htype : node.type ≠ 0) (m : Nat) (v : Bytes) (s : Slot) :
    node.slotAt (d.write (node.blockOf d.blk m) v).blk s = node.slotAt d.blk s := by
  refine slotAt_congr s fun hind => blk_write_of_ne fun heq => ?_
  exact slotOf_ne_last (hown.slot_inj hi htype (s := .addr (Fin.last ndirect)) hind heq).symm

theorem Grows.of_write (hown : d.Owned (update nodes i node)) (hi : i < d.sb.ninodes)
    (htype : node.type ≠ 0) (hblock : node.blockOf d.blk m ≠ 0) (v : Bytes) :
    Grows nodes i d node (d.write (node.blockOf d.blk m) v) node := by
  have hdata : d.sb.IsData (node.blockOf d.blk m) := (hown.slot_data hi htype hblock).1
  have hstable : Stable d (d.write (node.blockOf d.blk m) v) :=
    .of_write hown.ok (Nat.le_of_lt ((bmapstart_lt_dataStart _).trans_le hdata.1))
  have hslots := slotAt_write hown hi htype m v
  refine
    { toStable := hstable
      owned := ?_
      fields := rfl
      bit := fun c hc hbit => by rwa [bit_write_data hdata hc]
      slot := fun s _ => hslots s
      fresh := fun s hs hs' => absurd ((hslots s).trans hs) hs'
      keep := fun x _ _ hnot => blk_write_of_ne fun heq => hnot _ heq.symm }
  refine hown.congr rfl hstable.super (fun c hc => bit_write_data hdata hc) ?_
  rintro ⟨j, s⟩
  by_cases hj : j = i
  · subst hj
    rw [holds_self nodes hi htype, holds_self nodes hi htype, hslots]
  -- another inode's indirect block is not the block written
  rw [holds_of_ne node hj, holds_of_ne node hj]
  by_cases hlive : j < d.sb.ninodes ∧ (nodes j).type ≠ 0
  · have hplace : ∀ blk t, holds d.sb.ninodes nodes blk (j, t) = (nodes j).slotAt blk t :=
      fun _ _ => if_pos hlive
    rw [hplace, hplace]
    refine slotAt_congr s fun hind => blk_write_of_ne fun heq => ?_
    refine hown.other_ne hi htype hj (t := .addr (Fin.last ndirect)) (by rwa [hplace]) (slotOf m) ?_
    rw [hplace]
    exact heq.symm
  · have hplace : ∀ blk, holds d.sb.ninodes nodes blk (j, s) = 0 := fun _ => if_neg hlive
    rw [hplace, hplace]

structure Wrote (nodes : Inum → Dinode) (i : Inum) (d : Volume) (node : Dinode) (off : Nat)
    (src : List UInt8) (d' : Volume) (node' : Dinode) : Prop extends Grows nodes i d node d' node' where
  inside : ∀ k < src.length, node'.blockOf d'.blk ((off + k) / bsize) ≠ 0 ∧
    d'.content node' (off + k) = src.getD k 0
  outside : ∀ o < maxfile * bsize, ¬ (off ≤ o ∧ o < off + src.length) →
    node.blockOf d.blk (o / bsize) ≠ 0 → d'.content node' o = d.content node o
  hit : (∀ k < src.length, node.blockOf d.blk ((off + k) / bsize) ≠ 0) → node' = node
  logged : ∀ x ∈ d'.logged, x ∈ d.logged ∨
    (∃ k < src.length, x = node'.blockOf d'.blk ((off + k) / bsize)) ∨
      (x = node'.indirect ∧ x ≠ 0) ∨ ∃ c < d.sb.size, x = d.bblock c

theorem Wrote.nil (hown : d.Owned (update nodes i node)) : Wrote nodes i d node off [] d node where
  toGrows := .refl hown
  inside k hk := absurd hk (Nat.not_lt_zero k)
  outside _ _ _ _ := rfl
  hit _ := rfl
  logged _ hx := .inl hx

theorem content_congr {o : Nat} (hblock : node'.blockOf d'.blk (o / bsize) = node.blockOf d.blk (o / bsize))
    (hblk : d'.blk (node.blockOf d.blk (o / bsize)) = d.blk (node.blockOf d.blk (o / bsize))) :
    d'.content node' o = d.content node o := by
  unfold content
  rw [hblock, hblk]

/-- One turn of the loop: `bmap`, then the copy into the block. -/
theorem Wrote.chunk {b : Nat} (hown : d.Owned (update nodes i node)) (hi : i < d.sb.ninodes)
    (htype : node.type ≠ 0) (hmaps : Maps nodes i d node (off / bsize) b d' node')
    (hfit : src.length ≤ bsize - off % bsize) (hpos : 0 < src.length)
    (hlt : off / bsize < maxfile) {g : Bytes} (hg : ∀ k < src.length, g k = src.getD k 0) :
    Wrote nodes i d node off src (d'.write b ((d'.blk b).fill (off % bsize) src.length g)) node' := by
  have hi' : i < d'.sb.ninodes := by
    rw [hmaps.sb]
    exact hi
  have htype' : node'.type ≠ 0 := by
    rw [hmaps.type_eq]
    exact htype
  have hblock' : node'.blockOf d'.blk (off / bsize) ≠ 0 := by
    rw [hmaps.mapped]
    exact hmaps.pos
  generalize hv : (d'.blk b).fill (off % bsize) src.length g = v
  have hwrite : Grows nodes i d' node' (d'.write b v) node' := by
    have hgrows := Grows.of_write hmaps.owned hi' htype' hblock' v
    rwa [hmaps.mapped] at hgrows
  have hblocks : ∀ l, node'.blockOf (d'.write b v).blk l = node'.blockOf d'.blk l := by
    intro l
    have hslot := slotAt_write hmaps.owned hi' htype' (off / bsize) v (slotOf l)
    rwa [hmaps.mapped] at hslot
  have hoffset : ∀ k < src.length, (off + k) / bsize = off / bsize ∧
      (off + k) % bsize = off % bsize + k := fun k hk => chunk_offset (by omega)
  refine
    { toGrows := hmaps.toGrows.trans hwrite hi htype
      inside := fun k hk => ?_
      outside := fun o ho hnot hblock => ?_
      hit := fun h => ?_
      logged := fun x hx => ?_ }
  · obtain ⟨hdiv, hmod⟩ := hoffset k hk
    refine ⟨by rw [hdiv, hblocks]; exact hblock', ?_⟩
    unfold content
    rw [hdiv, hmod, hblocks, hmaps.mapped, blk_write_self, ← hv, Bytes.fill_inside (by omega),
      Nat.add_sub_cancel_left]
    exact hg k hk
  · have hsame := hmaps.toGrows.blockOf hblock
    have hdata : d.sb.IsData (node.blockOf d.blk (o / bsize)) ∧
        d.bit (node.blockOf d.blk (o / bsize)) = true := hown.slot_data hi htype hblock
    have hold : d'.content node' o = d.content node o := by
      refine content_congr hsame (hmaps.data _ hdata.1 hdata.2 fun heq => ?_)
      exact slotOf_ne_last (hown.slot_inj hi htype hblock (t := .addr (Fin.last ndirect)) heq)
    rw [← hold]
    unfold content
    rw [hblocks]
    by_cases hsameBlock : o / bsize = off / bsize
    · rw [hsameBlock, hmaps.mapped, blk_write_self, ← hv, Bytes.fill_outside]
      intro hin
      simp only [bsize] at *
      omega
    · rw [blk_write_of_ne]
      intro heq
      rw [← hmaps.mapped] at heq
      have hne' : node'.blockOf d'.blk (o / bsize) ≠ 0 := by rwa [hsame]
      have hslot := hmaps.owned.slot_inj hi' htype' hne' heq
      exact hsameBlock (slotOf_injective (div_lt_maxfile ho) hlt hslot)
  · have hfirst := h 0 hpos
    rw [Nat.add_zero] at hfirst
    exact (hmaps.hit hfirst).2
  · have hfirst : b = node'.blockOf (d'.write b v).blk ((off + 0) / bsize) := by
      rw [Nat.add_zero, hblocks, hmaps.mapped]
    rcases List.mem_cons.mp hx with rfl | hold
    · exact .inr (.inl ⟨0, hpos, hfirst⟩)
    · rcases hmaps.logged x hold with h | h | h | h
      · exact .inl h
      · exact .inr (.inl ⟨0, hpos, h.trans hfirst⟩)
      · exact .inr (.inr (.inl h))
      · exact .inr (.inr (.inr h))

theorem Wrote.append {rest : List UInt8} (h : Wrote nodes i d node off src d' node')
    (h' : Wrote nodes i d' node' (off + src.length) rest d'' node'') (hi : i < d.sb.ninodes)
    (htype : node.type ≠ 0) (hend : off + src.length ≤ maxfile * bsize) :
    Wrote nodes i d node off (src ++ rest) d'' node'' := by
  have hlen : (src ++ rest).length = src.length + rest.length := List.length_append
  refine
    { toGrows := h.toGrows.trans h'.toGrows hi htype
      inside := fun k hk => ?_
      outside := fun o ho hnot hblock => ?_
      hit := fun hall => ?_
      logged := fun x hx => ?_ }
  · by_cases hfirst : k < src.length
    · obtain ⟨hblock, hbyte⟩ := h.inside k hfirst
      refine ⟨by rw [h'.toGrows.blockOf hblock]; exact hblock, ?_⟩
      rw [h'.outside (off + k) (by omega) (by omega) hblock, hbyte, List.getD_append _ _ _ _ hfirst]
    · obtain ⟨hblock, hbyte⟩ := h'.inside (k - src.length) (by omega)
      have hoff : off + src.length + (k - src.length) = off + k := by omega
      rw [hoff] at hblock hbyte
      refine ⟨hblock, ?_⟩
      rw [hbyte, List.getD_append_right _ _ _ _ (by omega)]
  · have hmid : node'.blockOf d'.blk (o / bsize) ≠ 0 := by
      rw [h.toGrows.blockOf hblock]
      exact hblock
    rw [h'.outside o ho (by omega) hmid, h.outside o ho (by omega) hblock]
  · have hnode : node' = node := h.hit fun k hk => hall k (by omega)
    rw [h'.hit, hnode]
    intro k hk
    have hblock := hall (src.length + k) (by omega)
    rw [← Nat.add_assoc] at hblock
    rw [h.toGrows.blockOf hblock]
    exact hblock
  · rcases h'.logged x hx with hold | ⟨k, hk, hx⟩ | hind | ⟨c, hc, hx⟩
    · rcases h.logged x hold with hold | ⟨k, hk, hx⟩ | ⟨hind, hne⟩ | hmap
      · exact .inl hold
      · refine .inr (.inl ⟨k, by omega, ?_⟩)
        rw [hx, h'.toGrows.blockOf (h.inside k hk).1]
      · refine .inr (.inr (.inl ⟨?_, hne⟩))
        have hkeep := h'.slot (.addr (Fin.last ndirect)) (hind ▸ hne : node'.indirect ≠ 0)
        exact hind.trans hkeep.symm
      · exact .inr (.inr (.inr hmap))
    · refine .inr (.inl ⟨src.length + k, by omega, ?_⟩)
      rw [hx, Nat.add_assoc]
    · exact .inr (.inr (.inl hind))
    · refine .inr (.inr (.inr ⟨c, by rwa [h.sb] at hc, ?_⟩))
      rw [hx, bblock, bblock, h.sb]

def blocks (k : Nat) : Nat := (k + (bsize - 1)) / bsize

/-- The blocks missing for `n` bytes at `off`: data blocks, and the indirect block. -/
def needs (d : Volume) (node : Dinode) (off n : Nat) : Nat :=
  ((Finset.Ico (off / bsize) (blocks (off + n))).filter fun m => node.blockOf d.blk m = 0).card +
    if node.indirect = 0 ∧ ndirect < blocks (off + n) then 1 else 0

theorem lt_blocks (hn : 0 < n) : off / bsize < blocks (off + n) := by
  unfold blocks
  simp only [bsize]
  omega

theorem needs_mono {k : Nat} (hle : n ≤ k) : needs d node off n ≤ needs d node off k := by
  have hblocks : blocks (off + n) ≤ blocks (off + k) := by
    unfold blocks
    exact Nat.div_le_div_right (by omega)
  unfold needs
  refine Nat.add_le_add (Finset.card_le_card (Finset.filter_subset_filter _
    (Finset.Ico_subset_Ico_right hblocks))) ?_
  split_ifs <;> omega

theorem need_le_needs (hn : 0 < n) : need d.blk node (off / bsize) ≤ needs d node off n := by
  have hlt : off / bsize < blocks (off + n) := lt_blocks hn
  unfold need needs
  refine Nat.add_le_add ?_ ?_
  · split_ifs with hzero
    · exact Finset.card_pos.mpr ⟨off / bsize,
        Finset.mem_filter.mpr ⟨Finset.mem_Ico.mpr ⟨le_rfl, hlt⟩, hzero⟩⟩
    · exact Nat.zero_le _
  · split_ifs with hmiss hall
    · exact le_rfl
    · exact absurd ⟨hmiss.2, Nat.lt_of_le_of_lt hmiss.1 hlt⟩ hall
    · exact Nat.zero_le _
    · exact le_rfl

/-- After a turn of `c` bytes, what is missing for the rest was missing before, besides the blocks of
this turn. -/
theorem needs_step {b c : Nat} {v : Bytes} (hmaps : Maps nodes i d node (off / bsize) b d' node')
    (hblocks : ∀ l, node'.blockOf (d'.write b v).blk l = node'.blockOf d'.blk l) (hc : c ≤ n)
    (hn : 0 < n) (hend : off + n ≤ maxfile * bsize) :
    needs (d'.write b v) node' (off + c) (n - c) + need d.blk node (off / bsize) ≤ needs d node off n := by
  have hlt : off / bsize < blocks (off + n) := lt_blocks hn
  have hsum : off + c + (n - c) = off + n := by omega
  have hmax : blocks (off + n) ≤ maxfile := by
    unfold blocks
    simp only [bsize] at hend ⊢
    omega
  have hind : node.indirect ≠ 0 → node'.indirect ≠ 0 := by
    intro hne
    have hkeep : node'.indirect = node.indirect := hmaps.slot (.addr (Fin.last ndirect)) hne
    rw [hkeep]
    exact hne
  have hsub : ((Finset.Ico ((off + c) / bsize) (blocks (off + n))).filter
        fun m => node'.blockOf (d'.write b v).blk m = 0)
      ⊆ ((Finset.Ico (off / bsize) (blocks (off + n))).filter
        fun m => node.blockOf d.blk m = 0).erase (off / bsize) := by
    intro l hl
    rw [Finset.mem_filter, Finset.mem_Ico, hblocks] at hl
    have hne : l ≠ off / bsize := by
      rintro rfl
      rw [hmaps.mapped] at hl
      exact hmaps.pos hl.2
    have hle : off / bsize ≤ (off + c) / bsize := Nat.div_le_div_right (Nat.le_add_right ..)
    rw [hmaps.others l (Nat.lt_of_lt_of_le hl.1.2 hmax) hne] at hl
    exact Finset.mem_erase.mpr ⟨hne, Finset.mem_filter.mpr
      ⟨Finset.mem_Ico.mpr ⟨hle.trans hl.1.1, hl.1.2⟩, hl.2⟩⟩
  have hcard := Finset.card_le_card hsub
  unfold needs need
  rw [hsum]
  have hdata : ((Finset.Ico ((off + c) / bsize) (blocks (off + n))).filter
        fun m => node'.blockOf (d'.write b v).blk m = 0).card +
      (if node.blockOf d.blk (off / bsize) = 0 then 1 else 0)
      ≤ ((Finset.Ico (off / bsize) (blocks (off + n))).filter fun m => node.blockOf d.blk m = 0).card := by
    split_ifs with hzero
    · have hmem : off / bsize ∈ (Finset.Ico (off / bsize) (blocks (off + n))).filter
          fun m => node.blockOf d.blk m = 0 :=
        Finset.mem_filter.mpr ⟨Finset.mem_Ico.mpr ⟨le_rfl, hlt⟩, hzero⟩
      have hpos := Finset.card_erase_add_one hmem
      omega
    · exact hcard.trans (Finset.card_le_card (Finset.erase_subset ..))
  have hindirect : (if node'.indirect = 0 ∧ ndirect < blocks (off + n) then 1 else 0) +
      (if ndirect ≤ off / bsize ∧ node.indirect = 0 then 1 else 0)
      ≤ if node.indirect = 0 ∧ ndirect < blocks (off + n) then 1 else 0 := by
    by_cases hzero : node.indirect = 0
    · by_cases hhigh : ndirect ≤ off / bsize
      · have hset := hmaps.indirect hhigh
        have hbound : ndirect < blocks (off + n) := hhigh.trans_lt hlt
        simp [hzero, hset, hhigh, hbound]
      · simp only [hzero, hhigh, false_and, if_false, true_and, Nat.add_zero]
        split_ifs with h h'
        · exact le_rfl
        · exact absurd h.2 h'
        · exact Nat.zero_le _
        · exact le_rfl
    · simp [hzero, hind hzero]
  omega

theorem nfree_write {b : Nat} {v : Bytes} (hb : d.sb.IsData b) : (d.write b v).nfree = d.nfree := by
  unfold nfree
  congr 1
  refine Finset.filter_congr fun c hc => ?_
  rw [bit_write_data hb (Finset.mem_range.mp hc)]

/-- The blocks taken for `n` bytes at `off` are among those that more bytes would have needed. -/
def Spends (d : Volume) (node : Dinode) (off n : Nat) (d' : Volume) (node' : Dinode) : Prop :=
  ∀ m, off + n + m ≤ maxfile * bsize →
    needs d' node' (off + n) m + d.nfree ≤ needs d node off (n + m) + d'.nfree

theorem Spends.nil : Spends d node off 0 d node := by
  intro m _
  rw [Nat.add_zero, Nat.zero_add]

theorem writeiLoop_ends (fuel : Nat) (hown : d.Owned (update nodes i node))
    (hi : i < d.sb.ninodes) (htype : node.type ≠ 0) (hfuel : src.length ≤ fuel)
    (hend : off + src.length ≤ maxfile * bsize) : Ends (d.nfree < needs d node off src.length)
      (fun r => Wrote nodes i d node off src r.2 r.1 ∧ Spends d node off src.length r.2 r.1)
      (writeiLoop fuel off src node d) := by
  induction fuel generalizing off src d node with
  | zero =>
    obtain rfl : src = [] := List.length_eq_zero_iff.mp (Nat.le_zero.mp hfuel)
    exact ⟨.nil hown, .nil⟩
  | succ fuel ih =>
    unfold writeiLoop
    by_cases hsrc : src = []
    · rw [if_pos hsrc, hsrc]
      exact ⟨.nil hown, .nil⟩
    rw [if_neg hsrc]
    have hpos : 0 < src.length := List.length_pos_iff.mpr hsrc
    have hlt : off / bsize < maxfile := div_lt_maxfile (by omega)
    refine .bind ((bmap_ends hown hi htype hlt).mono
      (fun hfull => hfull.trans_le (need_le_needs hpos)) fun _ h => h) ?_
    rintro ⟨b, node₁, d₁⟩ (hmaps : Maps nodes i d node (off / bsize) b d₁ node₁)
    dsimp only
    generalize hc : min src.length (bsize - off % bsize) = c
    have hclt : 0 < c ∧ c ≤ src.length ∧ c ≤ bsize - off % bsize := by
      simp only [bsize] at hc ⊢
      omega
    have htake : (src.take c).length = c := by rw [List.length_take]; omega
    have hbytes : ∀ k < (src.take c).length, Bytes.ofList src k = (src.take c).getD k 0 := by
      intro k hk
      rw [htake] at hk
      simp [Bytes.ofList, List.getD_eq_getElem?_getD, hk]
    have hchunk := Wrote.chunk hown hi htype hmaps (by omega) (by omega) hlt hbytes
    rw [htake] at hchunk
    generalize hv : (d₁.blk b).fill (off % bsize) c (Bytes.ofList src) = v at hchunk ⊢
    have hi₂ : i < (d₁.write b v).sb.ninodes := by
      rw [hchunk.sb]
      exact hi
    have htype₂ : node₁.type ≠ 0 := by
      rw [hchunk.type_eq]
      exact htype
    have hblock₁ : node₁.blockOf d₁.blk (off / bsize) ≠ 0 := by
      rw [hmaps.mapped]
      exact hmaps.pos
    have hi₁ : i < d₁.sb.ninodes := hi₂
    have hblocks : ∀ l, node₁.blockOf (d₁.write b v).blk l = node₁.blockOf d₁.blk l := by
      intro l
      have hslot := slotAt_write hmaps.owned hi₁ htype₂ (off / bsize) v (slotOf l)
      rwa [hmaps.mapped] at hslot
    have hbdata : d₁.sb.IsData b := by
      rw [← hmaps.mapped]
      exact (hmaps.owned.slot_data hi₁ htype₂ hblock₁).1
    have hdrop : (src.drop c).length = src.length - c := List.length_drop
    refine (ih hchunk.owned hi₂ htype₂ (by omega) (by omega)).mono ?_ ?_
    · intro hfull
      have hstep := needs_step (v := v) hmaps hblocks hclt.2.1 hpos hend
      have hfree := hmaps.nfree
      rw [nfree_write hbdata, hdrop] at hfull
      omega
    · rintro ⟨node₃, d₃⟩ ⟨hrest, hspends⟩
      refine ⟨?_, fun m hm => ?_⟩
      · have hoff : off + c = off + (src.take c).length := by rw [htake]
        rw [hoff] at hrest
        have hall := hchunk.append hrest hi htype (by omega)
        rwa [List.take_append_drop] at hall
      · have hstep := needs_step (n := src.length + m) (v := v) hmaps hblocks (c := c) (by omega)
          (by omega) (by omega)
        have hlater := hspends m (by omega)
        have hfree := hmaps.nfree
        have hoff : off + c + (src.length - c) = off + src.length := by omega
        have hlen : src.length - c + m = src.length + m - c := by omega
        rw [nfree_write hbdata, hdrop, hoff, hlen] at hlater
        omega

end Volume

end Xv6.Disk
