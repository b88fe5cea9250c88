import Xv6.Disk.Format
import Xv6.Fs.OneCopy

/-!
# `readi` and `writei` refine a byte array

The abstract file is a list of bytes; reading is `take` and `drop`, writing is `overwrite`.
-/

namespace Xv6.Disk

open Function (update update_self update_of_ne)

open Fs (Inum overwrite)

namespace Volume

variable {d d' : Volume} {nodes : Inum → Dinode} {i j : Inum} {node node' : Dinode} {off n : Nat}
  {src : List UInt8}

/-! ### Writing the inode back -/

theorem slotAt_size (size : UInt32) (blk : Nat → Bytes) (s : Slot) :
    ({ node with size := size } : Dinode).slotAt blk s = node.slotAt blk s := by
  cases s <;> rfl

theorem Owned.data_of_slot (hown : d.Owned nodes) (hj : j < d.sb.ninodes) (htype : (nodes j).type ≠ 0)
    {s : Slot} (hs : (nodes j).slotAt d.blk s ≠ 0) : d.sb.IsData ((nodes j).slotAt d.blk s) := by
  have hplace : holds d.sb.ninodes nodes d.blk (j, s) = (nodes j).slotAt d.blk s :=
    if_pos ⟨hj, htype⟩
  rw [← hplace] at hs ⊢
  exact hown.owns.data _ hs

theorem slotAt_iupdate (v : Dinode) (hown : d.Owned nodes) (hi : i < d.sb.ninodes) (hj : j < d.sb.ninodes)
    (htype : (nodes j).type ≠ 0) (s : Slot) :
    (nodes j).slotAt (d.iupdate i v).blk s = (nodes j).slotAt d.blk s :=
  slotAt_congr s fun hind => blk_iupdate hown.ok hi (hown.indirect_data ⟨hj, htype⟩ hind)

theorem content_iupdate (v : Dinode) (hown : d.Owned nodes) (hi : i < d.sb.ninodes)
    (hj : j < d.sb.ninodes) (htype : (nodes j).type ≠ 0) {o : Nat}
    (hblock : (nodes j).blockOf d.blk (o / bsize) ≠ 0) :
    (d.iupdate i v).content (nodes j) o = d.content (nodes j) o :=
  content_congr (slotAt_iupdate v hown hi hj htype _)
    (blk_iupdate hown.ok hi (hown.data_of_slot hj htype hblock))

/-! ### The result of `writei` -/

structure Written (nodes : Inum → Dinode) (i : Inum) (d : Volume) (node : Dinode) (off : Nat)
    (src : List UInt8) (d' : Volume) (node' : Dinode) : Prop where
  sb : d'.sb = d.sb
  owned : d'.Owned (update nodes i node')
  type : node'.type = node.type
  nlink : node'.nlink = node.nlink
  size : node'.size.toNat = max node.size.toNat (off + src.length)
  self : d.dinode i = node → d'.dinode i = node'
  dinode : ∀ j < d.sb.ninodes, j ≠ i → d'.dinode j = d.dinode j
  solid : d'.Solid node'
  inside : ∀ k < src.length, d'.content node' (off + k) = src.getD k 0
  outside : ∀ o < node.size.toNat, ¬ (off ≤ o ∧ o < off + src.length) →
    d'.content node' o = d.content node o
  slots : ∀ j < d.sb.ninodes, j ≠ i → (nodes j).type ≠ 0 → ∀ s,
    (nodes j).slotAt d'.blk s = (nodes j).slotAt d.blk s
  others : ∀ j < d.sb.ninodes, j ≠ i → (nodes j).type ≠ 0 → ∀ o,
    (nodes j).blockOf d.blk (o / bsize) ≠ 0 → d'.content (nodes j) o = d.content (nodes j) o
  logged : ∀ x ∈ d'.logged, x ∈ d.logged ∨
    (∃ k < src.length, x = node'.blockOf d'.blk ((off + k) / bsize)) ∨
      x = node'.indirect ∨ x = d.iblock i ∨ ∃ c < d.sb.size, x = d.bblock c

theorem Written.of_wrote (hown : d.Owned (update nodes i node)) (hi : i < d.sb.ninodes)
    (htype : node.type ≠ 0) (hsolid : d.Solid node) (hoff : off ≤ node.size.toNat)
    (hend : off + src.length ≤ maxfile * bsize) (hwrote : Wrote nodes i d node off src d' node') :
    Written nodes i d node off src (if 0 < src.length ∧ node'.size.toNat < off + src.length
        then d'.iupdate i { node' with size := .ofNat (off + src.length) } else d')
      (if 0 < src.length ∧ node'.size.toNat < off + src.length
        then { node' with size := .ofNat (off + src.length) } else node') := by
  have hi' : i < d'.sb.ninodes := by
    rw [hwrote.sb]
    exact hi
  have htype' : node'.type ≠ 0 := by
    rw [hwrote.type_eq]
    exact htype
  have hsize' : node'.size.toNat = node.size.toNat := by rw [hwrote.size_eq]
  have hnlink' : node'.nlink = node.nlink := by
    have hfields := congrArg Dinode.nlink hwrote.fields
    exact hfields
  have hblock' : ∀ o, o < node.size.toNat ∨ off ≤ o ∧ o < off + src.length →
      node'.blockOf d'.blk (o / bsize) ≠ 0 := by
    rintro o (hold | ⟨hle, hlt⟩)
    · rw [hwrote.toGrows.blockOf (hsolid.block_at hold)]
      exact hsolid.block_at hold
    · have hin := (hwrote.inside (o - off) (by omega)).1
      rwa [Nat.add_sub_cancel' hle] at hin
  have hother : ∀ j < d.sb.ninodes, j ≠ i → (nodes j).type ≠ 0 →
      (∀ s, (nodes j).slotAt d'.blk s = (nodes j).slotAt d.blk s) ∧
      ∀ o, (nodes j).blockOf d.blk (o / bsize) ≠ 0 → d'.content (nodes j) o = d.content (nodes j) o := by
    intro j hj hne hjtype
    obtain ⟨hslots, hblk⟩ := hwrote.toGrows.other hown hi htype hne hj hjtype
    exact ⟨hslots, fun o hblock => content_congr (hslots _) (hblk _ hblock)⟩
  by_cases hgrow : 0 < src.length ∧ node'.size.toNat < off + src.length
  · rw [if_pos hgrow, if_pos hgrow]
    generalize hnode : ({ node' with size := .ofNat (off + src.length) } : Dinode) = last
    have hslots : ∀ blk s, last.slotAt blk s = node'.slotAt blk s := by
      subst hnode
      exact fun blk s => slotAt_size _ blk s
    have hlastType : last.type ≠ 0 := by
      subst hnode
      exact htype'
    have hlastSize : last.size.toNat = off + src.length := by
      subst hnode
      change (UInt32.ofNat (off + src.length)).toNat = _
      rw [UInt32.toNat_ofNat']
      refine Nat.mod_eq_of_lt (hend.trans_lt ?_)
      decide
    have howned : d'.Owned (update nodes i last) := by
      refine hwrote.owned.congr rfl rfl (fun _ _ => rfl) ?_
      rintro ⟨j, s⟩
      by_cases hj : j = i
      · subst hj
        rw [holds_self nodes hi' hlastType, holds_self nodes hi' htype', hslots]
      · rw [holds_of_ne last hj, holds_of_ne node' hj]
    have hlastSlot : ∀ s, last.slotAt (d'.iupdate i last).blk s = node'.slotAt d'.blk s := by
      intro s
      have hkeep := slotAt_iupdate last howned hi' hi' (by rwa [update_self]) s
      rw [update_self] at hkeep
      rw [hkeep, hslots]
    have hcontent : ∀ o, node'.blockOf d'.blk (o / bsize) ≠ 0 →
        (d'.iupdate i last).content last o = d'.content node' o := by
      intro o hblock
      refine content_congr (hlastSlot _) (blk_iupdate howned.ok hi' ?_)
      exact (hwrote.owned.slot_data hi' htype' hblock).1
    refine
      { sb := hwrote.sb
        owned := howned.iupdate hi'
        type := by subst hnode; exact hwrote.type_eq
        nlink := by subst hnode; exact hnlink'
        size := by omega
        self := fun _ => dinode_iupdate ..
        dinode := fun j hj hne => by rw [dinode_iupdate_of_ne hne, hwrote.dinode j hj]
        solid := ⟨by omega, fun m hm => ?_⟩
        inside := fun k hk => ?_
        outside := fun o ho hnot => ?_
        slots := fun j hj hne hjtype s => ?_
        others := fun j hj hne hjtype o hblock => ?_
        logged := fun x hx => ?_ }
    · have hb := hblock' (m * bsize) (by omega)
      rw [Nat.mul_div_cancel m (by decide)] at hb
      rw [Dinode.blockOf, hlastSlot]
      exact hb
    · rw [hcontent _ (hblock' _ (by omega)), (hwrote.inside k hk).2]
    · rw [hcontent _ (hblock' _ (.inl ho))]
      exact hwrote.outside o (ho.trans_le hsolid.size_le) hnot (hsolid.block_at ho)
    · have hkeep := slotAt_iupdate last hwrote.owned hi' (by rw [hwrote.sb]; exact hj)
        (by rwa [update_of_ne hne]) s
      rw [update_of_ne hne] at hkeep
      rw [hkeep, (hother j hj hne hjtype).1]
    · have hslot := (hother j hj hne hjtype).1 (slotOf (o / bsize))
      have hkeep := content_iupdate last hwrote.owned hi' (by rw [hwrote.sb]; exact hj)
        (by rwa [update_of_ne hne]) (o := o) (by rw [update_of_ne hne, Dinode.blockOf, hslot]; exact hblock)
      rw [update_of_ne hne] at hkeep
      rw [hkeep, (hother j hj hne hjtype).2 o hblock]
    · rcases List.mem_cons.mp hx with rfl | hold
      · refine .inr (.inr (.inr (.inl ?_)))
        rw [iblock, iblock, hwrote.sb]
      · rcases hwrote.logged x hold with h | ⟨k, hk, h⟩ | ⟨h, -⟩ | h
        · exact .inl h
        · refine .inr (.inl ⟨k, hk, ?_⟩)
          rw [h, Dinode.blockOf, Dinode.blockOf, hlastSlot]
        · refine .inr (.inr (.inl ?_))
          rw [h]
          exact (hslots d'.blk (.addr (Fin.last ndirect))).symm
        · exact .inr (.inr (.inr (.inr h)))
  · rw [if_neg hgrow, if_neg hgrow]
    -- the bytes lie below the old end, so no block was missing
    have hlen : off + src.length ≤ node.size.toNat := by omega
    have hsame : node' = node :=
      hwrote.hit fun k hk => hsolid.block_at (by omega)
    refine
      { sb := hwrote.sb
        owned := hwrote.owned
        type := hwrote.type_eq
        nlink := hnlink'
        size := by omega
        self := fun hself => by rw [hwrote.dinode i hi, hself, hsame]
        dinode := fun j hj _ => hwrote.dinode j hj
        solid := ⟨by rw [hsize']; exact hsolid.size_le, fun m hm => ?_⟩
        inside := fun k hk => (hwrote.inside k hk).2
        outside := fun o ho hnot =>
          hwrote.outside o (ho.trans_le hsolid.size_le) hnot (hsolid.block_at ho)
        slots := fun j hj hne hjtype => (hother j hj hne hjtype).1
        others := fun j hj hne hjtype => (hother j hj hne hjtype).2
        logged := fun x hx => ?_ }
    · rw [hsize'] at hm
      rw [hwrote.toGrows.blockOf (hsolid.block m hm)]
      exact hsolid.block m hm
    · rcases hwrote.logged x hx with h | h | ⟨h, -⟩ | h
      · exact .inl h
      · exact .inr (.inl h)
      · exact .inr (.inr (.inl h))
      · exact .inr (.inr (.inr (.inr h)))

def Refuses (node : Dinode) (off n : Nat) : Prop :=
  outside node off n ∨ maxfile * bsize < (off + n) % 2 ^ 32

instance (node : Dinode) (off n : Nat) : Decidable (Refuses node off n) :=
  inferInstanceAs (Decidable (_ ∨ _))

theorem writei_refused (hdev : node.type ≠ tDev) (hrefuse : Refuses node off src.length) :
    d.writei i node off src = .ok (-1, node, d) := by
  unfold writei
  simp only [hdev, if_false]
  by_cases hout : outside node off src.length
  · rw [if_pos hout]
  · rw [if_neg hout, if_pos (hrefuse.resolve_left hout)]

theorem Spends.iupdate {k : Nat} {size : UInt32} (hspends : Spends d node off k d' node')
    (hown : d'.Owned (update nodes i node')) (hi : i < d'.sb.ninodes) (htype : node'.type ≠ 0) :
    Spends d node off k (d'.iupdate i { node' with size := size }) { node' with size := size } := by
  have hblocks : ∀ m, ({ node' with size := size } : Dinode).blockOf
      (d'.iupdate i { node' with size := size }).blk m = node'.blockOf d'.blk m := by
    intro m
    have hkeep := slotAt_iupdate { node' with size := size } hown hi hi (by rwa [update_self]) (slotOf m)
    rw [update_self] at hkeep
    exact (slotAt_size size _ _).trans hkeep
  have hfree : (d'.iupdate i { node' with size := size }).nfree = d'.nfree := by
    unfold nfree
    simp only [bit_iupdate hown.ok hi]
    rfl
  intro m hm
  have hbefore := hspends m hm
  rw [hfree]
  unfold needs at hbefore ⊢
  simp only [hblocks]
  exact hbefore

theorem writei_ends (hown : d.Owned (update nodes i node)) (hi : i < d.sb.ninodes)
    (htype : node.type ≠ 0) (hdev : node.type ≠ tDev) (hsolid : d.Solid node)
    (hn : src.length < 2 ^ 32) (haccept : ¬ Refuses node off src.length) :
    Ends (d.nfree < needs d node off src.length)
      (fun r => r.1 = (src.length : Int) ∧ Written nodes i d node off src r.2.2 r.2.1 ∧
        Spends d node off src.length r.2.2 r.2.1)
      (d.writei i node off src) := by
  have hsize := hsolid.size_le
  have hmax : maxfile * bsize < 2 ^ 32 := by decide
  have hout : ¬ outside node off src.length := fun h => haccept (Or.inl h)
  have hbig : ¬ maxfile * bsize < (off + src.length) % 2 ^ 32 := fun h => haccept (.inr h)
  have hoff : off ≤ node.size.toNat := not_lt.mp fun h => hout (.inl h)
  have hend : off + src.length ≤ maxfile * bsize := by
    have hwrap : ¬ (off + src.length) % 2 ^ 32 < off := fun h => hout (.inr h)
    omega
  unfold writei
  simp only [hdev, if_false]
  rw [if_neg hout, if_neg hbig]
  refine .bind (writeiLoop_ends src.length hown hi htype le_rfl hend) ?_
  rintro ⟨node₁, d₁⟩ ⟨hwrote, hspends⟩
  have hwritten := Written.of_wrote hown hi htype hsolid hoff hend hwrote
  dsimp only at hwritten ⊢
  by_cases hgrow : 0 < src.length ∧ node₁.size.toNat < off + src.length
  · rw [if_pos hgrow] at hwritten ⊢
    rw [if_pos hgrow] at hwritten
    refine ⟨rfl, hwritten, hspends.iupdate hwrote.owned ?_ ?_⟩
    · rw [hwrote.sb]
      exact hi
    · rw [hwrote.type_eq]
      exact htype
  · rw [if_neg hgrow] at hwritten ⊢
    rw [if_neg hgrow] at hwritten
    exact ⟨rfl, hwritten, hspends⟩

/-! ### The abstract file -/

@[simp]
theorem length_file (d : Volume) (node : Dinode) : (d.file node).length = node.size.toNat := by
  simp [file]

theorem getElem_file (d : Volume) (node : Dinode) (k : Nat) (hk : k < (d.file node).length) :
    (d.file node)[k] = d.content node k := by
  simp [file, Bytes.slice]

/-- `writei` replaces the bytes from `off` on and extends the file as far as they reach. -/
theorem Written.file_eq (hwritten : Written nodes i d node off src d' node')
    (hoff : off ≤ node.size.toNat) : d'.file node' = overwrite (d.file node) off src := by
  have hsize := hwritten.size
  unfold overwrite
  apply List.ext_getElem
  · simp [hsize]
    omega
  · intro k hk _
    rw [getElem_file]
    have hk' : k < node'.size.toNat := by simpa using hk
    by_cases hbefore : k < off
    · rw [List.getElem_append_left (by simp; omega), List.getElem_append_left (by simp; omega),
        List.getElem_take, getElem_file]
      exact hwritten.outside k (by omega) (by omega)
    by_cases hin : k < off + src.length
    · rw [List.getElem_append_left (by simp; omega), List.getElem_append_right (by simp; omega)]
      have hbyte := hwritten.inside (k - off) (by omega)
      rw [Nat.add_sub_cancel' (not_lt.mp hbefore)] at hbyte
      rw [hbyte, List.getD_eq_getElem _ _ (by omega)]
      congr 1
      simp
      omega
    · rw [List.getElem_append_right (by simp; omega), List.getElem_drop, getElem_file]
      rw [hwritten.outside k (by omega) (by omega)]
      congr 1
      simp
      omega

theorem Written.sound (hsound : d.Sound) (hwritten : Written d.dinode i d (d.dinode i) off src d' node') :
    d'.Sound := by
  have hnodes : ∀ j < d.sb.ninodes, d'.dinode j = update d.dinode i node' j := by
    intro j hj
    by_cases hji : j = i
    · rw [hji, update_self, hwritten.self rfl]
    · rw [update_of_ne hji, hwritten.dinode j hj hji]
  refine ⟨hwritten.owned.nodes_congr fun j hj => ?_, fun j hj htype => ?_⟩
  · rw [hwritten.sb] at hj
    exact hnodes j hj
  · rw [hwritten.sb] at hj
    by_cases hji : j = i
    · rw [hji, hwritten.self rfl]
      exact hwritten.solid
    · rw [hwritten.dinode j hj hji] at htype ⊢
      have hsolid := hsound.solid j hj htype
      refine ⟨hsolid.size_le, fun m hm => ?_⟩
      rw [Dinode.blockOf, hwritten.slots j hj hji htype]
      exact hsolid.block m hm

theorem Written.other_file (hsound : d.Sound)
    (hwritten : Written d.dinode i d (d.dinode i) off src d' node') (hj : j < d.sb.ninodes)
    (hji : j ≠ i) (htype : (d.dinode j).type ≠ 0) : d'.file (d'.dinode j) = d.file (d.dinode j) := by
  rw [hwritten.dinode j hj hji]
  apply Bytes.slice_congr
  intro k hk
  exact hwritten.others j hj hji htype _ ((hsound.solid j hj htype).block_at (by omega))

theorem outside_iff (hn : n < 2 ^ 32) (hoff : off < 2 ^ 32) :
    outside node off n ↔ node.size.toNat < off ∨ 2 ^ 32 ≤ off + n := by
  unfold outside
  omega

theorem Sound.readi (hsound : d.Sound) (hi : i < d.sb.ninodes) (htype : (d.dinode i).type ≠ 0)
    (hdev : (d.dinode i).type ≠ tDev) (hoff : off < 2 ^ 32) (hn : n < 2 ^ 32) : d.readi (d.dinode i) off n =
      .ok (if (d.dinode i).size.toNat < off ∨ 2 ^ 32 ≤ off + n then none
        else some (((d.file (d.dinode i)).drop off).take n), d.dinode i, d) := by
  rw [readi_eq (hsound.solid i hi htype) hdev hoff hn]
  simp only [outside_iff hn hoff, file, Bytes.take_drop_slice]

/-- **Files are byte arrays.** On a file system whose inodes own their blocks, none missing, `readi`
returns the bytes of the file that exist in the range asked for and changes nothing; `writei` refuses
offsets beyond the end and ends beyond 32 bits or the largest file, changing nothing, and otherwise,
if there are enough free blocks, replaces the bytes of the range, as every later `readi` sees, and
leaves the content of every other inode alone. -/
theorem readi_writei_refine (d : Volume) (hsound : d.Sound) (i : Inum) (hi : i < d.sb.ninodes)
    (htype : (d.dinode i).type ≠ 0) (hdev : (d.dinode i).type ≠ tDev) (off : Nat) (hoff : off < 2 ^ 32) :
    (∀ n < 2 ^ 32, d.readi (d.dinode i) off n =
      .ok (if (d.dinode i).size.toNat < off ∨ 2 ^ 32 ≤ off + n then none
        else some (((d.file (d.dinode i)).drop off).take n), d.dinode i, d)) ∧
    ∀ src : List UInt8, src.length < 2 ^ 32 →
      if (d.dinode i).size.toNat < off ∨ 2 ^ 32 ≤ off + src.length ∨ maxfile * bsize < off + src.length
      then d.writei i (d.dinode i) off src = .ok (-1, d.dinode i, d)
      else needs d (d.dinode i) off src.length ≤ d.nfree →
        ∃ d', d.writei i (d.dinode i) off src = .ok (src.length, d'.dinode i, d') ∧ d'.Sound ∧
          (d'.dinode i).size.toNat = max (d.dinode i).size.toNat (off + src.length) ∧
          (∀ o < 2 ^ 32, ∀ n < 2 ^ 32, d'.readi (d'.dinode i) o n =
            .ok (if (d'.dinode i).size.toNat < o ∨ 2 ^ 32 ≤ o + n then none
              else some (((overwrite (d.file (d.dinode i)) off src).drop o).take n),
              d'.dinode i, d')) ∧
          ∀ j < d.sb.ninodes, j ≠ i → (d.dinode j).type ≠ 0 →
            d'.dinode j = d.dinode j ∧ d'.file (d'.dinode j) = d.file (d.dinode j) := by
  refine ⟨fun n hn => hsound.readi hi htype hdev hoff hn, fun src hn => ?_⟩
  have hmax : maxfile * bsize < 2 ^ 32 := by decide
  split_ifs with hrefuse
  · refine writei_refused hdev ?_
    unfold Refuses outside
    omega
  have haccept : ¬ Refuses (d.dinode i) off src.length := by
    unfold Refuses outside
    omega
  intro hfree
  obtain ⟨⟨r, node', d'⟩, hrun, hr, hwritten, -⟩ :=
    (writei_ends (hsound.owned_update i) hi htype hdev (hsound.solid i hi htype) hn
      haccept).exists_ok (not_lt.mpr hfree)
  have hself : d'.dinode i = node' := hwritten.self rfl
  have hfile : d'.file (d'.dinode i) = overwrite (d.file (d.dinode i)) off src := by
    rw [hself]
    exact hwritten.file_eq (by omega)
  have hsound' := hwritten.sound hsound
  have htype' : (d'.dinode i).type = (d.dinode i).type := by
    rw [hself]
    exact hwritten.type
  refine ⟨d', ?_, hsound', ?_, fun o ho n hn => ?_, fun j hj hji hjtype => ?_⟩
  · rw [hrun, hself]
    dsimp only at hr ⊢
    rw [hr]
  · rw [hself]
    exact hwritten.size
  · rw [← hfile]
    exact hsound'.readi (by rw [hwritten.sb]; exact hi) (by rwa [htype']) (by rwa [htype']) ho hn
  · exact ⟨hwritten.dinode j hj hji, hwritten.other_file hsound hj hji hjtype⟩

def abcVolume : Volume :=
  .format { size := 42, nblocks := 7, ninodes := 8, nlog := 30, logstart := 2, inodestart := 32,
            bmapstart := 34 }
    (fun i => if i = 1 then
        { Dinode.fresh 2 with nlink := 1, size := 3, addrs := fun k => if k = 0 then 35 else 0 }
      else .fresh 0)
    (fun b => b < 36) fun _ => Bytes.ofList [97, 98, 99]

theorem readi_writei_refine_abc :
    ∃ d', abcVolume.writei 1 (abcVolume.dinode 1) 2 [120, 121] = .ok (2, d'.dinode 1, d') ∧
      d'.readi (d'.dinode 1) 1 10 = .ok (some [98, 120, 121], d'.dinode 1, d') := by
  have hchecked : abcVolume.Checked [35] := by decide +kernel
  obtain ⟨-, hwrite⟩ := readi_writei_refine abcVolume hchecked.sound 1 (by decide) (by decide +kernel)
    (by decide +kernel) 2 (by decide)
  have hsize : (abcVolume.dinode 1).size.toNat = 3 := by decide +kernel
  have hlegal := hwrite [120, 121] (by decide)
  rw [if_neg (by rw [hsize]; decide)] at hlegal
  obtain ⟨d', hrun, -, hsize', hread, -⟩ := hlegal (by decide +kernel)
  refine ⟨d', hrun, ?_⟩
  have hbytes : ((overwrite (abcVolume.file (abcVolume.dinode 1)) 2 [120, 121]).drop 1).take 10
      = [98, 120, 121] := by decide +kernel
  rw [hread 1 (by decide) 10 (by decide), hbytes, if_neg]
  rw [hsize', hsize]
  decide

end Volume

end Xv6.Disk
