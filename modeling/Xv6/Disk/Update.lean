import Xv6.Disk.FileRefinement

/-!
# Changing one inode

What the operations that write an inode have in common: soundness survives, so does the property that
directory entries name inodes of a given set, the other inodes stay as they are, and few blocks are
logged.
-/

namespace Xv6.Disk

open Function (update update_self update_of_ne)

open Fs (Inum FileType)

def tDir : UInt16 := 1

namespace Volume

/-- The entries of `node`, if it is a directory, name inodes of `named`. -/
def NamesOf (named : Set Inum) (d : Volume) (node : Dinode) : Prop :=
  node.type = tDir → ∀ k, direntSize * (k + 1) ≤ node.size.toNat →
    (d.content node).get 2 (direntSize * k) ≠ 0 → (d.content node).get 2 (direntSize * k) ∈ named

def Names (named : Set Inum) (d : Volume) : Prop := ∀ i < d.sb.ninodes, d.NamesOf named (d.dinode i)

structure Touches (named : Set Inum) (i : Inum) (k : Nat) (d d' : Volume) : Prop where
  sb : d'.sb = d.sb
  sound : d'.Sound
  names : d'.Names named
  other : ∀ j < d.sb.ninodes, j ≠ i → d'.dinode j = d.dinode j
  logged : ∃ blocks : Finset Nat, blocks.card ≤ k ∧ ∀ x ∈ d'.logged,
    x ∈ d.logged ∨ x = d.iblock i ∨ x ∈ blocks ∨ ∃ c < d.sb.size, x = d.bblock c

variable {d d' : Volume} {nodes : Inum → Dinode} {i j : Inum} {node node' : Dinode} {off : Nat}
  {src : List UInt8} {named : Set Inum}

theorem NamesOf.congr (hnames : d.NamesOf named node) (htype : node'.type = node.type)
    (hsize : node'.size = node.size)
    (hcontent : ∀ o < node.size.toNat, d'.content node' o = d.content node o) :
    d'.NamesOf named node' := by
  intro hdir k hk
  rw [hsize] at hk
  have hentry := hnames (htype ▸ hdir) k hk
  have hsame : (d'.content node').get 2 (direntSize * k) = (d.content node).get 2 (direntSize * k) := by
    apply Bytes.get_congr
    intro b hb
    apply hcontent
    simp only [direntSize] at hk ⊢
    omega
  rw [hsame]
  exact hentry

theorem slotAt_addrs (haddrs : node'.addrs = node.addrs) (blk : Nat → Bytes) (s : Slot) :
    node'.slotAt blk s = node.slotAt blk s := by
  have haddr : ∀ k, node'.addr k = node.addr k := by
    intro k
    unfold Dinode.addr
    rw [haddrs]
  cases s with
  | addr k => exact haddr k
  | entry j =>
    have hind : node'.indirect = node.indirect := haddr _
    simp only [Dinode.slotAt, hind]

/-! ### Writing the fields of an inode -/

section

variable (hsound : d.Sound) (hnames : d.Names named) (hi : i < d.sb.ninodes)
include hsound hnames hi

theorem iupdate_touches (hown : d.Owned (update d.dinode i node)) (hsolid : node.type ≠ 0 → d.Solid node)
    (hname : node.type ≠ 0 → d.NamesOf named node) : Touches named i 0 d (d.iupdate i node) := by
  -- what each inode reads as afterwards, and that its slots and bytes are unchanged
  have hnode : ∀ j, (d.iupdate i node).dinode j = update d.dinode i node j := by
    intro j
    by_cases hj : j = i
    · rw [hj, dinode_iupdate, update_self]
    · rw [dinode_iupdate_of_ne hj, update_of_ne hj]
  have hsolids : ∀ j < d.sb.ninodes, (update d.dinode i node j).type ≠ 0 →
      d.Solid (update d.dinode i node j) := by
    intro j hj htype
    by_cases hji : j = i
    · rw [hji, update_self] at htype ⊢
      exact hsolid htype
    · rw [update_of_ne hji] at htype ⊢
      exact hsound.solid j hj htype
  refine
    { sb := rfl
      sound := ⟨hown.iupdate_dinode hi, fun j hj htype => ?_⟩
      names := fun j hj => ?_
      other := fun j _ hji => dinode_iupdate_of_ne hji
      logged := ⟨∅, le_rfl, fun x hx => ?_⟩ }
  · rw [hnode] at htype ⊢
    have hold := hsolids j hj htype
    refine ⟨hold.size_le, fun m hm => ?_⟩
    rw [Dinode.blockOf, slotAt_iupdate node hown hi hj htype]
    exact hold.block m hm
  · rw [hnode]
    by_cases htype : (update d.dinode i node j).type = 0
    · intro hdir
      rw [htype] at hdir
      exact absurd hdir (by decide)
    have hold : d.NamesOf named (update d.dinode i node j) := by
      by_cases hji : j = i
      · rw [hji, update_self] at htype ⊢
        exact hname htype
      · rw [update_of_ne hji]
        exact hnames j hj
    refine hold.congr rfl rfl fun o ho => ?_
    exact content_iupdate node hown hi hj htype ((hsolids j hj htype).block_at ho)
  · rcases List.mem_cons.mp hx with rfl | hmem
    · exact .inr (.inl rfl)
    · exact .inl hmem

theorem iupdate_fields_touches (htype : node.type = (d.dinode i).type)
    (hsize : node.size = (d.dinode i).size)
    (haddrs : node.addrs = (d.dinode i).addrs) : Touches named i 0 d (d.iupdate i node) := by
  have hslots := slotAt_addrs haddrs
  have hown : d.Owned (update d.dinode i node) := by
    refine hsound.owned.congr rfl rfl (fun _ _ => rfl) ?_
    rintro ⟨j, s⟩
    by_cases hj : j = i
    · subst hj
      simp only [holds, update_self, htype, hslots]
    · rw [holds_of_ne node hj]
  refine iupdate_touches hsound hnames hi hown (fun hne => ?_) fun _ => ?_
  · have hsolid := hsound.solid i hi (htype ▸ hne)
    refine ⟨by rw [hsize]; exact hsolid.size_le, fun m hm => ?_⟩
    rw [hsize] at hm
    rw [Dinode.blockOf, hslots]
    exact hsolid.block m hm
  · refine (hnames i hi).congr htype hsize fun o _ => ?_
    exact content_congr (hslots _ _) rfl

theorem iupdate_empty_touches (hempty : ∀ s, holds d.sb.ninodes d.dinode d.blk (i, s) = 0)
    (haddrs : node.addrs = fun _ => 0)
    (hsize : node.size = 0) : Touches named i 0 d (d.iupdate i node) := by
  have hown : d.Owned (update d.dinode i node) := by
    refine hsound.owned.congr rfl rfl (fun _ _ => rfl) ?_
    rintro ⟨j, s⟩
    by_cases hj : j = i
    · subst hj
      rw [hempty]
      simp only [holds, update_self, slotAt_empty node haddrs s, ite_self]
    · rw [holds_of_ne node hj]
  have hzero : node.size.toNat = 0 := by
    rw [hsize]
    rfl
  refine iupdate_touches hsound hnames hi hown (fun _ => ⟨?_, fun m hm => ?_⟩) fun _ _ k hk => ?_
  · rw [hzero]
    exact Nat.zero_le _
  · rw [hzero] at hm
    exact absurd hm (Nat.not_lt_zero _)
  · rw [hzero] at hk
    exact absurd hk (Nat.not_le_of_lt (Nat.mul_pos (by decide) (Nat.succ_pos k)))

theorem ialloc_touches (hfree : (d.dinode i).type = 0) (type : UInt16) :
    Touches named i 0 d (d.iupdate i (.fresh type)) := by
  refine iupdate_empty_touches hsound hnames hi (fun s => ?_) rfl rfl
  exact if_neg fun h => h.2 hfree

end

namespace Touches

theorem refl (hsound : d.Sound) (hnames : d.Names named) : Touches named i 0 d d where
  sb := rfl
  sound := hsound
  names := hnames
  other _ _ _ := rfl
  logged := ⟨∅, le_rfl, fun _ hx => .inl hx⟩

theorem trans {k k' : Nat} {d'' : Volume} (h : Touches named i k d d') (h' : Touches named i k' d' d'') :
    Touches named i (k + k') d d'' := by
  obtain ⟨first, hfirst, hlogged⟩ := h.logged
  obtain ⟨second, hsecond, hlogged'⟩ := h'.logged
  refine
    { sb := h'.sb.trans h.sb
      sound := h'.sound
      names := h'.names
      other := fun j hj hji => by rw [h'.other j (by rw [h.sb]; exact hj) hji, h.other j hj hji]
      logged := ⟨first ∪ second, ?_, fun x hx => ?_⟩ }
  · calc (first ∪ second).card ≤ first.card + second.card := Finset.card_union_le _ _
      _ ≤ k + k' := Nat.add_le_add hfirst hsecond
  · rcases hlogged' x hx with hold | hblock | hmem | ⟨c, hc, hmap⟩
    · rcases hlogged x hold with hold | hblock | hmem | hmap
      · exact .inl hold
      · exact .inr (.inl hblock)
      · exact .inr (.inr (.inl (Finset.mem_union_left _ hmem)))
      · exact .inr (.inr (.inr hmap))
    · refine .inr (.inl ?_)
      rw [hblock, iblock, iblock, h.sb]
    · exact .inr (.inr (.inl (Finset.mem_union_right _ hmem)))
    · refine .inr (.inr (.inr ⟨c, by rwa [h.sb] at hc, ?_⟩))
      rw [hmap, bblock, bblock, h.sb]

end Touches

/-! ### Freeing an inode -/

theorem Truncates.touches (hsound : d.Sound) (hnames : d.Names named)
    (htrunc : Truncates d.dinode i d (d.dinode i) d' node') : Touches named i 0 d d' := by
  have hnode : ∀ j < d.sb.ninodes, d'.dinode j = update d.dinode i node' j := by
    intro j hj
    by_cases hji : j = i
    · rw [hji, htrunc.self, update_self]
    · rw [update_of_ne hji, htrunc.dinode j hj hji]
  have hzero : (d'.dinode i).size.toNat = 0 := by
    rw [htrunc.self, htrunc.node_eq]
    rfl
  -- the data blocks of the other inodes keep their bytes
  have hslots : ∀ j < d.sb.ninodes, (d.dinode j).type ≠ 0 → ∀ s,
      (d.dinode j).slotAt d'.blk s = (d.dinode j).slotAt d.blk s := by
    intro j hj htype s
    exact slotAt_congr s fun hind => htrunc.blk _ (hsound.owned.indirect_data ⟨hj, htype⟩ hind)
  refine
    { sb := htrunc.sb
      sound := ⟨htrunc.owned.nodes_congr fun j hj => hnode j (htrunc.sb ▸ hj), fun j hj htype => ?_⟩
      names := fun j hj => ?_
      other := htrunc.dinode
      logged := ⟨∅, le_rfl, fun x hx => ?_⟩ }
  · rw [htrunc.sb] at hj
    by_cases hji : j = i
    · rw [hji]
      refine ⟨by rw [hzero]; exact Nat.zero_le _, fun m hm => ?_⟩
      rw [hzero] at hm
      exact absurd hm (Nat.not_lt_zero _)
    · rw [htrunc.dinode j hj hji] at htype ⊢
      have hsolid := hsound.solid j hj htype
      refine ⟨hsolid.size_le, fun m hm => ?_⟩
      rw [Dinode.blockOf, hslots j hj htype]
      exact hsolid.block m hm
  · rw [htrunc.sb] at hj
    by_cases hji : j = i
    · rw [hji]
      intro _ k hk
      rw [hzero] at hk
      exact absurd hk (Nat.not_le_of_lt (Nat.mul_pos (by decide) (Nat.succ_pos k)))
    rw [htrunc.dinode j hj hji]
    intro hdir
    have htype : (d.dinode j).type ≠ 0 := by
      rw [hdir]
      decide
    refine (hnames j hj).congr rfl rfl (fun o ho => ?_) hdir
    have hblock := (hsound.solid j hj htype).block_at ho
    exact content_congr (hslots j hj htype _) (htrunc.blk _ (hsound.owned.data_of_slot hj htype hblock))
  · rcases htrunc.logged x hx with hold | hblock | hmap
    · exact .inl hold
    · exact .inr (.inl hblock)
    · exact .inr (.inr (.inr hmap))

theorem ifree_touches (hsound : d.Sound) (hnames : d.Names named) (hi : i < d.sb.ninodes)
    (htrunc : Truncates d.dinode i d (d.dinode i) d' node') :
    Touches named i 0 d (d'.iupdate i { node' with type := 0 }) := by
  have htouches := htrunc.touches hsound hnames
  have hlast : Touches named i 0 d' (d'.iupdate i { node' with type := 0 }) := by
    refine iupdate_empty_touches htouches.sound htouches.names (by rw [htrunc.sb]; exact hi)
      (fun s => ?_) ?_ ?_
    · have hempty : (d'.dinode i).slotAt d'.blk s = 0 := by
        refine slotAt_empty _ ?_ s
        rw [htrunc.self, htrunc.node_eq]
      simp only [holds, hempty, ite_self]
    · rw [htrunc.node_eq]
    · rw [htrunc.node_eq]
  exact htouches.trans hlast

/-! ### Writing content -/

def span (off n : Nat) : Nat := (off + n - 1) / bsize + 1 - off / bsize

theorem Written.touches (hsound : d.Sound) (hnames : d.Names named)
    (hwritten : Written d.dinode i d (d.dinode i) off src d' node') (hname : d'.NamesOf named node') :
    Touches named i (span off src.length + 1) d d' := by
  refine
    { sb := hwritten.sb
      sound := hwritten.sound hsound
      names := fun j hj => ?_
      other := hwritten.dinode
      logged := ⟨insert node'.indirect ((Finset.Ico (off / bsize) ((off + src.length - 1) / bsize + 1)).image
        (node'.blockOf d'.blk)), ?_, fun x hx => ?_⟩ }
  · rw [hwritten.sb] at hj
    by_cases hji : j = i
    · rw [hji, hwritten.self rfl]
      exact hname
    · rw [hwritten.dinode j hj hji]
      intro hdir
      have htype : (d.dinode j).type ≠ 0 := by
        rw [hdir]
        decide
      refine (hnames j hj).congr rfl rfl (fun o ho => ?_) hdir
      exact hwritten.others j hj hji htype o ((hsound.solid j hj htype).block_at ho)
  · refine (Finset.card_insert_le _ _).trans (Nat.succ_le_succ ?_)
    refine Finset.card_image_le.trans ?_
    rw [Nat.card_Ico]
    exact le_rfl
  · rcases hwritten.logged x hx with hold | ⟨k, hk, hblock⟩ | hind | hinode | hmap
    · exact .inl hold
    · refine .inr (.inr (.inl (Finset.mem_insert_of_mem (Finset.mem_image.mpr ⟨_, ?_, hblock.symm⟩))))
      refine Finset.mem_Ico.mpr ⟨Nat.div_le_div_right (Nat.le_add_right ..), Nat.lt_succ_of_le ?_⟩
      exact Nat.div_le_div_right (by omega)
    · exact .inr (.inr (.inl (hind ▸ Finset.mem_insert_self ..)))
    · exact .inr (.inl hinode)
    · exact .inr (.inr (.inr hmap))

theorem writei_cases (off : Nat) (hsound : d.Sound) (hi : i < d.sb.ninodes) (htype : (d.dinode i).type ≠ 0)
    (hn : src.length < 2 ^ 32) : (∃ r, d.writei i (d.dinode i) off src = .ok (r, d.dinode i, d)) ∨
      off ≤ (d.dinode i).size.toNat ∧ Ends True
        (fun r => Written d.dinode i d (d.dinode i) off src r.2.2 r.2.1)
        (d.writei i (d.dinode i) off src) := by
  by_cases hdev : (d.dinode i).type = tDev
  · refine .inl ⟨if (d.dinode i).major = consoleMajor then src.length else -1, ?_⟩
    unfold writei
    rw [if_pos hdev]
  · by_cases hrefuse : Refuses (d.dinode i) off src.length
    · exact .inl ⟨-1, writei_refused hdev hrefuse⟩
    · refine .inr ⟨not_lt.mp fun h => hrefuse (.inl (.inl h)), ?_⟩
      refine (writei_ends (hsound.owned_update i) hi htype hdev (hsound.solid i hi htype) hn
        hrefuse).mono (fun _ => trivial) fun r hr => hr.2.1

theorem readi_cases (off : Nat) (hsolid : d.Solid node) {n : Nat} (hn : n < 2 ^ 32) :
    d.readi node off n = .error .waits ∨
      ∃ bytes, d.readi node off n = .ok (bytes, node, d) ∧ ∀ b, bytes = some b →
        off ≤ node.size.toNat ∧ b = (d.content node).slice off (min n (node.size.toNat - off)) := by
  by_cases hdev : node.type = tDev
  · unfold readi
    rw [if_pos hdev]
    by_cases hconsole : node.major = consoleMajor
    · rw [if_pos hconsole]
      exact .inl rfl
    · rw [if_neg hconsole]
      exact .inr ⟨none, rfl, nofun⟩
  · by_cases hoff : node.size.toNat < off
    · refine .inr ⟨none, ?_, nofun⟩
      have hout : outside node off n := .inl hoff
      unfold readi
      rw [if_neg hdev, if_pos hout]
    · have hsize := node.size.toNat_lt
      refine .inr ⟨_, readi_eq hsolid hdev (by omega) hn, fun b hb => ⟨not_lt.mp hoff, ?_⟩⟩
      split_ifs at hb
      exact (Option.some.inj hb).symm

theorem span_chunk {n : Nat} (hn : n ≤ Fs.filewriteMax) : span off n + 1 ≤ 5 := by
  have hmax : Fs.filewriteMax = 1536 := by decide
  unfold span
  simp only [bsize]
  omega

theorem span_dirent (hoff : direntSize ∣ off) : span off direntSize + 1 = 2 := by
  unfold span
  simp only [bsize, direntSize] at hoff ⊢
  omega

theorem Written.namesOf_dirent {de : Fs.Dirent} (hname : d.NamesOf named (d.dinode i)) (hoff : direntSize ∣ off)
    (hinum : de.inum ≠ 0 → de.inum % 2 ^ 16 ∈ named) (hend : off ≤ (d.dinode i).size.toNat)
    (hwritten : Written d.dinode i d (d.dinode i) off (direntBytes de) d' node') :
    d'.NamesOf named node' := by
  have hlen := length_direntBytes de
  obtain ⟨m, rfl⟩ := hoff
  intro hdir k hk
  rw [hwritten.type] at hdir
  rw [hwritten.size, hlen] at hk
  by_cases hkm : k = m
  · -- the entry just written; the field has 16 bits
    subst hkm
    have hread : (d'.content node').get 2 (direntSize * k) = Bytes.get 2 (Bytes.leByte de.inum) 0 := by
      apply Bytes.get_congr
      intro b hb
      have hb' : b < direntSize := hb.trans (by decide)
      rw [hwritten.inside b (by rw [hlen]; exact hb'), Nat.zero_add]
      rw [List.getD_eq_getElem _ _ (by rw [hlen]; exact hb')]
      simp only [direntBytes, List.getElem_map, List.getElem_range, if_pos hb]
    rw [hread, Bytes.get_leByte, Nat.pow_zero, Nat.div_one]
    refine fun hne => hinum fun hzero => hne ?_
    rw [hzero, Nat.zero_mod]
  · have hfits : direntSize * (k + 1) ≤ (d.dinode i).size.toNat := by
      simp only [direntSize] at hk hend ⊢
      omega
    have hsame : (d'.content node').get 2 (direntSize * k)
        = (d.content (d.dinode i)).get 2 (direntSize * k) := by
      apply Bytes.get_congr
      intro b hb
      apply hwritten.outside
      · simp only [direntSize] at hfits ⊢
        omega
      · rw [hlen]
        simp only [direntSize]
        omega
    rw [hsame]
    exact hname hdir k hfits

end Volume

end Xv6.Disk
