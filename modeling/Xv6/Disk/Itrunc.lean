import Xv6.Disk.Bmap

/-!
# Freeing the blocks of an inode

`itrunc` frees the direct blocks, the entries of the indirect block and that block, one after the
other, and only then writes the inode. In between, the blocks already freed are in places that count
as empty.
-/

namespace Xv6.Disk

open Function (update update_self update_of_ne)

open Fs (Inum)

namespace Volume

variable {d d' d'' : Volume} {nodes nodes' : Inum → Dinode} {i : Inum} {node node' : Dinode}
  {held held' held'' : Place → Nat}

structure Released (d : Volume) (held : Place → Nat) (d' : Volume) (held' : Place → Nat) :
    Prop extends Stable d d' where
  fixed : ∀ b < d.sb.dataStart, b < d.sb.size → d'.bit b = true
  owns : Owns held' d.sb.IsData (fun b => d'.bit b = true)
  blk : ∀ x, d.sb.IsData x → d'.blk x = d.blk x
  logged : ∀ x ∈ d'.logged, x ∈ d.logged ∨ ∃ c < d.sb.size, x = d.bblock c

namespace Released

theorem refl (hfixed : ∀ b < d.sb.dataStart, b < d.sb.size → d.bit b = true)
    (howns : Owns held d.sb.IsData (fun b => d.bit b = true)) : Released d held d held where
  toStable := .refl d
  fixed := hfixed
  owns := howns
  blk _ _ := rfl
  logged _ hx := .inl hx

theorem trans (h : Released d held d' held') (h' : Released d' held' d'' held'') :
    Released d held d'' held'' where
  toStable := h.toStable.trans h'.toStable
  fixed b hb hlt := h'.fixed b (by rw [h.sb]; exact hb) (by rw [h.sb]; exact hlt)
  owns := by
    have howns := h'.owns
    rwa [h.sb] at howns
  blk x hx := (h'.blk x (by rw [h.sb]; exact hx)).trans (h.blk x hx)
  logged x hx := by
    rcases h'.logged x hx with hmem | ⟨c, hc, rfl⟩
    · exact h.logged x hmem
    · refine .inr ⟨c, by rwa [h.sb] at hc, ?_⟩
      unfold bblock
      rw [h.sb]

theorem congr (h : Released d held d' held') (heq : ∀ x, held'' x = held' x) :
    Released d held d' held'' :=
  { h with owns := h.owns.congr heq fun _ _ => .rfl }

theorem bfree (hok : d.sb.Ok) (hsuper : d.sb = .read (d.blk 1))
    (hfixed : ∀ b < d.sb.dataStart, b < d.sb.size → d.bit b = true)
    (howns : Owns held d.sb.IsData (fun b => d.bit b = true)) {x : Place} (hx : held x ≠ 0) :
    ∃ d', d.bfree (held x) = .ok d' ∧ Released d held d' (update held x 0) := by
  have hdata := howns.data x hx
  obtain ⟨d', hrun, hfrees⟩ := bfree_frees hok hsuper hdata.2 (howns.used_of_holds hx)
  refine ⟨d', hrun, hfrees.toStable, fun b hb hlt => ?_, ?_, hfrees.blk, fun y hy => ?_⟩
  · have hne : b ≠ held x := Nat.ne_of_lt (hb.trans_le hdata.1)
    rw [hfrees.bit, hfixed b hb hlt]
    simp [hne]
  · refine (howns.give hx).congr (fun _ => rfl) fun b _ => ?_
    rw [hfrees.bit]
    simp
  · rw [hfrees.logged, List.mem_cons] at hy
    rcases hy with rfl | hold
    · exact .inr ⟨held x, hdata.2, rfl⟩
    · exact .inl hold

end Released

def emptied (held : Place → Nat) (xs : List Place) : Place → Nat := fun x =>
  if x ∈ xs then 0 else held x

theorem freeEach_ok {addr : Volume → Nat → Nat} {place : Nat → Place} (ks : List Nat)
    (hok : d.sb.Ok) (hsuper : d.sb = .read (d.blk 1))
    (hfixed : ∀ b < d.sb.dataStart, b < d.sb.size → d.bit b = true)
    (howns : Owns held d.sb.IsData (fun b => d.bit b = true)) (hnodup : (ks.map place).Nodup)
    (haddr : ∀ d', (∀ x, d.sb.IsData x → d'.blk x = d.blk x) → ∀ k ∈ ks, addr d' k = held (place k)) :
    ∃ d', freeEach addr ks d = .ok d' ∧ Released d held d' (emptied held (ks.map place)) := by
  induction ks generalizing d held with
  | nil => exact ⟨d, rfl, (Released.refl hfixed howns).congr fun x => by simp [emptied]⟩
  | cons k ks ih =>
    have hhead : addr d k = held (place k) := haddr d (fun _ _ => rfl) k List.mem_cons_self
    obtain ⟨hnotin, hrest⟩ := List.nodup_cons.mp hnodup
    -- whether or not there is a block, the place is empty afterwards
    obtain ⟨d₁, hrun, hfirst⟩ : ∃ d₁, d.bfreeAddr (addr d k) = .ok d₁ ∧
          Released d held d₁ (update held (place k) 0) := by
      by_cases hzero : addr d k = 0
      · refine ⟨d, if_pos hzero, (Released.refl hfixed howns).congr fun x => ?_⟩
        by_cases hx : x = place k
        · rw [hx, update_self, ← hhead, hzero]
        · rw [update_of_ne hx]
      · obtain ⟨d₁, hfree, hreleased⟩ :=
          Released.bfree hok hsuper hfixed howns (x := place k) (by rwa [← hhead])
        exact ⟨d₁, by rw [bfreeAddr, if_neg hzero, hhead, hfree], hreleased⟩
    have hsb := hfirst.sb
    have hnext : ∀ d', (∀ x, d₁.sb.IsData x → d'.blk x = d₁.blk x) →
        ∀ l ∈ ks, addr d' l = update held (place k) 0 (place l) := by
      intro d' hblk l hl
      have hne : place l ≠ place k := by
        intro heq
        exact hnotin (heq ▸ List.mem_map_of_mem hl)
      rw [update_of_ne hne]
      refine haddr d' (fun x hx => ?_) l (List.mem_cons_of_mem k hl)
      rw [hblk x (by rw [hsb]; exact hx), hfirst.blk x hx]
    obtain ⟨d₂, hloop, hlast⟩ := ih (by rw [hsb]; exact hok)
      (by rw [hsb, hfirst.super]; exact hsuper) (by rw [hsb]; exact hfirst.fixed)
      (by rw [hsb]; exact hfirst.owns) hrest hnext
    refine ⟨d₂, ?_, (hfirst.trans hlast).congr fun x => ?_⟩
    · unfold freeEach
      rw [hrun]
      exact hloop
    · unfold emptied
      by_cases hx : x = place k
      · simp [hx]
      · simp [hx]

namespace Owned

theorem nodes_congr (hown : d.Owned nodes) (hnodes : ∀ j < d.sb.ninodes, nodes' j = nodes j) :
    d.Owned nodes' := by
  refine hown.congr rfl rfl (fun _ _ => rfl) fun x => ?_
  unfold holds
  by_cases hx : x.1 < d.sb.ninodes
  · rw [hnodes x.1 hx]
  · rw [if_neg fun h => hx h.1, if_neg fun h => hx h.1]

theorem indirect_data (hown : d.Owned nodes) {j : Inum}
    (hj : j < d.sb.ninodes ∧ (nodes j).type ≠ 0) (hind : (nodes j).indirect ≠ 0) :
    d.sb.IsData (nodes j).indirect := by
  have hplace : holds d.sb.ninodes nodes d.blk (j, .addr (Fin.last ndirect)) = (nodes j).indirect :=
    if_pos hj
  rw [← hplace] at hind ⊢
  exact hown.owns.data _ hind

theorem iupdate (hown : d.Owned nodes) (hi : i < d.sb.ninodes) : (d.iupdate i node).Owned nodes := by
  refine hown.congr rfl (super_iupdate hown.ok) (fun c _ => bit_iupdate hown.ok hi c) fun x => ?_
  unfold holds
  by_cases hx : x.1 < d.sb.ninodes ∧ (nodes x.1).type ≠ 0
  · rw [if_pos hx, if_pos hx]
    exact slotAt_congr x.2 fun hind => blk_iupdate hown.ok hi (hown.indirect_data hx hind)
  · rw [if_neg hx, if_neg hx]

theorem iupdate_dinode (hown : d.Owned (update d.dinode i node)) (hi : i < d.sb.ninodes) :
    (d.iupdate i node).Owned (d.iupdate i node).dinode := by
  refine (hown.iupdate hi).nodes_congr fun j _ => ?_
  by_cases hj : j = i
  · rw [hj, dinode_iupdate, update_self]
  · rw [dinode_iupdate_of_ne hj, update_of_ne hj]

end Owned

structure Truncates (nodes : Inum → Dinode) (i : Inum) (d : Volume) (node : Dinode) (d' : Volume)
    (node' : Dinode) : Prop where
  node_eq : node' = { node with addrs := fun _ => 0, size := 0 }
  sb : d'.sb = d.sb
  owned : d'.Owned (update nodes i node')
  self : d'.dinode i = node'
  dinode : ∀ j < d.sb.ninodes, j ≠ i → d'.dinode j = d.dinode j
  blk : ∀ x, d.sb.IsData x → d'.blk x = d.blk x
  logged : ∀ x ∈ d'.logged, x ∈ d.logged ∨ x = d.iblock i ∨ ∃ c < d.sb.size, x = d.bblock c

theorem slotAt_empty {blk : Nat → Bytes} (node : Dinode) (haddrs : node.addrs = fun _ => 0) (s : Slot) :
    node.slotAt blk s = 0 := by
  have haddr : ∀ k, node.addr k = 0 := by
    intro k
    unfold Dinode.addr
    rw [haddrs]
    rfl
  cases s with
  | addr k => exact haddr k
  | entry j => exact if_pos (haddr _)

def directPlaces (i : Inum) : List Place :=
  (List.range ndirect).map fun k => (i, .addr (Fin.ofNat _ k))

def entryPlaces (i : Inum) : List Place :=
  (List.range nindirect).map fun j => (i, .entry (Fin.ofNat _ j))

theorem nodup_directPlaces (i : Inum) : (directPlaces i).Nodup := by
  refine List.Nodup.map_on (fun k hk l hl heq => ?_) List.nodup_range
  have hval := congrArg Fin.val (Slot.addr.inj (congrArg Prod.snd heq))
  have hk' := List.mem_range.mp hk
  have hl' := List.mem_range.mp hl
  rwa [Fin.val_ofNat, Fin.val_ofNat, Nat.mod_eq_of_lt (Nat.lt_succ_of_lt hk'),
    Nat.mod_eq_of_lt (Nat.lt_succ_of_lt hl')] at hval

theorem nodup_entryPlaces (i : Inum) : (entryPlaces i).Nodup := by
  refine List.Nodup.map_on (fun k hk l hl heq => ?_) List.nodup_range
  have hval := congrArg Fin.val (Slot.entry.inj (congrArg Prod.snd heq))
  rwa [Fin.val_ofNat, Fin.val_ofNat, Nat.mod_eq_of_lt (List.mem_range.mp hk),
    Nat.mod_eq_of_lt (List.mem_range.mp hl)] at hval

theorem mem_directPlaces {x : Place} :
    x ∈ directPlaces i ↔ x.1 = i ∧ ∃ k, k ≠ Fin.last ndirect ∧ x.2 = .addr k := by
  constructor
  · intro hmem
    obtain ⟨k, hk, rfl⟩ := List.mem_map.mp hmem
    exact ⟨rfl, _, ofNat_ne_last (List.mem_range.mp hk), rfl⟩
  · rintro ⟨hi, k, hk, hx⟩
    refine List.mem_map.mpr ⟨k, List.mem_range.mpr ?_, ?_⟩
    · exact Nat.lt_of_le_of_ne (Fin.le_last k) fun heq => hk (Fin.ext heq)
    · rw [Fin.ofNat_val_eq_self]
      exact Prod.ext hi.symm hx.symm

theorem mem_entryPlaces {x : Place} : x ∈ entryPlaces i ↔ x.1 = i ∧ ∃ j, x.2 = .entry j := by
  constructor
  · intro hmem
    obtain ⟨k, -, rfl⟩ := List.mem_map.mp hmem
    exact ⟨rfl, _, rfl⟩
  · rintro ⟨hi, j, hx⟩
    refine List.mem_map.mpr ⟨j, List.mem_range.mpr j.isLt, ?_⟩
    rw [Fin.ofNat_val_eq_self]
    exact Prod.ext hi.symm hx.symm

theorem freeIndirect_ok (hown : d.Owned (update nodes i node)) (hi : i < d.sb.ninodes)
    (htype : node.type ≠ 0) (hheld : held = holds d.sb.ninodes (update nodes i node) d.blk)
    (hfirst : Released d held d' (emptied held (directPlaces i))) :
    ∃ d'', d'.freeIndirect node.indirect = .ok d'' ∧
      Released d held d'' fun x => if x.1 = i then 0 else held x := by
  have hself : ∀ s, held (i, s) = node.slotAt d.blk s := by
    intro s
    rw [hheld, holds_self nodes hi htype]
  have hentry : ∀ j, emptied held (directPlaces i) (i, .entry j) = node.slotAt d.blk (.entry j) := by
    intro j
    rw [emptied, if_neg (by simp [mem_directPlaces]), hself]
  unfold freeIndirect
  by_cases hind : node.indirect = 0
  · rw [if_pos hind]
    refine ⟨d', rfl, hfirst.congr ?_⟩
    rintro ⟨j, s⟩
    by_cases hj : j = i
    · subst hj
      rw [if_pos rfl]
      cases s with
      | addr k =>
        by_cases hk : k = Fin.last ndirect
        · rw [emptied, if_neg (by simp [mem_directPlaces, hk]), hself, hk]
          exact hind.symm
        · rw [emptied, if_pos (by simp [mem_directPlaces, hk])]
      | entry l =>
        rw [hentry]
        exact (if_pos hind).symm
    · rw [if_neg hj, emptied, if_neg (by simp [mem_directPlaces, hj])]
  · rw [if_neg hind]
    have hsb := hfirst.sb
    have hdata : d.sb.IsData node.indirect :=
      (hown.slot_data hi htype (s := .addr (Fin.last ndirect)) hind).1
    have haddr : ∀ d₁ : Volume, (∀ x, d'.sb.IsData x → d₁.blk x = d'.blk x) →
        ∀ j ∈ List.range nindirect, d₁.entry node.indirect j
          = emptied held (directPlaces i) (i, .entry (Fin.ofNat _ j)) := by
      intro d₁ hblk j hj
      rw [hentry]
      simp only [Dinode.slotAt, hind, if_false]
      rw [Fin.val_ofNat, Nat.mod_eq_of_lt (List.mem_range.mp hj), entry,
        hblk _ (by rw [hsb]; exact hdata), hfirst.blk _ hdata]
    obtain ⟨d₁, hloop, hentries⟩ := freeEach_ok (List.range nindirect) (by rw [hsb]; exact hown.ok)
      (by rw [hsb, hfirst.super]; exact hown.super) (by rw [hsb]; exact hfirst.fixed)
      (by rw [hsb]; exact hfirst.owns) (nodup_entryPlaces i) haddr
    have hmid : Released d held d₁ (emptied (emptied held (directPlaces i)) (entryPlaces i)) :=
      hfirst.trans hentries
    -- the indirect block is still held
    have hlast : emptied (emptied held (directPlaces i)) (entryPlaces i)
        (i, .addr (Fin.last ndirect)) = node.indirect := by
      rw [emptied, if_neg (by simp [mem_entryPlaces]), emptied, if_neg (by simp [mem_directPlaces]), hself]
      rfl
    obtain ⟨d₂, hfree, hdone⟩ := Released.bfree (d := d₁) (by rw [hmid.sb]; exact hown.ok)
      (by rw [hmid.sb, hmid.super]; exact hown.super) (by rw [hmid.sb]; exact hmid.fixed)
      (by rw [hmid.sb]; exact hmid.owns) (x := (i, .addr (Fin.last ndirect))) (by rw [hlast]; exact hind)
    rw [hlast] at hfree
    refine ⟨d₂, ?_, (hmid.trans hdone).congr ?_⟩
    · rw [hloop]
      exact hfree
    · rintro ⟨j, s⟩
      by_cases hlastPlace : ((j, s) : Place) = (i, .addr (Fin.last ndirect))
      · rw [hlastPlace, update_self, if_pos rfl]
      rw [update_of_ne hlastPlace]
      unfold emptied
      by_cases hj : j = i
      · subst hj
        rw [if_pos rfl]
        cases s with
        | addr k =>
          have hk : k ≠ Fin.last ndirect := fun heq => hlastPlace (by rw [heq])
          rw [if_neg (by simp [mem_entryPlaces]), if_pos (by simp [mem_directPlaces, hk])]
        | entry l => rw [if_pos (by simp [mem_entryPlaces])]
      · rw [if_neg hj, if_neg (by simp [mem_entryPlaces, hj]), if_neg (by simp [mem_directPlaces, hj])]

/-- `itrunc` never meets a block that is already free. -/
theorem itrunc_ok (hown : d.Owned (update nodes i node)) (hi : i < d.sb.ninodes) (htype : node.type ≠ 0) :
    ∃ r, d.itrunc i node = .ok r ∧ Truncates nodes i d node r.2 r.1 := by
  have haddr : ∀ d' : Volume, (∀ x, d.sb.IsData x → d'.blk x = d.blk x) → ∀ k ∈ List.range ndirect,
      node.addr (Fin.ofNat _ k)
        = holds d.sb.ninodes (update nodes i node) d.blk (i, .addr (Fin.ofNat _ k)) := by
    intro _ _ k _
    rw [holds_self nodes hi htype]
    rfl
  obtain ⟨d₁, hloop, hdirect⟩ := freeEach_ok (List.range ndirect) hown.ok hown.super hown.fixed
    hown.owns (nodup_directPlaces i) haddr
  obtain ⟨d₂, hrest, hall⟩ := freeIndirect_ok hown hi htype rfl hdirect
  have hok : d₂.sb.Ok := by
    rw [hall.sb]
    exact hown.ok
  have hi₂ : i < d₂.sb.ninodes := by
    rw [hall.sb]
    exact hi
  let node' : Dinode := { node with addrs := fun _ => 0, size := 0 }
  have hempty : d₂.Owned (update nodes i node') := by
    refine ⟨hok, by rw [hall.sb, hall.super]; exact hown.super, by rw [hall.sb]; exact hall.fixed, ?_⟩
    rw [hall.sb]
    refine hall.owns.congr ?_ fun _ _ => .rfl
    rintro ⟨j, s⟩
    by_cases hj : j = i
    · subst hj
      have htype' : node'.type ≠ 0 := htype
      rw [holds_self nodes hi htype', if_pos rfl]
      exact slotAt_empty node' rfl s
    · rw [if_neg hj, holds_of_ne node' hj, holds_of_ne node hj]
      exact hown.others_same hi htype (fun x hx _ _ => hall.blk x hx) hj s
  refine ⟨(node', d₂.iupdate i node'), ?_, ?_⟩
  · unfold itrunc
    rw [hloop]
    change (d₁.freeIndirect node.indirect >>= fun d => _) = _
    rw [hrest]
    rfl
  · refine
      { node_eq := rfl
        sb := hall.sb
        owned := hempty.iupdate hi₂
        self := dinode_iupdate ..
        dinode := fun j hj hne => by rw [dinode_iupdate_of_ne hne, hall.dinode j hj]
        blk := fun x hx => ?_
        logged := fun x hx => ?_ }
    · rw [blk_iupdate hok hi₂ (by rw [hall.sb]; exact hx), hall.blk x hx]
    · rcases List.mem_cons.mp hx with rfl | hold
      · refine .inr (.inl ?_)
        unfold iblock
        rw [hall.sb]
      · rcases hall.logged x hold with h | h
        · exact .inl h
        · exact .inr (.inr h)

end Volume

end Xv6.Disk
