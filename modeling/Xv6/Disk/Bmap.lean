import Xv6.Disk.Owned

/-!
# Allocating and freeing the blocks of an inode

`bmap` fills empty slots of one inode with unused blocks, `itrunc` empties all of them. Both are
described by what they do to the places that hold blocks, whatever the other inodes are.
-/

namespace Xv6.Disk

open Function (update update_self update_of_ne)

open Fs (Inum)

/-! ### Slots -/

theorem slotAt_congr {node : Dinode} {blk blk' : Nat → Bytes} (s : Slot)
    (h : node.indirect ≠ 0 → blk' node.indirect = blk node.indirect) :
    node.slotAt blk' s = node.slotAt blk s := by
  cases s with
  | addr k => rfl
  | entry j =>
    by_cases hind : node.indirect = 0
    · simp [Dinode.slotAt, hind]
    · simp only [Dinode.slotAt, hind, if_false]
      rw [h hind]

theorem addr_setAddr {node : Dinode} {b : Nat} (hb : b < 2 ^ 32) (k l : Fin (ndirect + 1)) :
    (node.setAddr k b).addr l = if l = k then b else node.addr l := by
  change (update node.addrs k (UInt32.ofNat b) l).toNat = _
  by_cases hl : l = k
  · rw [if_pos hl, hl, update_self, UInt32.toNat_ofNat']
    exact Nat.mod_eq_of_lt hb
  · rw [if_neg hl, update_of_ne hl]
    rfl

theorem slotOf_of_lt {m : Nat} (hm : m < ndirect) : slotOf m = .addr (Fin.ofNat _ m) := if_pos hm

theorem slotOf_of_not_lt {m : Nat} (hm : ¬ m < ndirect) :
    slotOf m = .entry (Fin.ofNat _ (m - ndirect)) := if_neg hm

theorem ofNat_ne_last {m : Nat} (hm : m < ndirect) : (Fin.ofNat (ndirect + 1) m) ≠ Fin.last ndirect := by
  intro heq
  have hval := congrArg Fin.val heq
  rw [Fin.val_ofNat, Nat.mod_eq_of_lt (Nat.lt_succ_of_lt hm), Fin.val_last] at hval
  omega

theorem slotOf_ne_last {m : Nat} : slotOf m ≠ .addr (Fin.last ndirect) := by
  by_cases hm : m < ndirect
  · rw [slotOf_of_lt hm]
    intro heq
    exact ofNat_ne_last hm (Slot.addr.inj heq)
  · rw [slotOf_of_not_lt hm]
    exact nofun

theorem slotOf_injective {m l : Nat} (hm : m < maxfile) (hl : l < maxfile)
    (heq : slotOf m = slotOf l) : m = l := by
  have hmax : maxfile = ndirect + nindirect := rfl
  by_cases hmd : m < ndirect <;> by_cases hld : l < ndirect
  · rw [slotOf_of_lt hmd, slotOf_of_lt hld] at heq
    have hval := congrArg Fin.val (Slot.addr.inj heq)
    rwa [Fin.val_ofNat, Fin.val_ofNat, Nat.mod_eq_of_lt (by omega), Nat.mod_eq_of_lt (by omega)] at hval
  · rw [slotOf_of_lt hmd, slotOf_of_not_lt hld] at heq
    cases heq
  · rw [slotOf_of_not_lt hmd, slotOf_of_lt hld] at heq
    cases heq
  · rw [slotOf_of_not_lt hmd, slotOf_of_not_lt hld] at heq
    have hval := congrArg Fin.val (Slot.entry.inj heq)
    rw [Fin.val_ofNat, Fin.val_ofNat, Nat.mod_eq_of_lt (by omega), Nat.mod_eq_of_lt (by omega)] at hval
    omega

namespace Volume

variable {d d' : Volume} {nodes nodes' : Inum → Dinode} {i j : Inum} {a b : Nat} {node node' : Dinode}
  {s t : Slot}

theorem holds_self {N : Nat} {blk : Nat → Bytes} (nodes : Inum → Dinode) (hi : i < N)
    (htype : node.type ≠ 0) (s : Slot) : holds N (update nodes i node) blk (i, s) = node.slotAt blk s := by
  unfold holds
  rw [update_self, if_pos ⟨hi, htype⟩]

theorem holds_of_ne {N : Nat} {blk : Nat → Bytes} (node : Dinode) (hj : j ≠ i) (s : Slot) :
    holds N (update nodes i node) blk (j, s) = holds N nodes blk (j, s) := by
  unfold holds
  rw [update_of_ne hj]

namespace Owned

section

variable (hown : d.Owned (update nodes i node)) (hi : i < d.sb.ninodes) (htype : node.type ≠ 0)
include hown hi htype

theorem slot_data (hs : node.slotAt d.blk s ≠ 0) :
    d.sb.IsData (node.slotAt d.blk s) ∧ d.bit (node.slotAt d.blk s) = true := by
  rw [← holds_self nodes hi htype s] at hs ⊢
  exact ⟨hown.owns.data _ hs, hown.owns.used_of_holds hs⟩

theorem slot_inj (hs : node.slotAt d.blk s ≠ 0) (heq : node.slotAt d.blk s = node.slotAt d.blk t) :
    s = t := by
  rw [← holds_self nodes hi htype s] at hs heq
  rw [← holds_self nodes hi htype t] at heq
  exact congrArg Prod.snd (hown.owns.inj _ _ hs heq)

theorem other_ne (hj : j ≠ i) (ht : holds d.sb.ninodes nodes d.blk (j, t) ≠ 0) (s : Slot) :
    node.slotAt d.blk s ≠ holds d.sb.ninodes nodes d.blk (j, t) := by
  intro heq
  have hs : node.slotAt d.blk s ≠ 0 := heq ▸ ht
  rw [← holds_self nodes hi htype s] at hs heq
  rw [← holds_of_ne node hj t] at heq
  exact hj (congrArg Prod.fst (hown.owns.inj _ _ hs heq)).symm

/-- The places of the other inodes do not change when no block in use but `node`'s indirect block
does. -/
theorem others_same (hkeep : ∀ x, d.sb.IsData x → d.bit x = true → x ≠ node.indirect → d'.blk x = d.blk x)
    (hj : j ≠ i) (s : Slot) :
    holds d.sb.ninodes nodes d'.blk (j, s) = holds d.sb.ninodes nodes d.blk (j, s) := by
  by_cases hlive : j < d.sb.ninodes ∧ (nodes j).type ≠ 0
  · have hplace : ∀ blk t, holds d.sb.ninodes nodes blk (j, t) = (nodes j).slotAt blk t :=
      fun _ _ => if_pos hlive
    rw [hplace, hplace]
    refine slotAt_congr s fun hind => ?_
    have hind' : holds d.sb.ninodes nodes d.blk (j, .addr (Fin.last ndirect)) ≠ 0 := by
      rwa [hplace]
    have hused := hind'
    rw [← holds_of_ne node hj _] at hused
    have hdata := hown.owns.data _ hused
    have hbit := hown.owns.used_of_holds hused
    rw [holds_of_ne node hj, hplace] at hdata hbit
    refine hkeep _ hdata hbit fun heq => ?_
    apply hown.other_ne hi htype hj hind' (.addr (Fin.last ndirect))
    rw [hplace]
    exact heq.symm
  · have hplace : ∀ blk, holds d.sb.ninodes nodes blk (j, s) = 0 := fun _ => if_neg hlive
    rw [hplace, hplace]

end

theorem take {x : Place} (hown : d.Owned nodes) (hstable : Stable d d')
    (hbit : ∀ c < d.sb.size, d'.bit c = (decide (c = b) || d.bit c))
    (hholds : ∀ y, holds d.sb.ninodes nodes' d'.blk y = update (holds d.sb.ninodes nodes d.blk) x b y)
    (hx : holds d.sb.ninodes nodes d.blk x = 0) (hdata : d.sb.IsData b) (hunused : d.bit b = false) :
    d'.Owned nodes' where
  ok := by
    rw [hstable.sb]
    exact hown.ok
  super := by
    rw [hstable.sb, hstable.super]
    exact hown.super
  fixed c hc hlt := by
    rw [hstable.sb] at hc hlt
    rw [hbit c hlt, hown.fixed c hc hlt, Bool.or_true]
  owns := by
    rw [hstable.sb]
    refine (hown.owns.take hx hdata (by simp [hunused])).congr hholds fun c hc => ?_
    rw [hbit c hc.2]
    simp

/-- What is owned does not depend on blocks that hold no block numbers, nor on the nodes of inodes
that are not there. -/
theorem congr (hown : d.Owned nodes) (hsb : d'.sb = d.sb) (hsuper : d'.blk 1 = d.blk 1)
    (hbit : ∀ c < d.sb.size, d'.bit c = d.bit c)
    (hholds : ∀ x, holds d.sb.ninodes nodes' d'.blk x = holds d.sb.ninodes nodes d.blk x) :
    d'.Owned nodes' where
  ok := by
    rw [hsb]
    exact hown.ok
  super := by
    rw [hsb, hsuper]
    exact hown.super
  fixed c hc hlt := by
    rw [hsb] at hc hlt
    rw [hbit c hlt]
    exact hown.fixed c hc hlt
  owns := by
    rw [hsb]
    refine hown.owns.congr hholds fun c hc => ?_
    rw [hbit c hc.2]

end Owned

/-! ### bmap -/

theorem Allocs.lt (hok : d.sb.Ok) (halloc : Allocs d b d') : b < 2 ^ 32 :=
  halloc.data.2.trans hok.size_lt

theorem Allocs.pos (halloc : Allocs d b d') : b ≠ 0 :=
  Nat.ne_of_gt ((Nat.succ_pos _).trans_le halloc.data.1)

theorem Allocs.keep (halloc : Allocs d b d') {x : Nat} (hx : d.sb.IsData x) (hbit : d.bit x = true) :
    d'.blk x = d.blk x := by
  refine halloc.blk x hx ?_
  rintro rfl
  rw [halloc.unused] at hbit
  cases hbit

theorem slotAt_takeAddr (hown : d.Owned (update nodes i node)) (hi : i < d.sb.ninodes)
    (htype : node.type ≠ 0) {k : Fin (ndirect + 1)} (hk : node.addr k = 0) (halloc : Allocs d b d')
    (s : Slot) : (node.setAddr k b).slotAt d'.blk s = if s = .addr k then b else node.slotAt d.blk s := by
  have hlt := halloc.lt hown.ok
  cases s with
  | addr l =>
    simp only [Dinode.slotAt, Slot.addr.injEq]
    exact addr_setAddr hlt k l
  | entry j =>
    simp only [reduceCtorEq, if_false]
    by_cases hlast : k = Fin.last ndirect
    · -- the indirect block itself is new, so it is all zeros
      subst hlast
      have hnew : (node.setAddr (Fin.last ndirect) b).indirect = b := by
        unfold Dinode.indirect
        rw [addr_setAddr hlt, if_pos rfl]
      have hold : node.indirect = 0 := hk
      simp only [Dinode.slotAt, hnew, hold, if_true, halloc.pos, if_false]
      rw [halloc.zero]
      rfl
    · have hsame : (node.setAddr k b).indirect = node.indirect := by
        unfold Dinode.indirect
        rw [addr_setAddr hlt, if_neg (Ne.symm hlast)]
      simp only [Dinode.slotAt, hsame]
      by_cases hind : node.indirect = 0
      · simp [hind]
      · have hused := hown.slot_data hi htype (s := .addr (Fin.last ndirect)) hind
        simp only [hind, if_false]
        rw [show node.indirect = node.slotAt d.blk (.addr (Fin.last ndirect)) from rfl,
          halloc.keep hused.1 hused.2]

theorem slotAt_takeEntry (hown : d.Owned (update nodes i node)) (hi : i < d.sb.ninodes)
    (htype : node.type ≠ 0) (hind : node.indirect ≠ 0) (j : Fin nindirect) (halloc : Allocs d b d')
    (s : Slot) : node.slotAt (d'.setEntry node.indirect j b).blk s
      = if s = .entry j then b else node.slotAt d.blk s := by
  cases s with
  | addr l => simp [Dinode.slotAt]
  | entry l =>
    have hused := hown.slot_data hi htype (s := .addr (Fin.last ndirect)) hind
    have hsame : d'.blk node.indirect = d.blk node.indirect := halloc.keep hused.1 hused.2
    simp only [Dinode.slotAt, hind, if_false, Slot.entry.injEq]
    unfold setEntry
    rw [blk_write_self]
    by_cases hl : l = j
    · subst hl
      rw [if_pos rfl]
      refine Bytes.get_of_leByte (halloc.lt hown.ok) fun m hm => ?_
      rw [Bytes.fill_inside (by omega), Nat.add_sub_cancel_left]
    · rw [if_neg hl, Bytes.get_fill_outside, hsame]
      have hne : (l : Nat) ≠ j := fun heq => hl (Fin.ext heq)
      omega

/-- One inode's slots filled with unused blocks, the rest of the disk as it was. -/
structure Grows (nodes : Inum → Dinode) (i : Inum) (d : Volume) (node : Dinode) (d' : Volume)
    (node' : Dinode) : Prop extends Stable d d' where
  owned : d'.Owned (update nodes i node')
  fields : { node' with addrs := node.addrs } = node
  bit : ∀ c < d.sb.size, d.bit c = true → d'.bit c = true
  slot : ∀ s, node.slotAt d.blk s ≠ 0 → node'.slotAt d'.blk s = node.slotAt d.blk s
  fresh : ∀ s, node.slotAt d.blk s = 0 → node'.slotAt d'.blk s ≠ 0 → d.bit (node'.slotAt d'.blk s) = false
  keep : ∀ x, d.sb.IsData x → d.bit x = true → (∀ s, node.slotAt d.blk s ≠ x) → d'.blk x = d.blk x

namespace Grows

variable {d'' : Volume} {node'' : Dinode}

theorem refl (hown : d.Owned (update nodes i node)) : Grows nodes i d node d node where
  toStable := .refl d
  owned := hown
  fields := rfl
  bit _ _ h := h
  slot _ _ := rfl
  fresh _ h h' := absurd h h'
  keep _ _ _ _ := rfl

section

variable (h : Grows nodes i d node d' node')
include h

theorem type_eq : node'.type = node.type := by
  have hfields := congrArg Dinode.type h.fields
  exact hfields

theorem size_eq : node'.size = node.size := by
  have hfields := congrArg Dinode.size h.fields
  exact hfields

theorem trans (h' : Grows nodes i d' node' d'' node'') (hi : i < d.sb.ninodes)
    (htype : node.type ≠ 0) : Grows nodes i d node d'' node'' where
  toStable := h.toStable.trans h'.toStable
  owned := h'.owned
  fields := by
    have hmid := h'.fields
    have hfirst := h.fields
    rw [← hmid] at hfirst
    exact hfirst
  bit c hc hbit := h'.bit c (by rw [h.sb]; exact hc) (h.bit c hc hbit)
  slot s hs := by
    have hmid := h.slot s hs
    rw [h'.slot s (by rw [hmid]; exact hs), hmid]
  fresh s hs hs'' := by
    by_cases hmid : node'.slotAt d'.blk s = 0
    · -- unused in the middle, so unused before
      have hlate := h'.fresh s hmid hs''
      have hdata := h'.owned.slot_data (by rw [h'.sb, h.sb]; exact hi)
        (by rw [h'.type_eq, h.type_eq]; exact htype) hs''
      rw [h'.sb, h.sb] at hdata
      by_contra hused
      rw [h.bit _ hdata.1.2 (by simpa using hused)] at hlate
      cases hlate
    · rw [h'.slot s hmid] at hs'' ⊢
      exact h.fresh s hs hs''
  keep x hx hbit hnot := by
    rw [h'.keep x (by rw [h.sb]; exact hx) (h.bit x hx.2 hbit) ?_, h.keep x hx hbit hnot]
    intro s heq
    by_cases hs : node.slotAt d.blk s = 0
    · have hne : node'.slotAt d'.blk s ≠ 0 := by
        rw [heq]
        exact h.owned.owns.pos x (by rw [h.sb]; exact hx)
      have hfresh := h.fresh s hs hne
      rw [heq, hbit] at hfresh
      cases hfresh
    · rw [h.slot s hs] at heq
      exact hnot s heq

theorem other (hown : d.Owned (update nodes i node)) (hi : i < d.sb.ninodes) (htype : node.type ≠ 0)
    (hj : j ≠ i) (hjlt : j < d.sb.ninodes) (hjtype : (nodes j).type ≠ 0) :
    (∀ s, (nodes j).slotAt d'.blk s = (nodes j).slotAt d.blk s) ∧ ∀ s, (nodes j).slotAt d.blk s ≠ 0 →
        d'.blk ((nodes j).slotAt d.blk s) = d.blk ((nodes j).slotAt d.blk s) := by
  have hplace : ∀ t, holds d.sb.ninodes nodes d.blk (j, t) = (nodes j).slotAt d.blk t :=
    fun t => if_pos ⟨hjlt, hjtype⟩
  have hblk : ∀ s, (nodes j).slotAt d.blk s ≠ 0 →
      d'.blk ((nodes j).slotAt d.blk s) = d.blk ((nodes j).slotAt d.blk s) := by
    intro s hs
    rw [← hplace] at hs ⊢
    have hused := hs
    rw [← holds_of_ne node hj _] at hused
    have hdata := hown.owns.data _ hused
    have hbit := hown.owns.used_of_holds hused
    rw [holds_of_ne node hj] at hdata hbit
    exact h.keep _ hdata hbit (hown.other_ne hi htype hj hs)
  exact ⟨fun s => slotAt_congr s fun hind => hblk (.addr (Fin.last ndirect)) hind, hblk⟩

end

end Grows

structure Fills (nodes : Inum → Dinode) (i : Inum) (d : Volume) (node : Dinode) (s : Slot) (b : Nat)
    (d' : Volume) (node' : Dinode) : Prop extends Grows nodes i d node d' node' where
  filled : node'.slotAt d'.blk s = b
  pos : b ≠ 0
  others : ∀ t, t ≠ s → node'.slotAt d'.blk t = node.slotAt d.blk t
  data : ∀ x, d.sb.IsData x → d.bit x = true → x ≠ node.indirect → d'.blk x = d.blk x
  hit : node.slotAt d.blk s ≠ 0 → d' = d ∧ node' = node
  nfree : node.slotAt d.blk s = 0 → d'.nfree + 1 = d.nfree
  logged : ∀ x ∈ d'.logged, x ∈ d.logged ∨ x = b ∨ (x = node'.indirect ∧ x ≠ 0) ∨
    ∃ c < d.sb.size, x = d.bblock c

section

variable (hown : d.Owned (update nodes i node))
include hown

theorem Fills.of_hit (hs : node.slotAt d.blk s ≠ 0) :
    Fills nodes i d node s (node.slotAt d.blk s) d node where
  toGrows := .refl hown
  filled := rfl
  pos := hs
  others _ _ := rfl
  data _ _ _ _ := rfl
  hit _ := ⟨rfl, rfl⟩
  nfree h := absurd h hs
  logged _ h := .inl h

theorem Fills.of_alloc {d₁ : Volume} (hi : i < d.sb.ninodes) (htype : node.type ≠ 0)
    (halloc : Allocs d b d₁) (hstable : Stable d d') (hfields : { node' with addrs := node.addrs } = node)
    (hbit : ∀ c < d.sb.size, d'.bit c = d₁.bit c)
    (hslots : ∀ t, node'.slotAt d'.blk t = if t = s then b else node.slotAt d.blk t)
    (hdata : ∀ x, d.sb.IsData x → d.bit x = true → x ≠ node.indirect → d'.blk x = d.blk x)
    (hlogged : ∀ x ∈ d'.logged, x ∈ d₁.logged ∨ x = node'.indirect ∧ x ≠ 0)
    (hs : node.slotAt d.blk s = 0) : Fills nodes i d node s b d' node' := by
  have htype' : node'.type ≠ 0 := by
    have hkind := congrArg Dinode.type hfields
    intro hzero
    exact htype (hkind.symm.trans hzero)
  have hset : ∀ c < d.sb.size, d'.bit c = (decide (c = b) || d.bit c) := by
    intro c hc
    rw [hbit c hc, halloc.bit c hc]
  have hholds : ∀ y, holds d.sb.ninodes (update nodes i node') d'.blk y
      = update (holds d.sb.ninodes (update nodes i node) d.blk) (i, s) b y := by
    rintro ⟨j, t⟩
    by_cases hj : j = i
    · subst hj
      rw [holds_self nodes hi htype', hslots]
      by_cases ht : t = s
      · rw [if_pos ht, ht, update_self]
      · rw [if_neg ht, update_of_ne (fun heq => ht (congrArg Prod.snd heq)), holds_self nodes hi htype]
    · rw [holds_of_ne node' hj, update_of_ne (fun heq => hj (congrArg Prod.fst heq)), holds_of_ne node hj]
      exact hown.others_same hi htype hdata hj t
  refine
    { toStable := hstable
      owned := hown.take hstable hset hholds (by rwa [holds_self nodes hi htype]) halloc.data halloc.unused
      fields := hfields
      bit := fun c hc hold => by rw [hset c hc, hold, Bool.or_true]
      slot := fun t ht => ?_
      fresh := fun t ht ht' => ?_
      keep := fun x hx hold hnot =>
        hdata x hx hold fun heq => hnot (.addr (Fin.last ndirect)) heq.symm
      filled := by rw [hslots, if_pos rfl]
      pos := halloc.pos
      others := fun t ht => by rw [hslots, if_neg ht]
      data := hdata
      hit := fun h => absurd hs h
      nfree := fun _ => ?_
      logged := fun x hx => ?_ }
  · rw [hslots, if_neg]
    rintro rfl
    exact ht hs
  · rw [hslots] at ht' ⊢
    by_cases hts : t = s
    · rw [if_pos hts]
      exact halloc.unused
    · rw [if_neg hts] at ht'
      exact absurd ht ht'
  · have hsame : d'.nfree = d₁.nfree := by
      unfold Volume.nfree
      rw [hstable.sb, halloc.sb]
      congr 1
      refine Finset.filter_congr fun c hc => ?_
      rw [hbit c (Finset.mem_range.mp hc)]
    rw [hsame]
    exact halloc.nfree
  · rcases hlogged x hx with hmem | hind
    · rw [halloc.logged, List.mem_cons, List.mem_cons] at hmem
      rcases hmem with rfl | rfl | hold
      · exact .inr (.inl rfl)
      · exact .inr (.inr (.inr ⟨b, halloc.data.2, rfl⟩))
      · exact .inl hold
    · exact .inr (.inr (.inl hind))

theorem bmapAddr_ends (hi : i < d.sb.ninodes) (htype : node.type ≠ 0) (k : Fin (ndirect + 1)) :
    Ends (node.addr k = 0 ∧ d.nfree = 0)
      (fun r => Fills nodes i d node (.addr k) r.1 r.2.2 r.2.1) (d.bmapAddr node k) := by
  unfold bmapAddr
  by_cases hk : node.addr k = 0
  · rw [if_pos hk]
    refine .bind ((balloc_ends hown.ok hown.fixed).mono (fun hfull => ⟨hk, hfull⟩)
      fun _ halloc => halloc) ?_
    rintro ⟨b, d₁⟩ halloc
    exact .of_alloc hown hi htype halloc halloc.toStable rfl (fun _ _ => rfl)
      (slotAt_takeAddr hown hi htype hk halloc) (fun x hx hbit _ => halloc.keep hx hbit)
      (fun _ hx => .inl hx) hk
  · rw [if_neg hk]
    exact .of_hit hown (s := .addr k) hk

theorem bmapEntry_ends (hi : i < d.sb.ninodes) (htype : node.type ≠ 0) (hind : node.indirect ≠ 0)
    (j : Fin nindirect) : Ends (node.slotAt d.blk (.entry j) = 0 ∧ d.nfree = 0)
      (fun r => Fills nodes i d node (.entry j) r.1 r.2 node) (d.bmapEntry node.indirect j) := by
  have hslot : node.slotAt d.blk (.entry j) = d.entry node.indirect j := by
    simp [Dinode.slotAt, hind, entry]
  unfold bmapEntry
  by_cases hj : d.entry node.indirect j = 0
  · rw [if_pos hj]
    refine .bind ((balloc_ends hown.ok hown.fixed).mono
      (fun hfull => ⟨hslot.trans hj, hfull⟩) fun _ halloc => halloc) ?_
    rintro ⟨b, d₁⟩ halloc
    have hused := hown.slot_data hi htype (s := .addr (Fin.last ndirect)) hind
    have hdata : d₁.sb.IsData node.indirect := by
      rw [halloc.sb]
      exact hused.1
    have hok₁ : d₁.sb.Ok := by
      rw [halloc.sb]
      exact hown.ok
    refine .of_alloc hown hi htype halloc (halloc.toStable.trans (.of_write hok₁ ?_)) rfl
      (fun c hc => bit_write_data hdata (by rw [halloc.sb]; exact hc))
      (slotAt_takeEntry hown hi htype hind j halloc)
      (fun x hx hbit hne => ?_) (fun x hx => ?_) (hslot.trans hj)
    · exact Nat.le_of_lt ((bmapstart_lt_dataStart _).trans_le hdata.1)
    · exact (blk_write_of_ne hne).trans (halloc.keep hx hbit)
    · rcases List.mem_cons.mp hx with rfl | hold
      · exact .inr ⟨rfl, hind⟩
      · exact .inl hold
  · rw [if_neg hj, ← hslot]
    exact .of_hit hown (by rwa [hslot])

/-- The blocks that `bmap` has to allocate for block `m` of the file. -/
def need (blk : Nat → Bytes) (node : Dinode) (m : Nat) : Nat :=
  (if node.blockOf blk m = 0 then 1 else 0) + if ndirect ≤ m ∧ node.indirect = 0 then 1 else 0

structure Maps (nodes : Inum → Dinode) (i : Inum) (d : Volume) (node : Dinode) (m b : Nat)
    (d' : Volume) (node' : Dinode) : Prop extends Grows nodes i d node d' node' where
  mapped : node'.blockOf d'.blk m = b
  pos : b ≠ 0
  others : ∀ l < maxfile, l ≠ m → node'.blockOf d'.blk l = node.blockOf d.blk l
  data : ∀ x, d.sb.IsData x → d.bit x = true → x ≠ node.indirect → d'.blk x = d.blk x
  hit : node.blockOf d.blk m ≠ 0 → d' = d ∧ node' = node
  indirect : ndirect ≤ m → node'.indirect ≠ 0
  nfree : d'.nfree + need d.blk node m = d.nfree
  logged : ∀ x ∈ d'.logged, x ∈ d.logged ∨ x = b ∨ (x = node'.indirect ∧ x ≠ 0) ∨
    ∃ c < d.sb.size, x = d.bblock c

theorem bmap_direct_ends (hi : i < d.sb.ninodes) (htype : node.type ≠ 0) {m : Nat} (hm : m < ndirect) :
    Ends (d.nfree < need d.blk node m)
      (fun r => Maps nodes i d node m r.1 r.2.2 r.2.1) (d.bmapAddr node (Fin.ofNat _ m)) := by
  have hneed : need d.blk node m = if node.addr (Fin.ofNat _ m) = 0 then 1 else 0 := by
    have hlow : ¬ (ndirect ≤ m ∧ node.indirect = 0) := fun h => not_le.mpr hm h.1
    unfold need Dinode.blockOf
    rw [if_neg hlow, slotOf_of_lt hm]
    rfl
  refine (bmapAddr_ends hown hi htype (Fin.ofNat _ m)).mono ?_ ?_
  · rintro ⟨hzero, hfull⟩
    rw [hneed, if_pos hzero, hfull]
    exact Nat.one_pos
  · rintro ⟨b, node', d'⟩ hfills
    have hslot := slotOf_of_lt hm
    refine
      { toGrows := hfills.toGrows
        mapped := by rw [Dinode.blockOf, hslot, hfills.filled]
        pos := hfills.pos
        others := fun l hl hlm => hfills.others _ fun heq => ?_
        data := hfills.data
        hit := fun h => hfills.hit (by rwa [Dinode.blockOf, hslot] at h)
        indirect := fun h => absurd hm (not_lt.mpr h)
        nfree := ?_
        logged := hfills.logged }
    · rw [← hslot] at heq
      exact hlm (slotOf_injective hl (hm.trans_le (by decide)) heq)
    · rw [hneed]
      by_cases hzero : node.addr (Fin.ofNat _ m) = 0
      · rw [if_pos hzero]
        exact hfills.nfree hzero
      · rw [if_neg hzero, (hfills.hit hzero).1, Nat.add_zero]

theorem bmap_indirect_ends (hi : i < d.sb.ninodes) (htype : node.type ≠ 0) {m : Nat}
    (hm : ¬ m < ndirect) (hlt : m < maxfile) :
    Ends (d.nfree < need d.blk node m) (fun r => Maps nodes i d node m r.1 r.2.2 r.2.1)
      (d.bmapAddr node (Fin.last ndirect) >>= fun r =>
        r.2.2.bmapEntry r.1 (m - ndirect) >>= fun r' => .ok (r'.1, r.2.1, r'.2)) := by
  have hslot := slotOf_of_not_lt hm
  have hindex : (Fin.ofNat nindirect (m - ndirect) : Nat) = m - ndirect := by
    have hmax : maxfile = ndirect + nindirect := rfl
    rw [Fin.val_ofNat, Nat.mod_eq_of_lt (by omega)]
  have hneed : need d.blk node m = (if node.slotAt d.blk (slotOf m) = 0 then 1 else 0) +
      if node.indirect = 0 then 1 else 0 := by
    unfold need Dinode.blockOf
    congr 1
    exact if_congr ⟨fun h => h.2, fun h => ⟨not_lt.mp hm, h⟩⟩ rfl rfl
  refine .bind ((bmapAddr_ends hown hi htype (Fin.last ndirect)).mono ?_ fun _ h => h) ?_
  · rintro ⟨hzero, hfull⟩
    rw [hneed, if_pos (show node.indirect = 0 from hzero), hfull]
    exact Nat.succ_pos _
  rintro ⟨a, node₁, d₁⟩ (hfirst : Fills nodes i d node (.addr (Fin.last ndirect)) a d₁ node₁)
  have hind : node₁.indirect = a := hfirst.filled
  have htype₁ : node₁.type ≠ 0 := by
    rw [hfirst.type_eq]
    exact htype
  have hi₁ : i < d₁.sb.ninodes := by
    rw [hfirst.sb]
    exact hi
  -- the entry is the same before and after the indirect block has been allocated
  have hentry : node₁.slotAt d₁.blk (slotOf m) = node.slotAt d.blk (slotOf m) :=
    hfirst.others _ slotOf_ne_last
  have hfree : d₁.nfree + (if node.indirect = 0 then 1 else 0) = d.nfree := by
    by_cases hzero : node.indirect = 0
    · rw [if_pos hzero]
      exact hfirst.nfree hzero
    · rw [if_neg hzero, (hfirst.hit hzero).1, Nat.add_zero]
  have hsecond := bmapEntry_ends hfirst.owned hi₁ htype₁ (by rw [hind]; exact hfirst.pos)
    (Fin.ofNat nindirect (m - ndirect))
  rw [hindex, hind, ← hslot, hentry] at hsecond
  refine .bind (hsecond.mono ?_ fun _ h => h) ?_
  · rintro ⟨hzero, hfull⟩
    rw [hneed, if_pos hzero, ← hfree, hfull]
    omega
  rintro ⟨b, d₂⟩ (hfills : Fills nodes i d₁ node₁ (slotOf m) b d₂ node₁)
  refine
    { toGrows := hfirst.toGrows.trans hfills.toGrows hi htype
      mapped := hfills.filled
      pos := hfills.pos
      others := fun l hl hlm => ?_
      data := fun x hx hbit hne => ?_
      hit := fun h => ?_
      indirect := fun _ => by rw [hind]; exact hfirst.pos
      nfree := ?_
      logged := fun x hx => ?_ }
  · refine (hfills.others _ fun heq => hlm (slotOf_injective hl hlt heq)).trans ?_
    exact hfirst.others _ slotOf_ne_last
  · have hxa : x ≠ node₁.indirect := by
      rw [hind]
      rintro rfl
      by_cases hzero : node.indirect = 0
      · have hfresh := hfirst.fresh (.addr (Fin.last ndirect)) hzero (by rw [hfirst.filled]; exact hfirst.pos)
        rw [hfirst.filled, hbit] at hfresh
        cases hfresh
      · have hsame := (hfirst.hit hzero).2
        exact hne (by rw [← hind, hsame])
    rw [hfills.data x (by rw [hfirst.sb]; exact hx) (hfirst.bit x hx.2 hbit) hxa, hfirst.data x hx hbit hne]
  · have hzero : node.indirect ≠ 0 := by
      intro hzero
      apply h
      rw [Dinode.blockOf, hslot]
      simp [Dinode.slotAt, hzero]
    obtain ⟨hd, hnode⟩ := hfirst.hit hzero
    obtain ⟨hd', -⟩ := hfills.hit (by rw [hentry]; exact h)
    exact ⟨hd'.trans hd, hnode⟩
  · rw [hneed, ← hfree]
    by_cases hzero : node.slotAt d.blk (slotOf m) = 0
    · have hlast := hfills.nfree (by rw [hentry]; exact hzero)
      rw [if_pos hzero, ← Nat.add_assoc, hlast]
    · have hd := (hfills.hit (by rw [hentry]; exact hzero)).1
      rw [if_neg hzero, hd, Nat.zero_add]
  · have hblock : d₁.bblock = d.bblock := by
      funext c
      unfold bblock
      rw [hfirst.sb]
    rcases hfills.logged x hx with h | h | h | ⟨c, hc, hx⟩
    · rcases hfirst.logged x h with h | h | h | h
      · exact .inl h
      · exact .inr (.inr (.inl ⟨h.trans hind.symm, h ▸ hfirst.pos⟩))
      · exact .inr (.inr (.inl h))
      · exact .inr (.inr (.inr h))
    · exact .inr (.inl h)
    · exact .inr (.inr (.inl h))
    · exact .inr (.inr (.inr ⟨c, by rwa [hfirst.sb] at hc, by rw [hx, hblock]⟩))

theorem bmap_ends (hi : i < d.sb.ninodes) (htype : node.type ≠ 0) {m : Nat} (hlt : m < maxfile) :
    Ends (d.nfree < need d.blk node m) (fun r => Maps nodes i d node m r.1 r.2.2 r.2.1)
      (d.bmap node m) := by
  unfold bmap
  by_cases hm : m < ndirect
  · rw [if_pos hm]
    exact bmap_direct_ends hown hi htype hm
  · have hrange : m - ndirect < nindirect := by
      have hmax : maxfile = ndirect + nindirect := rfl
      omega
    rw [if_neg hm, if_pos hrange]
    exact bmap_indirect_ends hown hi htype hm hlt

end

end Volume

end Xv6.Disk
