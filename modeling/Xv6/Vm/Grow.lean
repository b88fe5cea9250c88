import Xv6.Vm.Lifecycle
import Xv6.Vm.Tables

/-!
# Growing a process

`growproc` in `proc.c`, which `sbrk` calls. The size to grow to is computed in 32 bits, and the result 0
of `allocuvm` and `deallocuvm` is taken for a failure.
-/

namespace Xv6.Vm

open Pgdir

/-- The result of the call for the process of size `sz`, its new size, directory and the pages. -/
def growproc (n : BitVec 32) (sz : Nat) (d : Pgdir) (k : Kmem) : Except Panic (Int × Nat × Pgdir × Kmem) :=
  if 0 < n.toInt then do
    let (r, d, k) ← allocuvm d sz (u32 (sz + n.toNat)) k
    if r = 0 then .ok (-1, sz, d, k) else .ok (0, r, d, k)
  else if n.toInt < 0 then do
    let (r, d, k) ← deallocuvm d sz (u32 (sz + n.toNat)) k
    if r = 0 then .ok (-1, sz, d, k) else .ok (0, r, d, k)
  else
    .ok (0, sz, d, k)

/-- Each page is used once or free once, and page 0 is neither. -/
structure Sound (d : Pgdir) (k : Kmem) : Prop where
  once : ∀ f, d.uses f + k.free f ≤ 1
  zero : d.uses 0 + k.free 0 = 0

namespace Sound

variable {d : Pgdir} {k : Kmem} {v w : Nat} {e e' : Pte}

theorem notMem (h : Sound d k) (hv : v < userPages) (he : d.entry v = some e) : e.frame ∉ k.freelist := by
  have huses := Holds.uses_ne_zero (.inr (.inr ⟨v, hv, e, he, rfl⟩) : d.Holds e.frame)
  have honce := h.once e.frame
  exact k.free_eq_zero.mp (by omega)

theorem nodup (h : Sound d k) : k.freelist.Nodup :=
  List.nodup_iff_count_le_one.mpr fun f => (Nat.le_add_left ..).trans (h.once f)

theorem frame_ne (h : Sound d k) (hv : v < userPages) (hw : w < userPages) (hne : v ≠ w)
    (he : d.entry v = some e) (he' : d.entry w = some e') : e.frame ≠ e'.frame := by
  intro heq
  have hwalk := walk_of_entry he'
  have hstill : (d.setPte (pgsize * w) none).entry v = some e := by
    rw [entry_setPte (lt_npages hw) hwalk (lt_npages hv), if_neg hne, he]
  have huses := Holds.uses_ne_zero (.inr (.inr ⟨v, hv, e, hstill, heq.symm⟩) :
    (d.setPte (pgsize * w) none).Holds e'.frame)
  have honce := h.once e'.frame
  rw [uses_setPte_none hwalk, Pi.add_apply, mine_user hw, pteUses, one_self] at honce
  omega

end Sound

/-- The size is now `sz'`, with the pages that it had before and new ones that are zero. -/
structure Resized (sz sz' : Nat) (d : Pgdir) (k : Kmem) (d' : Pgdir) (k' : Kmem) : Prop where
  pages : Pages d' (pages sz')
  old : ∀ vpn < userPages, vpn < Vm.pages sz → vpn < Vm.pages sz' →
    d'.entry vpn = d.entry vpn ∧ d'.bytes k' vpn = d.bytes k vpn
  new : ∀ vpn, Vm.pages sz ≤ vpn → vpn < Vm.pages sz' →
    ∃ g, d'.entry vpn = some ⟨g, userPerm⟩ ∧ k'.mem g = fun _ => 0

def Unchanged (d : Pgdir) (k : Kmem) (d' : Pgdir) (k' : Kmem) : Prop :=
  ∀ vpn < userPages, d'.entry vpn = d.entry vpn ∧ d'.bytes k' vpn = d.bytes k vpn

theorem bytes_of_entry {d d' : Pgdir} {k k' : Kmem} {vpn : Nat} (hentry : d'.entry vpn = d.entry vpn)
    (hmem : ∀ e, d.entry vpn = some e → k'.mem e.frame = k.mem e.frame) :
    d'.bytes k' vpn = d.bytes k vpn := by
  unfold Pgdir.bytes
  rw [hentry]
  cases he : d.entry vpn with
  | none => rfl
  | some e => exact hmem e he

variable {sz newsz : Nat} {d d' : Pgdir} {k k' : Kmem}

theorem Restored.unchanged (h : Restored d k d' k') (hsound : Sound d k) : Unchanged d k d' k' :=
  fun vpn hvpn => ⟨h.entry vpn (lt_npages hvpn), bytes_of_entry (h.entry vpn (lt_npages hvpn))
    fun _ he => h.mem _ (hsound.notMem hvpn he)⟩

theorem Filled.resized (h : Grown (pages sz) (pages newsz) d k d' k') (hsound : Sound d k)
    (hpages : Pages d (pages sz)) (hle : pages sz ≤ pages newsz) : Resized sz newsz d k d' k' where
  pages := h.pages_of hpages hle
  old vpn hvpn hlt _ := by
    have hentry := h.old vpn (lt_npages hvpn) fun hin => not_le.mpr hlt hin.1
    exact ⟨hentry, bytes_of_entry hentry fun _ he => h.spares.mem _ (hsound.notMem hvpn he)⟩
  new vpn hge hlt := by
    obtain ⟨g, hg, -, hzero⟩ := h.new vpn hge hlt
    exact ⟨g, hg, (hzero hsound.nodup).1⟩

theorem Cleared.resized (h : Cleared (Vm.pages newsz) sz d k d' k') (hsound : Sound d k)
    (hsz : sz ≤ kernbase) (hpages : Pages d (Vm.pages sz)) (hlt : newsz < sz) :
    Resized sz newsz d k d' k' where
  pages := h.pages hsz hpages (pages_mono hsz hlt.le) le_rfl
  old vpn hvpn _ hnew := by
    have hentry : d'.entry vpn = d.entry vpn := by
      rw [h.entry vpn (lt_npages hvpn), if_neg fun hin => not_le.mpr hnew hin.1]
    refine ⟨hentry, bytes_of_entry hentry fun e he => h.mem _ fun w e' hw hin he' => ?_⟩
    exact hsound.frame_ne (lt_userPages hsz hin) hvpn (by omega) he' he
  new vpn hge hlt' := by
    have hmono := pages_mono hsz hlt.le
    omega

variable {n : BitVec 32} {oldsz r : Nat}

theorem toInt_add (hsz : sz < kernbase) :
    (u32 (sz + n.toNat) : Int) = sz + n.toInt + if n.toInt < 0 ∧ sz + n.toInt < 0 then 2 ^ 32 else 0 := by
  have hlt := n.isLt
  simp only [kernbase] at hsz
  rw [BitVec.toInt_eq_toNat_cond]
  simp only [u32]
  split_ifs <;> omega

/-- Shrinking to nothing frees the pages, keeps the size and is reported as a failure; shrinking by more
does nothing and is reported as a success. -/
theorem growproc_low (hsz : sz < kernbase) (hpages : Pages d (pages sz)) (hsound : Sound d k)
    (hneg : n.toInt < 0) (hpos : 0 < sz) (hlow : sz + n.toInt ≤ 0) :
    (sz + n.toInt < 0 ∧ growproc n sz d k = .ok (0, sz, d, k)) ∨
      ∃ d' k', growproc n sz d k = .ok (-1, sz, d', k') ∧ d.Present 0 ∧ ¬ d'.Present 0 := by
  have hle := Nat.le_of_lt hsz
  have hadd := toInt_add (n := n) hsz
  have hmin := n.le_two_mul_toInt
  unfold growproc
  rw [if_neg (by omega), if_pos hneg]
  by_cases hwrap : sz + n.toInt < 0
  · rw [if_pos ⟨hneg, hwrap⟩] at hadd
    rw [deallocuvm, if_pos (by omega)]
    exact .inl ⟨hwrap, if_neg (Nat.ne_of_gt hpos)⟩
  rw [if_neg fun h => hwrap h.2] at hadd
  rw [show u32 (sz + n.toNat) = 0 by omega]
  obtain ⟨⟨r, d', k'⟩, hrun, ⟨rfl, hclear⟩, -⟩ :=
    (deallocuvm_keeps d k hle).returns (deallocuvm_spec d k hle hpos) hsound.zero
  rw [hrun]
  refine .inr ⟨d', k', rfl, (hpages 0 (by decide)).mpr ((lt_pages hle).mpr hpos), ?_⟩
  rw [present_iff, not_not, hclear.entry 0 (by decide), if_pos]
  exact ⟨by rw [pages_eq (Nat.zero_le _)], hpos⟩

/-- **`growproc` is exact and atomic**, unless a process is to shrink to nothing or below, and only
then. -/
theorem growproc_atomic {n : BitVec 32} (hsz : sz < kernbase) (hpages : Pages d (pages sz))
    (hsound : Sound d k) : (∃ r sz' d' k', growproc n sz d k = .ok (r, sz', d', k') ∧
      ((r = 0 ∧ 0 ≤ sz + n.toInt ∧ sz + n.toInt < kernbase ∧ (sz' : Int) = sz + n.toInt ∧
          Resized sz sz' d k d' k') ∨
        (r = -1 ∧ sz' = sz ∧ Unchanged d k d' k'))) ↔
      (0 ≤ n.toInt ∨ 0 < sz + n.toInt ∨ sz = 0) := by
  refine ⟨fun ⟨r, sz', d', k', hrun, hends⟩ => ?_, fun hlow => ?_⟩
  · by_contra hlow
    obtain ⟨hwrap, hgrow⟩ | ⟨d₁, k₁, hgrow, hpresent, hgone⟩ :=
      growproc_low hsz hpages hsound (n := n) (by omega) (by omega) (by omega)
    · cases hgrow.symm.trans hrun
      obtain ⟨-, hzero, -⟩ | ⟨hr, -⟩ := hends
      · omega
      · cases hr
    · cases hgrow.symm.trans hrun
      obtain ⟨hr, -⟩ | ⟨-, -, hsame⟩ := hends
      · cases hr
      · rw [present_iff, (hsame 0 (by decide)).1, ← present_iff] at hgone
        exact hgone hpresent
  have hle := hsz.le
  have hadd := toInt_add (n := n) hsz
  unfold growproc
  split_ifs with hpos hneg
  · obtain ⟨⟨r, d', k'⟩, hrun, hspec, -⟩ := (allocuvm_keeps d k hle).returns
      (allocuvm_spec (u32 (sz + n.toNat)) k hpages.above hle) hsound.zero
    rw [hrun]
    rw [if_neg fun h => absurd h.1 (by omega)] at hadd
    obtain ⟨hlt, rfl, hgrown⟩ | ⟨rfl, hrestored⟩ := hspec
    · rw [Nat.max_eq_right (by omega)] at hgrown ⊢
      refine ⟨0, u32 (sz + n.toNat), d', k', if_neg (by omega),
        .inl ⟨rfl, by omega, by omega, by omega, ?_⟩⟩
      exact hgrown.resized hsound hpages (pages_mono hlt.le (by omega))
    · exact ⟨-1, sz, d', k', rfl, .inr ⟨rfl, rfl, hrestored.unchanged hsound⟩⟩
  · by_cases hwrap : sz + n.toInt < 0
    · -- only the empty process is left, and stays as it is
      obtain rfl : sz = 0 := by omega
      exact ⟨-1, 0, d, k, rfl, .inr ⟨rfl, rfl, fun _ _ => ⟨rfl, rfl⟩⟩⟩
    rw [if_neg fun h => hwrap h.2] at hadd
    have hlt : u32 (sz + n.toNat) < sz := by omega
    obtain ⟨⟨r, d', k'⟩, hrun, ⟨rfl, hclear⟩, -⟩ :=
      (deallocuvm_keeps d k hle).returns (deallocuvm_spec d k hle hlt) hsound.zero
    dsimp only at hrun hclear
    rw [hrun]
    refine ⟨0, u32 (sz + n.toNat), d', k', if_neg (by omega),
      .inl ⟨rfl, by omega, by omega, by omega, hclear.resized hsound hle hpages hlt⟩⟩
  · obtain hzero : n.toInt = 0 := by omega
    refine ⟨0, sz, d, k, rfl, .inl ⟨rfl, by omega, by omega, by omega, hpages, ?_, ?_⟩⟩
    · exact fun _ _ _ _ => ⟨rfl, rfl⟩
    · intro vpn hge hlt
      omega

/-- A process that agrees with its page table still does after `growproc`, unless it was to shrink to
nothing; and its size is the one asked for or the old one. -/
theorem growproc_pages (k : Kmem) (hsz : sz < kernbase) (hpages : Pages d (pages sz))
    (hlow : n.toInt < 0 → sz + n.toInt ≠ 0) :
    Ends (growproc n sz d k) fun r => r.2.1 < kernbase ∧ Pages r.2.2.1 (pages r.2.1) ∧
      (r.2.1 = sz ∨ (r.2.1 : Int) = sz + n.toInt) := by
  have hadd := toInt_add (n := n) hsz
  unfold growproc
  split_ifs with hpos hneg
  · refine .bind (allocuvm_pages (u32 (sz + n.toNat)) k hpages hsz.le fun _ => hsz) ?_
    rw [if_neg fun h => absurd h.1 (by omega)] at hadd
    rintro ⟨r, d', k'⟩ (⟨hlt, hmax, hp⟩ | ⟨rfl, hp⟩)
    · dsimp only at hlt hmax hp ⊢
      rw [Nat.max_eq_right (by omega)] at hmax
      rw [if_neg (by omega)]
      exact ⟨hlt, hp, .inr (show (r : Int) = _ by omega)⟩
    · exact ⟨hsz, hp, .inl rfl⟩
  · by_cases hwrap : sz + n.toInt < 0
    · rw [if_pos ⟨hneg, hwrap⟩] at hadd
      have hmin := n.le_two_mul_toInt
      rw [deallocuvm, if_pos (by omega)]
      change Ends (if sz = 0 then _ else _) _
      split_ifs <;> exact ⟨hsz, hpages, .inl rfl⟩
    rw [if_neg fun h => hwrap h.2] at hadd
    have hne := hlow hneg
    have hlt : u32 (sz + n.toNat) < sz := by omega
    refine .bind (deallocuvm_spec d k hsz.le hlt) ?_
    rintro ⟨r, d', k'⟩ ⟨rfl, hclear⟩
    dsimp only at hlt hclear hadd hwrap ⊢
    rw [if_neg (by omega)]
    refine ⟨hlt.trans hsz, ?_, .inr (hadd.trans (Int.add_zero _))⟩
    exact hclear.pages hsz.le hpages (pages_mono hsz.le hlt.le) le_rfl
  · exact ⟨hsz, hpages, .inl rfl⟩

theorem allocLoop_le {fuel a : Nat}
    (halloc : allocLoop oldsz newsz fuel a d k = .ok (r, d', k')) : r ≤ newsz := by
  induction fuel generalizing a d k with
  | zero =>
    cases halloc
    exact le_rfl
  | succ fuel ih =>
    unfold allocLoop at halloc
    split_ifs at halloc
    case neg =>
      cases halloc
      exact le_rfl
    cases hk : k.kalloc with
    | none =>
      rw [hk] at halloc
      obtain ⟨_, -, hfail⟩ := exists_of_bind_ok halloc
      cases hfail
      exact Nat.zero_le _
    | some gk =>
      rw [hk] at halloc
      obtain ⟨⟨mapped, d₁, k₁⟩, -, hrest⟩ := exists_of_bind_ok halloc
      cases mapped with
      | true => exact ih hrest
      | false =>
        obtain ⟨_, -, hfail⟩ := exists_of_bind_ok hrest
        cases hfail
        exact Nat.zero_le _

theorem allocuvm_lt (holdsz : oldsz < kernbase)
    (halloc : allocuvm d oldsz newsz k = .ok (r, d', k')) : r < kernbase := by
  unfold allocuvm at halloc
  split_ifs at halloc with hbig hlt
  · cases halloc
    decide
  · cases halloc
    exact holdsz
  · exact (allocLoop_le halloc).trans_lt (Nat.lt_of_not_le hbig)

theorem deallocuvm_le (hdealloc : deallocuvm d oldsz newsz k = .ok (r, d', k')) : r ≤ oldsz := by
  unfold deallocuvm at hdealloc
  split_ifs at hdealloc with hge
  · cases hdealloc
    exact le_rfl
  · obtain ⟨_, -, hdealloc⟩ := exists_of_bind_ok hdealloc
    cases hdealloc
    exact Nat.le_of_not_le hge

theorem growproc_keeps (n : BitVec 32) (d : Pgdir) (k : Kmem) {r : Int} {sz' : Nat}
    (hsz : sz < kernbase) (hgrow : growproc n sz d k = .ok (r, sz', d', k')) :
    Keeps d.uses k d'.uses k' ∧ sz' < kernbase := by
  unfold growproc at hgrow
  split_ifs at hgrow with hpos hneg
  · obtain ⟨⟨r₁, d₁, k₁⟩, halloc, hgrow⟩ := exists_of_bind_ok hgrow
    have hkeep := (allocuvm_keeps d k hsz.le).1 _ halloc
    dsimp only at hgrow
    split_ifs at hgrow <;> cases hgrow
    · exact ⟨hkeep, hsz⟩
    · exact ⟨hkeep, allocuvm_lt hsz halloc⟩
  · obtain ⟨⟨r₁, d₁, k₁⟩, hdealloc, hgrow⟩ := exists_of_bind_ok hgrow
    have hkeep := (deallocuvm_keeps d k hsz.le).1 _ hdealloc
    dsimp only at hgrow
    split_ifs at hgrow <;> cases hgrow
    · exact ⟨hkeep, hsz⟩
    · exact ⟨hkeep, (deallocuvm_le hdealloc).trans_lt hsz⟩
  · cases hgrow
    exact ⟨.refl _ _, hsz⟩

/-! ### Whether there are pages enough -/

/-- What `m` new pages from the page `v` on take, with the page tables `has`. -/
def needs (has : Nat → Bool) : Nat → Nat → Nat
  | 0, _ => 0
  | m + 1, v => 1 + (if has (v / 1024) then 0 else 1) + needs (fun i => has i || i == v / 1024) m (v + 1)

theorem allocLoop_needs (hnewsz : newsz < kernbase) (fuel v : Nat) (d : Pgdir)
    (k : Kmem) {has : Nat → Bool} (hhas : ∀ i, (d.pde i).isSome = has i) (hfuel : pages newsz ≤ v + fuel)
    (halloc : allocLoop oldsz newsz fuel (pgsize * v) d k = .ok (r, d', k')) (hr : r ≠ 0) :
    r = newsz ∧ needs has (pages newsz - v) v ≤ k.grants := by
  induction fuel generalizing v d k has with
  | zero =>
    cases halloc
    have hzero : pages newsz - v = 0 := Nat.sub_eq_zero_of_le hfuel
    rw [hzero]
    exact ⟨rfl, Nat.zero_le _⟩
  | succ fuel ih =>
    unfold allocLoop at halloc
    by_cases hlt : pgsize * v < newsz
    case neg =>
      rw [if_neg hlt] at halloc
      cases halloc
      have hge : ¬ v < pages newsz := fun h => hlt ((lt_pages hnewsz.le).mp h)
      have hzero : pages newsz - v = 0 := by omega
      rw [hzero]
      exact ⟨rfl, Nat.zero_le _⟩
    rw [if_pos hlt] at halloc
    have hvnew := (lt_pages hnewsz.le).mpr hlt
    have hv : v < npages ∧ u32 (pgsize * v + pgsize) = pgsize * (v + 1) := by
      simp only [pgsize, kernbase] at hlt hnewsz
      simp only [u32, pgsize, npages]
      omega
    cases hk : k.kalloc with
    | none =>
      rw [hk] at halloc
      obtain ⟨_, -, hfail⟩ := exists_of_bind_ok halloc
      cases hfail
      exact absurd rfl hr
    | some gk =>
      obtain ⟨g, k₁⟩ := gk
      rw [hk] at halloc
      obtain ⟨⟨mapped, d₁, k₂⟩, hmap, hrest⟩ := exists_of_bind_ok halloc
      have hgrants := mappages_page_grants hv.1 hmap
      cases mapped with
      | false =>
        obtain ⟨_, -, hfail⟩ := exists_of_bind_ok hrest
        cases hfail
        exact absurd rfl hr
      | true =>
        obtain ⟨hpde, hone⟩ := hgrants
        have hhas' : ∀ i, (d₁.pde i).isSome = (has i || i == v / 1024) := fun i => by
          rw [Bool.eq_iff_iff, hpde, hhas, Bool.or_eq_true, beq_iff_eq]
        change allocLoop oldsz newsz fuel (u32 (pgsize * v + pgsize)) d₁ k₂ = _ at hrest
        rw [hv.2] at hrest
        obtain ⟨hr', hneeds⟩ := ih (v + 1) d₁ k₂ hhas' (by omega) hrest
        obtain ⟨m, hm⟩ : ∃ m, pages newsz - v = m + 1 := ⟨pages newsz - v - 1, by omega⟩
        have hm' : pages newsz - (v + 1) = m := by omega
        rw [hm'] at hneeds
        rw [Kmem.grants_memset, hhas] at hone
        rw [hm, needs, Kmem.grants_kalloc hk, hone]
        exact ⟨hr', by omega⟩

theorem allocuvm_needs (holdsz : oldsz ≤ kernbase)
    (halloc : allocuvm d oldsz newsz k = .ok (r, d', k')) (hr : r ≠ 0) :
    needs (fun i => (d.pde i).isSome) (pages r - pages oldsz) (pages oldsz) ≤ k.grants := by
  unfold allocuvm at halloc
  split_ifs at halloc with hbig hlt
  · cases halloc
    exact absurd rfl hr
  · cases halloc
    rw [Nat.sub_self]
    exact Nat.zero_le _
  · dsimp only at halloc
    rw [pgroundup_eq holdsz] at halloc
    have hfuel : pages newsz ≤ pages oldsz + turns (pgsize * pages oldsz) newsz := by
      rw [pages_eq (Nat.le_of_not_le hbig)]
      simp only [turns, pgsize]
      omega
    obtain ⟨rfl, hneeds⟩ := allocLoop_needs (Nat.lt_of_not_le hbig) _ (pages oldsz) d k (fun _ => rfl)
      hfuel halloc hr
    exact hneeds

theorem growproc_needs {r : Int} {sz' : Nat} (hsz : sz < kernbase)
    (hgrow : growproc n sz d k = .ok (r, sz', d', k')) (hne : sz' ≠ sz) :
    needs (fun i => (d.pde i).isSome) (pages sz' - pages sz) (pages sz) ≤ k.grants := by
  unfold growproc at hgrow
  split_ifs at hgrow with hpos hneg
  · obtain ⟨⟨r₁, d₁, k₁⟩, halloc, hgrow⟩ := exists_of_bind_ok hgrow
    dsimp only at hgrow
    split_ifs at hgrow with hzero
    · cases hgrow
      exact absurd rfl hne
    · cases hgrow
      exact allocuvm_needs hsz.le halloc hzero
  · have hle : sz' ≤ sz := by
      obtain ⟨⟨r₁, d₁, k₁⟩, hdealloc, hgrow⟩ := exists_of_bind_ok hgrow
      dsimp only at hgrow
      split_ifs at hgrow <;> cases hgrow
      · exact le_rfl
      · exact deallocuvm_le hdealloc
    rw [Nat.sub_eq_zero_of_le (pages_mono hsz.le hle)]
    exact Nat.zero_le _
  · cases hgrow
    exact absurd rfl hne

/-! ### A process of two pages -/

theorem exists_process : ∃ d k, Pages d (pages 5000) ∧ Sound d k := by
  have hmade : (setupkvm .onePage eightFree).toOption.any (fun x => x.1.any fun d =>
      (allocuvm d 0 5000 x.2).toOption.any fun y => decide (y.1 = 5000)) = true := by
    decide +kernel
  obtain ⟨⟨_ | d₀, k₀⟩, hsetup, hgrown⟩ := exists_ok hmade
  · cases hgrown
  obtain ⟨⟨r, d, k⟩, halloc, hr⟩ := exists_ok hgrown
  obtain rfl : r = 5000 := of_decide_eq_true hr
  have hempty : Pages d₀ (pages 0) := by
    have hends := setupkvm_pages .onePage eightFree
    rw [hsetup] at hends
    rw [pages_eq (Nat.zero_le _)]
    exact hends d₀ rfl
  have hpages : Pages d (pages 5000) := by
    have hends := allocuvm_pages 5000 k₀ hempty (Nat.zero_le _) (by rintro ⟨⟩)
    rw [halloc] at hends
    exact (hends.resolve_right (by rintro ⟨⟨⟩, -⟩)).2.2
  have hkeep := ((setupkvm_keeps .onePage eightFree).1 _ hsetup).trans
    ((allocuvm_keeps d₀ k₀ (Nat.zero_le _)).1 _ halloc)
  have hcount : ∀ f, d.uses f + k.free f = eightFree.free f := fun f =>
    (hkeep.count f).trans (Nat.zero_add _)
  refine ⟨d, k, hpages, fun f => ?_, ?_⟩
  · rw [hcount]
    exact List.nodup_iff_count_le_one.mp (by decide) f
  · rw [hcount]
    rfl

theorem growproc_atomic_process : ∃ d k, Pages d (pages 5000) ∧ Sound d k ∧
    ∃ r sz' d' k', growproc (-4000) 5000 d k = .ok (r, sz', d', k') ∧
      ((r = 0 ∧ 0 ≤ (5000 : Nat) + (-4000#32).toInt ∧ (5000 : Nat) + (-4000#32).toInt < kernbase ∧
          (sz' : Int) = (5000 : Nat) + (-4000#32).toInt ∧ Resized 5000 sz' d k d' k') ∨
        (r = -1 ∧ sz' = 5000 ∧ Unchanged d k d' k')) := by
  obtain ⟨d, k, hpages, hsound⟩ := exists_process
  exact ⟨d, k, hpages, hsound, (growproc_atomic (by decide) hpages hsound).mpr (.inr (.inl (by decide)))⟩

theorem growproc_not_atomic : ∃ d k, Pages d (pages 5000) ∧ Sound d k ∧
    (∃ d' k', growproc (-5000) 5000 d k = .ok (-1, 5000, d', k') ∧ d.Present 0 ∧ ¬ d'.Present 0) ∧
    growproc (-5001) 5000 d k = .ok (0, 5000, d, k) := by
  obtain ⟨d, k, hpages, hsound⟩ := exists_process
  have hlow := growproc_low (n := -5000) (by decide) hpages hsound (by decide) (by decide) (by decide)
  exact ⟨d, k, hpages, hsound, hlow.resolve_left fun h => absurd h.1 (by decide), rfl⟩

end Xv6.Vm
