import Xv6.Vm.Tables

/-!
# The kernel map

`setupkvm` on the table of the source: with pages for the directory and its page tables it succeeds,
and the processor translates the kernel's addresses as the table says, and no others.
-/

namespace Xv6.Vm

open Pgdir

namespace KmapEntry

def Covers (e : KmapEntry) (vpn : Nat) : Prop := e.first ≤ vpn ∧ vpn ≤ e.last

instance (e : KmapEntry) (vpn : Nat) : Decidable (e.Covers vpn) :=
  inferInstanceAs (Decidable (_ ∧ _))

def pte (e : KmapEntry) (vpn : Nat) : Pte :=
  { frame := e.physStart / pgsize + (vpn - e.first), perm := { writable := e.writable, user := false } }

theorem covers_iff {e : KmapEntry} {t : Nat} (va : Nat) (hvirt : e.virt % pgsize = 0)
    (hend : t % pgsize = 0) (hlt : e.virt < t) (hle : t ≤ 2 ^ 32) (hsize : e.size = t - e.virt) :
    e.Covers (va / pgsize) ↔ e.virt ≤ va ∧ va < t := by
  simp only [Covers, first, last, hsize, u32, pgsize] at *
  omega

theorem translate_pte {e : KmapEntry} {va q : Nat} {w : Bool} (hvirt : e.virt % pgsize = 0)
    (hphys : e.physStart % pgsize = 0) (hle : e.virt ≤ va) (hq : e.physStart + (va - e.virt) = q)
    (hw : e.writable = w) :
    some (pgsize * (e.pte (va / pgsize)).frame + va % pgsize, (e.pte (va / pgsize)).perm) =
      some (q, { writable := w, user := false }) := by
  have haddr : pgsize * (e.pte (va / pgsize)).frame + va % pgsize = q := by
    simp only [pte, first, pgsize] at *
    omega
  rw [haddr, pte, hw]

end KmapEntry

def mapped : List KmapEntry → Nat → Option Pte
  | [], _ => none
  | e :: rest, vpn => if e.Covers vpn then some (e.pte vpn) else mapped rest vpn

theorem mapped_eq_none {entries : List KmapEntry} {vpn : Nat} (hout : ∀ e ∈ entries, ¬ e.Covers vpn) :
    mapped entries vpn = none := by
  induction entries with
  | nil => rfl
  | cons e rest ih =>
    rw [mapped, if_neg (hout e List.mem_cons_self)]
    exact ih fun e' he' => hout e' (List.mem_cons_of_mem e he')

/-! ### Enough pages -/

/-- The page tables still to come are among `need`, and there are pages for all of them. -/
structure Stocked (need : Finset Nat) (d : Pgdir) (k : Kmem) : Prop where
  pde : ∀ i, (d.pde i).isSome → i ∈ need
  grants : need.card ≤ k.grants + d.tables

variable {need : Finset Nat} {d d' : Pgdir} {k k' : Kmem} {new : Nat → Prop} {v : Nat}

theorem tables_eq_card (d : Pgdir) :
    d.tables = ((Finset.range npdentries).filter fun i => (d.pde i).isSome).card := by
  rw [Pgdir.tables, Finset.card_filter]
  refine Finset.sum_congr rfl fun i _ => ?_
  cases d.pde i <;> rfl

theorem Stocked.adds (h : Stocked need d k) (hadds : Adds new d k d' k')
    (hnew : ∀ i, new i → i ∈ need) : Stocked need d' k' where
  pde i hi := ((hadds.pde i).mp hi).elim (h.pde i) (hnew i)
  grants := by
    rw [← hadds.calls]
    exact h.grants

theorem Stocked.walkAlloc (h : Stocked need d k) (hv : v < npages) (hneed : v / 1024 ∈ need) :
    ∃ d' k', d.walkAlloc (pgsize * v) k = some (d', k') := by
  cases halloc : d.walkAlloc (pgsize * v) k with
  | some dk => exact ⟨dk.1, dk.2, rfl⟩
  | none =>
    -- the page table is missing and no page is left for it
    obtain ⟨hmissing, hnone⟩ := walkAlloc_none hv halloc
    have hlt : d.tables < need.card := by
      rw [tables_eq_card]
      refine Finset.card_lt_card ⟨fun i hi => h.pde i (Finset.mem_filter.mp hi).2, fun hsub => ?_⟩
      exact hmissing (Finset.mem_filter.mp (hsub hneed)).2
    have hgrants := h.grants
    omega

theorem Stocked.mapPages (h : Stocked need d k) (perm : Perm) (m : Nat) (pa : Frame)
    (hlast : v + m ≤ npages) (hneed : ∀ w, v ≤ w → w < v + m → w / 1024 ∈ need) {r : Bool}
    (hloop : mapPages perm m v pa d k = .ok (r, d', k')) : r = true := by
  induction m generalizing v pa d k with
  | zero =>
    cases hloop
    rfl
  | succ m ih =>
    have hv : v < npages := by omega
    have hmine := hneed v le_rfl (by omega)
    obtain ⟨d₁, k₁, halloc⟩ := h.walkAlloc hv hmine
    rw [Vm.mapPages, halloc] at hloop
    dsimp only at hloop
    split at hloop
    · cases hloop
    · have hadds := (Adds.walkAlloc hv halloc).trans (.setPte d₁ k₁ (pgsize * v) (some ⟨pa, perm⟩))
      refine ih (v := v + 1) (h.adds hadds ?_) (pa + 1) (by omega)
        (fun w hw hw' => hneed w (by omega) (by omega)) hloop
      rintro i (rfl | hnone)
      · exact hmine
      · exact hnone.elim

theorem mapKmap_maps (entries : List KmapEntry) (d : Pgdir) (k : Kmem) (hstock : Stocked need d k)
    (hneed : ∀ i, Kmap.Needs entries i → i ∈ need)
    (hhigh : ∀ e ∈ entries, userPages ≤ e.first ∧ e.first ≤ e.last)
    (hdisjoint : entries.Pairwise fun e e' => e.last < e'.first ∨ e'.last < e.first)
    (habsent : ∀ e ∈ entries, ∀ vpn, e.Covers vpn → d.entry vpn = none) :
    ∃ d' k', mapKmap entries d k = .ok (some d', k') ∧
      ∀ vpn < npages, d'.entry vpn = (mapped entries vpn).or (d.entry vpn) := by
  induction entries generalizing d k with
  | nil => exact ⟨d, k, rfl, fun _ _ => rfl⟩
  | cons e rest ih =>
    obtain ⟨-, hle⟩ := hhigh e List.mem_cons_self
    have hlast := e.last_lt
    rw [List.pairwise_cons] at hdisjoint
    obtain ⟨r, d₁, k₁, j, hloop, hj, -, hentry⟩ := mapPages_spec
      { writable := e.writable, user := false } (e.last - e.first + 1) e.first (e.physStart / pgsize) d k
      (by omega) fun vpn hge hlt => habsent e List.mem_cons_self vpn ⟨hge, by omega⟩
    obtain rfl : r = true := hstock.mapPages _ _ _ (by omega)
      (fun w hw hw' => hneed _ ⟨e, List.mem_cons_self, by omega, by omega⟩) hloop
    rw [if_pos rfl] at hj
    subst hj
    have hentry' : ∀ vpn < npages,
        d₁.entry vpn = if e.Covers vpn then some (e.pte vpn) else d.entry vpn := by
      intro vpn hvpn
      have hiff : e.Covers vpn ↔ e.first ≤ vpn ∧ vpn < e.first + (e.last - e.first + 1) := by
        unfold KmapEntry.Covers
        omega
      simp only [hentry vpn hvpn, hiff]
      rfl
    have hadds := mapPages_adds _ _ e.first _ d d₁ k k₁ (by omega) hloop
    have hstock₁ := hstock.adds hadds fun i hi => by
      obtain ⟨w, hw, hw', rfl⟩ := hi
      exact hneed _ ⟨e, List.mem_cons_self, by omega, by omega⟩
    obtain ⟨d', k', hrest, hentries⟩ := ih d₁ k₁ hstock₁
      (fun i ⟨e', he', hin⟩ => hneed i ⟨e', List.mem_cons_of_mem _ he', hin⟩)
      (fun e' he' => hhigh e' (List.mem_cons_of_mem _ he')) hdisjoint.2 fun e' he' vpn hin => by
        have hapart := hdisjoint.1 e' he'
        have hin' := hin
        unfold KmapEntry.Covers at hin'
        have hout : ¬ e.Covers vpn := by
          unfold KmapEntry.Covers
          omega
        rw [hentry' vpn (Nat.lt_of_le_of_lt hin.2 e'.last_lt), if_neg hout]
        exact habsent e' (List.mem_cons_of_mem _ he') vpn hin
    refine ⟨d', k', ?_, fun vpn hvpn => ?_⟩
    · unfold mapKmap
      rw [mappages_kmap _ _ _ _ hle, hloop]
      exact hrest
    · rw [hentries vpn hvpn, hentry' vpn hvpn]
      rw [mapped]
      by_cases hin : e.Covers vpn
      · -- the later entries do not cover the page
        rw [if_pos hin, if_pos hin, mapped_eq_none]
        · rfl
        intro e' he'
        have hapart := hdisjoint.1 e' he'
        unfold KmapEntry.Covers at hin ⊢
        omega
      · rw [if_neg hin, if_neg hin]

/-- With pages for the directory and the page tables, `setupkvm` does what its table says. -/
theorem setupkvm_maps (kmap : Kmap) (k : Kmem) (need : Finset Nat) (hneed : ∀ i, Kmap.Needs kmap.entries i → i ∈ need)
    (hgrants : need.card < k.grants) :
    ∃ d k', setupkvm kmap k = .ok (some d, k') ∧ ∀ vpn < npages, d.entry vpn = mapped kmap.entries vpn := by
  unfold setupkvm
  cases hk : k.kalloc with
  | none =>
    rw [Kmem.grants_of_none hk] at hgrants
    cases hgrants
  | some fk =>
    obtain ⟨f, k₁⟩ := fk
    rw [Kmem.grants_kalloc hk] at hgrants
    have hstock : Stocked need { frame := f, pde := fun _ => none } (k₁.memset f 0) := by
      refine ⟨nofun, ?_⟩
      rw [Kmem.grants_memset]
      omega
    obtain ⟨d, k', hrun, hentry⟩ := mapKmap_maps _ _ _ hstock hneed kmap.high kmap.disjoint fun _ _ _ _ => rfl
    exact ⟨d, k', hrun, fun vpn hvpn => (hentry vpn hvpn).trans (Option.or_none ..)⟩

theorem setupkvm_none {kmap : Kmap} (hsetup : setupkvm kmap k = .ok (none, k')) : k.grants ≤ kmap.tables := by
  by_contra hlt
  have hneed : ∀ i, Kmap.Needs kmap.entries i → i < npdentries := by
    rintro i ⟨e, -, -, hle⟩
    have hlast := e.last_lt
    simp only [npages] at hlast
    simp only [npdentries]
    omega
  obtain ⟨d, k₁, hrun, -⟩ := setupkvm_maps kmap k ((Finset.range npdentries).filter (Kmap.Needs kmap.entries))
    (fun i hi => Finset.mem_filter.mpr ⟨Finset.mem_range.mpr (hneed i hi), hi⟩) (Nat.lt_of_not_le hlt)
  cases hrun.symm.trans hsetup

/-! ### The table of the source -/

/-- The physical address that the processor comes to, and the permissions of the page. -/
def Pgdir.translate (d : Pgdir) (va : Nat) : Option (Nat × Perm) :=
  (d.walk va).join.map fun e => (pgsize * e.frame + va % pgsize, e.perm)

theorem translate_eq {va : Nat} (hva : va < 2 ^ 32) :
    d.translate va = (d.entry (va / pgsize)).map fun e => (pgsize * e.frame + va % pgsize, e.perm) := by
  have hpage : va / pgsize % npages = va / pgsize := by
    simp only [pgsize, npages]
    omega
  rw [Pgdir.translate, walk_page, hpage]
  rfl

/-- The page tables of the kernel map: 224 MB from `kernbase` on, and 32 MB of devices. -/
def kernelTables : Finset Nat :=
  (Finset.range npdentries).filter fun i => 512 ≤ i ∧ i < 568 ∨ 1016 ≤ i

section Source

variable {data : Nat} (halign : data % pgsize = 0) (hlow : kernlink < data)
  (hhigh : data < kernbase + phystop)

theorem kmap_needs {i : Nat} (hi : Kmap.Needs (kmap data halign hlow hhigh).entries i) :
    i ∈ kernelTables := by
  obtain ⟨e, he, hin⟩ := hi
  rw [kernelTables, Finset.mem_filter, Finset.mem_range]
  simp only [kernlink, kernbase, extmem, phystop, pgsize] at halign hlow hhigh
  simp only [kmap, List.mem_cons, List.not_mem_nil, or_false] at he
  obtain rfl | rfl | rfl | rfl := he <;>
    simp only [KmapEntry.first, KmapEntry.last, KmapEntry.size, u32, kernlink, kernbase, extmem,
      phystop, devspace, pgsize, npdentries] at hin ⊢ <;>
    omega

theorem mapped_kmap {va : Nat} (hva : va < 2 ^ 32) :
    (mapped (kmap data halign hlow hhigh).entries (va / pgsize)).map
        (fun e => (pgsize * e.frame + va % pgsize, e.perm)) =
      if kernbase ≤ va ∧ va < kernbase + phystop then
        some (va - kernbase, { writable := decide (va < kernlink ∨ data ≤ va), user := false })
      else if devspace ≤ va then
        some (va, { writable := true, user := false })
      else none := by
  have hsmall := hhigh
  have hlink := hlow
  have hpages := halign
  simp only [kernlink, kernbase, extmem, phystop, pgsize] at hsmall hlink hpages
  have hkernlink : kernlink % pgsize = 0 := by decide
  have hio := KmapEntry.covers_iff (e := ⟨kernbase, 0, extmem, true⟩) (t := kernlink) va
    rfl rfl (by decide) (by decide) (by decide)
  have htext := KmapEntry.covers_iff
    (e := ⟨kernlink, kernlink - kernbase, data - kernbase, false⟩) (t := data) va
    hkernlink halign hlow (by omega) (by simp only [KmapEntry.size, u32, kernlink, kernbase, extmem]; omega)
  have hmem := KmapEntry.covers_iff
    (e := ⟨data, data - kernbase, phystop, true⟩) (t := kernbase + phystop) va
    halign rfl hhigh (by decide) (by simp only [KmapEntry.size, u32, kernbase, phystop]; omega)
  have hdev := KmapEntry.covers_iff (e := ⟨devspace, devspace, 0, true⟩) (t := 2 ^ 32) va
    rfl rfl (by decide) (by decide) (by decide)
  simp only [kmap, mapped, hio, htext, hmem, hdev]
  have horder : kernbase ≤ kernlink ∧ kernbase + phystop ≤ devspace := by decide
  -- the region of the address decides which entry covers its page
  split_ifs with h₁ h₂ h₃ h₄ h₅ h₆ h₇ h₈ h₉ h₁₀ <;>
    first | omega | rw [Option.map_some] | rw [Option.map_none]
  · exact KmapEntry.translate_pte rfl rfl h₁.1 (Nat.zero_add _) (decide_eq_true (.inl h₁.2)).symm
  · refine KmapEntry.translate_pte hkernlink (show (kernlink - kernbase) % pgsize = 0 by decide) h₄.1
      ?_ (decide_eq_false (by omega)).symm
    change kernlink - kernbase + (va - kernlink) = _
    omega
  · refine KmapEntry.translate_pte halign ?_ h₇.1 ?_ (decide_eq_true (.inr h₇.1)).symm
    · simp only [kernbase, pgsize]
      omega
    · change data - kernbase + (va - data) = _
      omega
  · exact KmapEntry.translate_pte rfl rfl h₁₀.1 (Nat.add_sub_cancel' h₁₀.1) rfl

/-- **`setupkvm` maps exactly the kernel map.** Wherever the linker puts the kernel's data, `setupkvm`
succeeds with 65 pages. Then the physical memory is at `kernbase`, read-only from `kernlink` to the
data, the devices are where they are, nothing else is mapped, and user programs have access to none of
it. The panic in `setupkvm` is not reached either: the memory ends below the devices. -/
theorem setupkvm_exact (k : Kmem) (hfree : 65 ≤ k.grants) : kernbase + phystop ≤ devspace ∧
    ∃ d k', setupkvm (kmap data halign hlow hhigh) k = .ok (some d, k') ∧ ∀ va < 2 ^ 32, d.translate va =
        if kernbase ≤ va ∧ va < kernbase + phystop then
          some (va - kernbase, { writable := decide (va < kernlink ∨ data ≤ va), user := false })
        else if devspace ≤ va then
          some (va, { writable := true, user := false })
        else none := by
  refine ⟨by decide, ?_⟩
  have hcard : kernelTables.card = 64 := by decide +kernel
  obtain ⟨d, k', hrun, hentry⟩ :=
    setupkvm_maps _ k _ (fun _ => kmap_needs halign hlow hhigh) (Nat.lt_of_lt_of_le (by rw [hcard]; decide) hfree)
  refine ⟨d, k', hrun, fun va hva => ?_⟩
  have hpage : va / pgsize < npages := by
    simp only [pgsize, npages]
    omega
  rw [translate_eq hva, hentry _ hpage, ← mapped_kmap halign hlow hhigh hva]

end Source

theorem setupkvm_exact_first : ∃ d k',
    setupkvm (kmap (kernlink + pgsize) (by decide) (by decide) (by decide))
      { freelist := List.range' 1 65, mem := fun _ _ => 0, fails := [], calls := [] } = .ok (some d, k') ∧
      d.translate kernlink = some (extmem, { writable := false, user := false }) := by
  obtain ⟨-, d, k', hrun, htranslate⟩ := setupkvm_exact
    (show (kernlink + pgsize) % pgsize = 0 by decide) (by decide) (by decide)
    { freelist := List.range' 1 65, mem := fun _ _ => 0, fails := [], calls := [] } (by decide)
  exact ⟨d, k', hrun, htranslate kernlink (by decide)⟩

end Xv6.Vm
