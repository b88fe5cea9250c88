import Xv6.Vm.Isolation

/-!
# Which allocation is for what

Until one of them fails, `copyuvm` makes its calls of `kalloc` in a fixed order: the directory, the page
tables of the kernel's addresses, and then a page for each page of the parent, followed by a page table
where a new one begins. When that page table cannot be had, the page before it is not given back.
-/

namespace Xv6.Vm

/-- How many allocations succeed before the first one fails, if no page is given back meanwhile. -/
def granted : List Bool → List Frame → Nat
  | _, [] => 0
  | fails, _ :: rest => if fails.headD false then 0 else granted fails.tail rest + 1

namespace Kmem

variable {k k' : Kmem} {g : Frame}

def grants (k : Kmem) : Nat := granted k.fails k.freelist

theorem grants_kalloc (halloc : k.kalloc = some (g, k')) : k.grants = k'.grants + 1 := by
  unfold kalloc at halloc
  split at halloc
  · rename_i hhead hlist
    cases halloc
    rw [grants, hlist, granted, if_neg (by rw [hhead]; decide)]
    rfl
  · cases halloc

theorem grants_memset (k : Kmem) (g : Frame) (c : UInt8) : (k.memset g c).grants = k.grants := rfl

theorem grants_memmove (k : Kmem) (g f : Frame) : (k.memmove g f).grants = k.grants := rfl

theorem grants_of_none (hnone : k.kalloc = none) : k.grants = 0 := by
  unfold kalloc at hnone
  split at hnone
  · cases hnone
  rename_i hother
  unfold grants
  cases hlist : k.freelist with
  | nil => rfl
  | cons f rest =>
    rw [granted, if_pos]
    cases hhead : k.fails.headD false with
    | true => rfl
    | false => exact absurd hlist (hother f rest hhead)

end Kmem

namespace Pgdir

variable {d d' : Pgdir} {k k' : Kmem} {v : Nat}

def tables (d : Pgdir) : Nat := ∑ i ∈ Finset.range npdentries, (d.pde i).isSome.toNat

theorem pde_setPde (d : Pgdir) (i : Nat) (t : PageTable) :
    (d.setPde i t).pde = Function.update d.pde i (some t) := rfl

theorem tables_setPde (d : Pgdir) {i : Nat} (hi : i < npdentries) (t : PageTable) :
    (d.setPde i t).tables + (d.pde i).isSome.toNat = d.tables + 1 := by
  have hsum := sum_update_add_of_mem (Finset.mem_range.mpr hi) (fun _ t => Bool.toNat (Option.isSome t))
    d.pde (some t)
  rwa [Option.isSome_some, Bool.toNat_true, ← pde_setPde] at hsum

theorem isSome_setPde (i j : Nat) (t : PageTable) :
    ((d.setPde i t).pde j).isSome ↔ (d.pde j).isSome ∨ j = i := by
  rw [pde_setPde]
  by_cases hj : j = i
  · subst hj
    rw [Function.update_self]
    exact ⟨fun _ => .inr rfl, fun _ => rfl⟩
  · rw [Function.update_of_ne hj]
    exact ⟨.inl, fun h => h.resolve_right hj⟩

theorem walkAlloc_tables (hv : v < npages) (halloc : d.walkAlloc (pgsize * v) k = some (d', k')) :
    (∀ i, (d'.pde i).isSome ↔ (d.pde i).isSome ∨ i = v / 1024) ∧
      (k.grants = k'.grants + if (d.pde (v / 1024)).isSome then 0 else 1) ∧
      d'.tables = d.tables + if (d.pde (v / 1024)).isSome then 0 else 1 := by
  cases WalkAlloc.of_eq hv halloc with
  | found ht =>
    rw [ht, Option.isSome_some, if_pos rfl]
    refine ⟨fun i => ⟨.inl, fun h => h.elim id ?_⟩, (Nat.add_zero _).symm, (Nat.add_zero _).symm⟩
    rintro rfl
    rw [ht]
    rfl
  | @made g k₁ ht hkalloc =>
    have hi : v / 1024 < npdentries := by
      simp only [npages] at hv
      simp only [npdentries]
      omega
    have htables := tables_setPde d hi { frame := g, pte := fun _ => none }
    rw [ht, Option.isSome_none, Bool.toNat_false, Nat.add_zero] at htables
    rw [ht, Option.isSome_none, if_neg Bool.false_ne_true, Kmem.grants_memset]
    exact ⟨fun i => isSome_setPde _ i _, Kmem.grants_kalloc hkalloc, htables⟩

theorem walkAlloc_none (hv : v < npages) (hnone : d.walkAlloc (pgsize * v) k = none) :
    ¬ (d.pde (v / 1024)).isSome ∧ k.grants = 0 := by
  unfold walkAlloc at hnone
  rw [pdx_page hv] at hnone
  cases ht : d.pde (v / 1024) with
  | some t =>
    rw [ht] at hnone
    cases hnone
  | none =>
    rw [ht] at hnone
    cases hkalloc : k.kalloc with
    | none => exact ⟨nofun, Kmem.grants_of_none hkalloc⟩
    | some gk =>
      rw [hkalloc] at hnone
      cases hnone

end Pgdir

open Pgdir

/-- Page tables are added for the indices `new`, each with a page of its own. -/
structure Adds (new : Nat → Prop) (d : Pgdir) (k : Kmem) (d' : Pgdir) (k' : Kmem) : Prop where
  pde : ∀ i, (d'.pde i).isSome ↔ (d.pde i).isSome ∨ new i
  calls : k.grants + d.tables = k'.grants + d'.tables

namespace Adds

variable {d d' d'' : Pgdir} {k k' k'' : Kmem} {new new' : Nat → Prop} {v : Nat}

theorem refl (d : Pgdir) (k : Kmem) : Adds (fun _ => False) d k d k :=
  ⟨fun _ => (iff_of_eq (or_false _)).symm, rfl⟩

theorem trans (h : Adds new d k d' k') (h' : Adds new' d' k' d'' k'') :
    Adds (fun i => new i ∨ new' i) d k d'' k'' :=
  ⟨fun i => by rw [h'.pde, h.pde, or_assoc], h.calls.trans h'.calls⟩

theorem congr (h : Adds new d k d' k') (hnew : ∀ i, new i ↔ new' i) : Adds new' d k d' k' :=
  ⟨fun i => by rw [h.pde, hnew], h.calls⟩

theorem walkAlloc (hv : v < npages) (halloc : d.walkAlloc (pgsize * v) k = some (d', k')) :
    Adds (· = v / 1024) d k d' k' := by
  obtain ⟨hpde, hgrants, htables⟩ := walkAlloc_tables hv halloc
  exact ⟨hpde, by omega⟩

theorem setPte (d : Pgdir) (k : Kmem) (va : Nat) (e : Option Pte) :
    Adds (fun _ => False) d k (d.setPte va e) k := by
  cases ht : d.pde (pdx va) with
  | none =>
    rw [Pgdir.setPte, ht]
    exact refl d k
  | some t =>
    have hset : d.setPte va e = d.setPde (pdx va) { t with pte := Function.update t.pte (ptx va) e } := by
      rw [Pgdir.setPte, ht]
    rw [hset]
    constructor
    · intro i
      rw [isSome_setPde]
      refine ⟨fun h => .inl (h.elim id ?_), fun h => .inl (h.resolve_right id)⟩
      rintro rfl
      rw [ht]
      rfl
    · have hpdx : pdx va < npdentries := Nat.mod_lt _ (by decide)
      have htables := tables_setPde d hpdx { t with pte := Function.update t.pte (ptx va) e }
      rw [ht, Option.isSome_some, Bool.toNat_true] at htables
      omega

end Adds

/-! ### Mapping -/

theorem mapPages_adds (perm : Perm) (m v : Nat) (pa : Frame) (d d' : Pgdir) (k k' : Kmem)
    (hlast : v + m ≤ npages) (hmapped : mapPages perm m v pa d k = .ok (true, d', k')) :
    Adds (fun i => ∃ w, v ≤ w ∧ w < v + m ∧ w / 1024 = i) d k d' k' := by
  induction m generalizing v pa d k with
  | zero =>
    cases hmapped
    exact (Adds.refl _ _).congr fun i => ⟨False.elim, fun ⟨w, hw, hw', _⟩ => by omega⟩
  | succ m ih =>
    have hv : v < npages := by omega
    unfold mapPages at hmapped
    cases halloc : d.walkAlloc (pgsize * v) k with
    | none =>
      rw [halloc] at hmapped
      cases hmapped
    | some dk =>
      obtain ⟨d₁, k₁⟩ := dk
      rw [halloc] at hmapped
      dsimp only at hmapped
      split at hmapped
      · cases hmapped
      have hrest := ih (v + 1) (pa + 1) _ k₁ (by omega) hmapped
      refine (((Adds.walkAlloc hv halloc).trans (Adds.setPte d₁ k₁ _ _)).trans hrest).congr
        fun i => ⟨?_, ?_⟩
      · rintro ((rfl | h) | ⟨w, hw, hw', rfl⟩)
        · exact ⟨v, Nat.le_refl v, by omega, rfl⟩
        · exact h.elim
        · exact ⟨w, by omega, by omega, rfl⟩
      · rintro ⟨w, hw, hw', rfl⟩
        by_cases heq : w = v
        · exact .inl (.inl (heq ▸ rfl))
        · exact .inr ⟨w, by omega, by omega, rfl⟩

/-- The page tables for the kernel's addresses. -/
def Kmap.Needs (entries : List KmapEntry) (i : Nat) : Prop :=
  ∃ e ∈ entries, e.first / 1024 ≤ i ∧ i ≤ e.last / 1024

instance (entries : List KmapEntry) : DecidablePred (Kmap.Needs entries) := fun _ =>
  inferInstanceAs (Decidable (∃ _ ∈ _, _))

def Kmap.tables (kmap : Kmap) : Nat :=
  ((Finset.range npdentries).filter (Kmap.Needs kmap.entries)).card

theorem mapKmap_adds (entries : List KmapEntry) (d d' : Pgdir) (k k' : Kmem)
    (hhigh : ∀ e ∈ entries, userPages ≤ e.first ∧ e.first ≤ e.last)
    (hmapped : mapKmap entries d k = .ok (some d', k')) : Adds (Kmap.Needs entries) d k d' k' := by
  induction entries generalizing d k with
  | nil =>
    cases hmapped
    exact (Adds.refl _ _).congr fun i => ⟨False.elim, fun ⟨e, he, _⟩ => nomatch he⟩
  | cons e rest ih =>
    obtain ⟨-, hle⟩ := hhigh e List.mem_cons_self
    have hlast := e.last_lt
    unfold mapKmap at hmapped
    obtain ⟨⟨mapped, d₁, k₁⟩, hloop, hmapped⟩ := exists_of_bind_ok hmapped
    rw [mappages_kmap _ _ _ _ hle] at hloop
    cases mapped with
    | false =>
      obtain ⟨k₂, -, hmapped⟩ := exists_of_bind_ok hmapped
      cases hmapped
    | true =>
      have hfirst := mapPages_adds _ _ e.first _ d d₁ k k₁ (by omega) hloop
      have hrest := ih d₁ k₁ (fun e' he' => hhigh e' (List.mem_cons_of_mem _ he')) hmapped
      refine (hfirst.trans hrest).congr fun i => ?_
      simp only [Kmap.Needs, List.mem_cons, exists_eq_or_imp]
      refine or_congr_left ⟨?_, fun hin => ⟨max e.first (1024 * i), ?_⟩⟩
      · rintro ⟨w, hw, hw', rfl⟩
        omega
      · omega

theorem setupkvm_tables {kmap : Kmap} {k k' : Kmem} {d : Pgdir}
    (hsetup : setupkvm kmap k = .ok (some d, k')) :
    k.grants = k'.grants + 1 + kmap.tables ∧ ∀ i < userTables, ¬ (d.pde i).isSome := by
  unfold setupkvm at hsetup
  cases hk : k.kalloc with
  | none =>
    rw [hk] at hsetup
    cases hsetup
  | some gk =>
    obtain ⟨g, k₁⟩ := gk
    rw [hk] at hsetup
    have hadds := mapKmap_adds kmap.entries _ d _ k' kmap.high hsetup
    have hpde : ∀ i, (d.pde i).isSome ↔ Kmap.Needs kmap.entries i := fun i =>
      (hadds.pde i).trans (or_iff_right nofun)
    have hcount : d.tables = kmap.tables := by
      rw [Pgdir.tables, Kmap.tables, Finset.card_filter]
      refine Finset.sum_congr rfl fun i _ => ?_
      split_ifs with hneeds
      · rw [(hpde i).mpr hneeds, Bool.toNat_true]
      · rw [Bool.eq_false_iff.mpr fun h => hneeds ((hpde i).mp h), Bool.toNat_false]
    have hempty : ({ frame := g, pde := fun _ => none } : Pgdir).tables = 0 :=
      Finset.sum_eq_zero fun _ _ => rfl
    have hcalls : k₁.grants + _ = _ := hadds.calls
    refine ⟨?_, fun i hi hsome => ?_⟩
    · rw [Kmem.grants_kalloc hk]
      omega
    · obtain ⟨e, he, hfirst, -⟩ := (hpde i).mp hsome
      have huser := (kmap.high e he).1
      simp only [userTables, userPages, kernbase, pgsize] at hi huser
      omega

theorem mappages_page_grants {v : Nat} {d d' : Pgdir} {perm : Perm} {pa : Frame} {k k' : Kmem}
    {mapped : Bool} (hv : v < npages)
    (hmap : mappages d (pgsize * v) pgsize pa perm k = .ok (mapped, d', k')) :
    if mapped then
      (∀ i, (d'.pde i).isSome ↔ (d.pde i).isSome ∨ i = v / 1024) ∧
        k.grants = k'.grants + if (d.pde (v / 1024)).isSome then 0 else 1
    else
      ¬ (d.pde (v / 1024)).isSome ∧ k.grants = 0 := by
  simp only [mappages_page_eq d pa perm k hv, mapPages] at hmap
  cases halloc : d.walkAlloc (pgsize * v) k with
  | none =>
    rw [halloc] at hmap
    cases hmap
    exact walkAlloc_none hv halloc
  | some dk =>
    obtain ⟨d₁, k₁⟩ := dk
    obtain ⟨hpde, hgrants, -⟩ := walkAlloc_tables hv halloc
    rw [halloc] at hmap
    dsimp only at hmap
    split at hmap
    · cases hmap
    · cases hmap
      refine ⟨fun i => ?_, hgrants⟩
      rw [(Adds.setPte d₁ k' (pgsize * v) _).pde, or_false, hpde]

end Xv6.Vm
