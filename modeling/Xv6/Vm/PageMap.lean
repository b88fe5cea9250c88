import Xv6.Vm.Grow

/-!
# `allocuvm` and `deallocuvm` on a page map

A page table is a map from page numbers to entries. `allocuvm` adds the pages that are missing below a
size, or none; `deallocuvm` removes those from a size on, and its jump over a missing page table is
the same as looking at every page.
-/

namespace Xv6.Vm

open Pgdir

variable {d d' : Pgdir} {k k' : Kmem} {oldsz newsz : Nat}

theorem freePages_ok {vs : List Nat} (hvs : ∀ v ∈ vs, v < npages) (hnodup : vs.Nodup)
    (hzero : ∀ v ∈ vs, ∀ e, d.entry v = some e → e.frame ≠ 0) : ∃ d' k', freePages vs d k = .ok (d', k') ∧
      k'.freelist = ((vs.filterMap d.entry).map (·.frame)).reverse ++ k.freelist := by
  induction vs generalizing d k with
  | nil => exact ⟨d, k, rfl, rfl⟩
  | cons v vs ih =>
    obtain ⟨hnot, hnodup'⟩ := List.nodup_cons.mp hnodup
    have hvs' : ∀ w ∈ vs, w < npages := fun w hw => hvs w (List.mem_cons_of_mem v hw)
    rw [freePages]
    cases he : d.entry v with
    | none =>
      rw [List.filterMap_cons_none he]
      exact ih hvs' hnodup' fun w hw => hzero w (List.mem_cons_of_mem v hw)
    | some e =>
      have hsame : ∀ w ∈ vs, (d.setPte (pgsize * v) none).entry w = d.entry w := by
        intro w hw
        rw [entry_setPte (hvs v List.mem_cons_self) (walk_of_entry he) (hvs' w hw), if_neg]
        rintro rfl
        exact hnot hw
      dsimp only
      rw [if_neg (hzero v List.mem_cons_self e he)]
      obtain ⟨d', k', hfree, hlist⟩ := ih (d := d.setPte (pgsize * v) none) (k := k.kfree e.frame)
        hvs' hnodup' fun w hw => by
          rw [hsame w hw]
          exact hzero w (List.mem_cons_of_mem v hw)
      refine ⟨d', k', hfree, ?_⟩
      rw [hlist, List.filterMap_congr hsame, List.filterMap_cons_some he, List.map_cons,
        List.reverse_cons, List.append_assoc]
      rfl

/-- The map after `allocuvm`: the pages from `oldsz` up to `newsz` are new. Each is a page of zeros
that was free and that no other page number leads to. -/
structure Extended (oldsz newsz : Nat) (d : Pgdir) (k : Kmem) (d' : Pgdir) (k' : Kmem) : Prop where
  old : ∀ vpn < npages, ¬ (oldsz ≤ pgsize * vpn ∧ pgsize * vpn < newsz) → d'.entry vpn = d.entry vpn
  new : ∀ vpn, oldsz ≤ pgsize * vpn → pgsize * vpn < newsz → ∃ g, d'.entry vpn = some ⟨g, userPerm⟩ ∧
    g ∈ k.freelist ∧ g ∉ k'.freelist ∧ k'.mem g = (fun _ => 0) ∧
    ∀ w < userPages, w ≠ vpn → ∀ e, d'.entry w = some e → e.frame ≠ g

/-- The map after `deallocuvm`: the pages from `newsz` up to `oldsz` are gone, and those that were
there are on the free list. -/
structure Shortened (newsz oldsz : Nat) (d : Pgdir) (k : Kmem) (d' : Pgdir) (k' : Kmem) : Prop where
  entry : ∀ vpn < npages, d'.entry vpn =
    if newsz ≤ pgsize * vpn ∧ pgsize * vpn < oldsz then none else d.entry vpn
  freelist : ∃ vs : List Nat, (∀ v, v ∈ vs ↔ newsz ≤ pgsize * v ∧ pgsize * v < oldsz) ∧ vs.Nodup ∧
    k'.freelist = ((vs.filterMap d.entry).map (·.frame)).reverse ++ k.freelist
  mem : ∀ f, (∀ vpn e, newsz ≤ pgsize * vpn → pgsize * vpn < oldsz → d.entry vpn = some e →
    e.frame ≠ f) → k'.mem f = k.mem f

theorem pages_le {sz vpn : Nat} (hsz : sz ≤ kernbase) : pages sz ≤ vpn ↔ sz ≤ pgsize * vpn := by
  rw [← Nat.not_lt, lt_pages hsz, Nat.not_lt]

theorem Sound.keeps (h : Sound d k) (hkeep : Keeps d.uses k d'.uses k') : Sound d' k' where
  once f := by rw [hkeep.count]; exact h.once f
  zero := by rw [hkeep.count]; exact h.zero

theorem Filled.extended (hgrown : Grown (pages oldsz) (pages newsz) d k d' k') (hsound : Sound d k)
    (hsound' : Sound d' k') (hold : oldsz ≤ kernbase) (hnew : newsz ≤ kernbase) :
    Extended oldsz newsz d k d' k' where
  old vpn hvpn hout := hgrown.old vpn hvpn fun hin =>
    hout ⟨(pages_le hold).mp hin.1, (lt_pages hnew).mp hin.2⟩
  new vpn hge hlt := by
    obtain ⟨g, hg, hfree, hzero⟩ := hgrown.new vpn ((pages_le hold).mpr hge) ((lt_pages hnew).mpr hlt)
    have huser := lt_userPages hnew hlt
    obtain ⟨hbytes, hnot⟩ := hzero hsound.nodup
    exact ⟨g, hg, hfree, hnot, hbytes, fun w hw hne e he =>
      hsound'.frame_ne hw huser hne he hg⟩

/-- **`allocuvm` and `deallocuvm` are updates of a page map.** On a page table with the pages of the
old size, whatever allocations fail, `allocuvm` extends the map to the new size or leaves it, and does
not panic. `deallocuvm` frees page after page, and shortens the map. -/
theorem uvm_refines_map : (∀ (d : Pgdir) (k : Kmem) (oldsz newsz : Nat), Sound d k →
      (∀ vpn < userPages, d.Present vpn ↔ pgsize * vpn < oldsz) →
      ∃ r d' k', allocuvm d oldsz newsz k = .ok (r, d', k') ∧
        ((r = (if newsz < oldsz then oldsz else newsz) ∧ Extended oldsz newsz d k d' k') ∨
          (r = 0 ∧ ∀ vpn < npages, d'.entry vpn = d.entry vpn)) ∧
        ∀ f, f ∉ k.freelist → k'.mem f = k.mem f ∧ f ∉ k'.freelist) ∧
    ∀ (d : Pgdir) (k : Kmem) (oldsz newsz : Nat), oldsz ≤ kernbase →
      (newsz < oldsz → deallocuvm d oldsz newsz k =
        (freePages (pagesFrom (pages newsz) oldsz) d k).map fun r => (newsz, r)) ∧
      ((∀ vpn e, newsz ≤ pgsize * vpn → pgsize * vpn < oldsz → d.entry vpn = some e → e.frame ≠ 0) →
        ∃ d' k', deallocuvm d oldsz newsz k = .ok (min oldsz newsz, d', k') ∧
          Shortened newsz oldsz d k d' k') := by
  refine ⟨fun d k oldsz newsz hsound hpresent => ?_, fun d k oldsz newsz hold => ?_⟩
  · by_cases hold : oldsz ≤ kernbase
    · have hpages : Pages d (pages oldsz) := fun vpn hvpn =>
        (hpresent vpn hvpn).trans (lt_pages hold).symm
      obtain ⟨⟨r, d', k'⟩, hrun, hspec, hkeep⟩ := (allocuvm_keeps d k hold).returns
        (allocuvm_spec newsz k hpages.above hold) hsound.zero
      refine ⟨r, d', k', hrun, ?_⟩
      obtain ⟨hlt, hr, hgrown⟩ | ⟨hr, hrestored⟩ := hspec
      · have hmax : max oldsz newsz ≤ kernbase := by omega
        have hextended := hgrown.extended hsound (hsound.keeps hkeep) hold hmax
        refine ⟨.inl ⟨hr.trans ?_, fun vpn hvpn hout => hextended.old vpn hvpn (by omega),
          fun vpn hge hlt => hextended.new vpn hge (by omega)⟩,
          fun f hf => ⟨hgrown.spares.mem f hf, hgrown.spares.free f hf⟩⟩
        split_ifs <;> omega
      · exact ⟨.inr ⟨hr, hrestored.entry⟩, fun f hf => ⟨hrestored.mem f hf, hrestored.free f hf⟩⟩
    · -- every user page is present already
      unfold allocuvm
      by_cases hbig : kernbase ≤ newsz
      · rw [if_pos hbig]
        exact ⟨0, d, k, rfl, .inr ⟨rfl, fun _ _ => rfl⟩, fun _ hf => ⟨rfl, hf⟩⟩
      · rw [if_neg hbig, if_pos (by omega), if_pos (by omega)]
        exact ⟨oldsz, d, k, rfl, .inl ⟨rfl, fun _ _ _ => rfl, fun _ hge hlt => by omega⟩,
          fun _ hf => ⟨rfl, hf⟩⟩
  · have heach : newsz < oldsz → deallocuvm d oldsz newsz k =
        (freePages (pagesFrom (pages newsz) oldsz) d k).map fun r => (newsz, r) :=
      deallocuvm_eq d k hold
    refine ⟨heach, fun hzero => ?_⟩
    by_cases hlt : newsz < oldsz
    · have hlow : ∀ v, pages newsz ≤ v ↔ newsz ≤ pgsize * v := fun v => pages_le (by omega)
      have hmem : ∀ v, v ∈ pagesFrom (pages newsz) oldsz ↔ newsz ≤ pgsize * v ∧ pgsize * v < oldsz :=
        fun v => (mem_pagesFrom _ v hold).trans (and_congr_left' (hlow v))
      have hnodup : (pagesFrom (pages newsz) oldsz).Nodup := List.nodup_range'
      have hbound : ∀ v ∈ pagesFrom (pages newsz) oldsz, v < npages := fun v hv =>
        lt_npages (lt_userPages hold ((hmem v).mp hv).2)
      obtain ⟨d', k', hfree, hlist⟩ := freePages_ok (d := d) (k := k) hbound hnodup
        fun v hv e => hzero v e ((hmem v).mp hv).1 ((hmem v).mp hv).2
      have hrun : deallocuvm d oldsz newsz k = .ok (min oldsz newsz, d', k') := by
        rw [heach hlt, hfree, Nat.min_eq_right hlt.le]
        rfl
      obtain ⟨-, hclear⟩ := (deallocuvm_spec d k hold hlt).of_ok hrun
      refine ⟨d', k', hrun, fun vpn hvpn => ?_, ⟨_, hmem, hnodup, hlist⟩, fun f hf => ?_⟩
      · simp only [hclear.entry vpn hvpn, hlow]
      · exact hclear.mem f fun vpn e hge => hf vpn e ((hlow vpn).mp hge)
    · refine ⟨d, k, ?_, fun vpn _ => (if_neg (by omega)).symm, ⟨[], fun v => ?_, .nil, rfl⟩, fun _ _ => rfl⟩
      · rw [deallocuvm, if_pos (by omega), Nat.min_eq_left (by omega)]
      · simp only [List.not_mem_nil, false_iff]
        omega

theorem uvm_refines_map_process : ∃ d k, Sound d k ∧ (∃ r d' k', allocuvm d 5000 9000 k = .ok (r, d', k') ∧
      ((r = 9000 ∧ Extended 5000 9000 d k d' k') ∨ (r = 0 ∧ ∀ vpn < npages, d'.entry vpn = d.entry vpn)) ∧
      ∀ f, f ∉ k.freelist → k'.mem f = k.mem f ∧ f ∉ k'.freelist) ∧
    ∃ d' k', deallocuvm d 5000 100 k = .ok (100, d', k') ∧ Shortened 100 5000 d k d' k' := by
  obtain ⟨d, k, hpages, hsound⟩ := exists_process
  refine ⟨d, k, hsound, ?_, ?_⟩
  · exact uvm_refines_map.1 d k 5000 9000 hsound fun vpn hvpn =>
      (hpages vpn hvpn).trans (lt_pages (by decide))
  · refine (uvm_refines_map.2 d k 5000 100 (by decide)).2 fun vpn e _ hlt he hzero => ?_
    have huser := lt_userPages (by decide) hlt
    have huses := Holds.uses_ne_zero (.inr (.inr ⟨vpn, huser, e, he, rfl⟩) : d.Holds e.frame)
    have hnone := hsound.zero
    rw [hzero] at huses
    omega

end Xv6.Vm
