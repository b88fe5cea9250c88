import Xv6.Vm.Frames

/-!
# Isolation of address spaces

A user program reads and writes through the entries with `PTE_U` of its directory. The directory that
`copyuvm` makes shows the same bytes as the parent's, at pages that were free, so what is written
through one of the two cannot be seen through the other.
-/

namespace Xv6.Vm

namespace Pgdir

variable {d d' : Pgdir} {f : Frame} {k : Kmem} {va : Nat}

/-! ### User accesses -/

/-- The entry that a user access goes through. The kernel's entries have no `PTE_U`. -/
def userPte (d : Pgdir) (va : Nat) : Option Pte :=
  if va < kernbase then (d.entry (va / pgsize)).filter fun e => e.perm.user else none

def load (d : Pgdir) (k : Kmem) (va : Nat) : Option UInt8 :=
  (d.userPte va).map fun e => k.mem e.frame (va % pgsize)

/-- A byte that a user program writes at an address. A write that faults has no effect. -/
def store (d : Pgdir) (k : Kmem) (w : Nat × UInt8) : Kmem :=
  match d.userPte w.1 with
  | none => k
  | some e =>
    if e.perm.writable then
      { k with
        mem := Function.update k.mem e.frame (Function.update (k.mem e.frame) (w.1 % pgsize) w.2) }
    else
      k

theorem holds_of_userPte {e : Pte} (he : d.userPte va = some e) : d.Holds e.frame := by
  unfold userPte at he
  split_ifs at he with hva
  obtain ⟨hentry, -⟩ := Option.filter_eq_some_iff.mp he
  refine .inr (.inr ⟨va / pgsize, ?_, e, hentry, rfl⟩)
  simp only [userPages, kernbase, pgsize] at hva ⊢
  omega

theorem mem_store_of_not_holds (w : Nat × UInt8) (hf : ¬ d.Holds f) : (d.store k w).mem f = k.mem f := by
  unfold store
  cases he : d.userPte w.1 with
  | none => rfl
  | some e =>
    dsimp only
    split
    · exact Function.update_of_ne (fun h : f = e.frame => hf (h ▸ holds_of_userPte he)) ..
    · rfl

theorem mem_stores_of_not_holds (ws : List (Nat × UInt8)) (hf : ¬ d.Holds f) :
    (ws.foldl d.store k).mem f = k.mem f := by
  induction ws generalizing k with
  | nil => rfl
  | cons w ws ih => exact ih.trans (mem_store_of_not_holds w hf)

/-- Writes through one directory leave what is read through another that shares no page with it. -/
theorem load_stores (ws : List (Nat × UInt8)) (hdisjoint : ∀ f, d'.Holds f → ¬ d.Holds f)
    (va : Nat) : d'.load (ws.foldl d.store k) va = d'.load k va := by
  unfold load
  cases he : d'.userPte va with
  | none => rfl
  | some e =>
    have hmem := mem_stores_of_not_holds (k := k) ws (hdisjoint _ (holds_of_userPte he))
    exact congrArg some (congrFun hmem _)

/-! ### The pages of a directory are counted -/

theorem Holds.uses_ne_zero (hf : d.Holds f) : d.uses f ≠ 0 := by
  have hle : ∀ i < npdentries, tableUses f i (d.pde i) ≤ d.uses f := fun i hi =>
    Nat.le_trans (Finset.single_le_sum (f := fun i => tableUses f i (d.pde i))
      (fun _ _ => Nat.zero_le _) (Finset.mem_range.mpr hi)) (Nat.le_add_left ..)
  obtain rfl | ⟨i, hi, t, ht, rfl⟩ | ⟨vpn, hvpn, e, he, rfl⟩ := hf
  · rw [uses, one_self]
    omega
  · have htable := hle i hi
    rw [ht, tableUses, one_self] at htable
    omega
  · have hwalk := walk_of_entry he
    rw [walk_eq (lt_npages hvpn)] at hwalk
    obtain ⟨t, ht, hpte⟩ := Option.map_eq_some_iff.mp hwalk
    simp only [userPages, kernbase, pgsize] at hvpn
    have huser : vpn / 1024 < userTables := by
      simp only [userTables, kernbase]
      omega
    have htable := hle (vpn / 1024) (by simp only [npdentries]; omega)
    have hentry : pteUses e.frame (t.pte (vpn % 1024)) ≤
        ∑ j ∈ Finset.range 1024, pteUses e.frame (t.pte j) :=
      Finset.single_le_sum (f := fun j => pteUses e.frame (t.pte j)) (fun _ _ => Nat.zero_le _)
        (Finset.mem_range.mpr (Nat.mod_lt vpn (by decide)))
    rw [hpte, pteUses, one_self] at hentry
    rw [ht, tableUses, if_pos huser] at htable
    omega

theorem holds_iff : d.Holds f ↔ d.uses f ≠ 0 := by
  refine ⟨Holds.uses_ne_zero, fun huses => ?_⟩
  by_cases hframe : f = d.frame
  · exact .inl hframe
  rw [uses, one_of_ne (Ne.symm hframe), Nat.zero_add] at huses
  obtain ⟨i, hi, htable⟩ := Finset.exists_ne_zero_of_sum_ne_zero huses
  rw [Finset.mem_range] at hi
  cases ht : d.pde i with
  | none =>
    rw [ht] at htable
    exact absurd rfl htable
  | some t =>
    by_cases htf : f = t.frame
    · exact .inr (.inl ⟨i, hi, t, ht, htf⟩)
    rw [ht, tableUses, one_of_ne (Ne.symm htf), Nat.zero_add] at htable
    split_ifs at htable with huser
    · obtain ⟨j, hj, hpte⟩ := Finset.exists_ne_zero_of_sum_ne_zero htable
      rw [Finset.mem_range] at hj
      cases he : t.pte j with
      | none =>
        rw [he] at hpte
        exact absurd rfl hpte
      | some e =>
        rw [he] at hpte
        have hv : 1024 * i + j < userPages := by
          simp only [userTables, kernbase] at huser
          simp only [userPages, kernbase, pgsize]
          omega
        refine .inr (.inr ⟨1024 * i + j, hv, e, ?_, one_ne_zero.mp hpte⟩)
        have hdiv : (1024 * i + j) / 1024 = i := by omega
        have hmod : (1024 * i + j) % 1024 = j := by omega
        rw [entry, walk_eq (lt_npages hv), hdiv, hmod, ht, Option.map_some, he]
        rfl
    · exact absurd rfl htable

end Pgdir

open Pgdir

/-! ### The copy -/

structure CopyOf (src : Pgdir) (n : Nat) (k : Kmem) (d : Pgdir) (k' : Kmem) : Prop where
  present : ∀ vpn < userPages, d.Present vpn ↔ src.Present vpn ∧ vpn < n
  same : ∀ vpn < n, ∀ e, src.entry vpn = some e →
    ∃ g, d.entry vpn = some ⟨g, e.perm⟩ ∧ k'.mem g = k.mem e.frame
  /-- Its pages were free, and each is used once. -/
  fresh : ∀ f, d.Holds f → f ∈ k.freelist ∧ f ∉ k'.freelist ∧ d.uses f = 1
  /-- Pages in use are as they were. -/
  kept : ∀ f, f ∉ k.freelist → k'.mem f = k.mem f ∧ f ∉ k'.freelist

theorem copyuvm_copyOf (kmap : Kmap) {src d : Pgdir} {sz : Nat} {k k' : Kmem} (hsz : sz < kernbase)
    (hsrc : ∀ vpn < pages sz, src.Present vpn) (hnodup : k.freelist.Nodup)
    (hheld : ∀ f, src.Holds f → f ∉ k.freelist) (hcopy : copyuvm kmap src sz k = .ok (some d, k')) :
    CopyOf src (pages sz) k d k' := by
  have hle := pages_le_userPages hsz.le
  have hends := copyuvm_spec kmap k hsz fun vpn hvpn => present_iff.mp (hsrc vpn hvpn)
  rw [hcopy] at hends
  obtain ⟨d₀, k₀, hsetup, hempty, hcopied⟩ := hends d rfl
  have hframe : ∀ vpn < pages sz, ∀ e, src.entry vpn = some e → e.frame ∉ k.freelist :=
    fun vpn hvpn e he => hheld _ (.inr (.inr ⟨vpn, hvpn.trans_le hle, e, he, rfl⟩))
  have hfair : Fair src (pages sz) k₀ :=
    ⟨hsetup.nodup hnodup, fun vpn hvpn e he => hsetup.free _ (hframe vpn hvpn e he)⟩
  constructor
  · intro vpn hvpn
    by_cases hlt : vpn < pages sz
    · obtain ⟨g, hg, -⟩ := hcopied.new vpn (Nat.zero_le _) hlt
      exact ⟨fun _ => ⟨hsrc vpn hlt, hlt⟩, fun _ => present_iff.mpr (hg ▸ nofun)⟩
    · rw [present_iff, hcopied.old vpn (lt_npages hvpn) fun h => hlt h.2, hempty vpn hvpn]
      exact ⟨fun h => absurd rfl h, fun h => absurd h.2 hlt⟩
  · intro vpn hvpn e he
    obtain ⟨g, hg, -, hbytes⟩ := hcopied.new vpn (Nat.zero_le _) hvpn
    refine ⟨g, ?_, ?_⟩
    · rw [hg, Pgdir.perm, he]
      rfl
    · rw [(hbytes hfair).1, Pgdir.bytes, he]
      exact hsetup.mem _ (hframe vpn hvpn e he)
  · intro f hf
    have hcount := ((copyuvm_keeps kmap src k hsz.le).1 _ hcopy d rfl).count f
    have honce : k.free f ≤ 1 := List.nodup_iff_count_le_one.mp hnodup f
    have huses := hf.uses_ne_zero
    rw [Pi.zero_apply, Nat.zero_add] at hcount
    change d.uses f + k'.free f = k.free f at hcount
    exact ⟨k.free_ne_zero.mp (by omega), k'.free_eq_zero.mp (by omega), by omega⟩
  · intro f hf
    have hspares := hsetup.trans hcopied.spares
    exact ⟨hspares.mem f hf, hspares.free f hf⟩

/-- **Fork isolates.** The child's directory is a copy of the parent's in pages of its own, and no
writes of the one are seen by the other. -/
theorem copyuvm_isolates (kmap : Kmap) {src d : Pgdir} {sz : Nat} {k k' : Kmem} (hsz : sz < kernbase)
    (hsrc : ∀ vpn < pages sz, src.Present vpn) (hnodup : k.freelist.Nodup)
    (hheld : ∀ f, src.Holds f → f ∉ k.freelist) (hcopy : copyuvm kmap src sz k = .ok (some d, k')) :
    CopyOf src (pages sz) k d k' ∧ ∀ ws : List (Nat × UInt8),
        (∀ f, d.Holds f → (ws.foldl src.store k').mem f = k'.mem f) ∧
        (∀ va, d.load (ws.foldl src.store k') va = d.load k' va) ∧
        (∀ f, src.Holds f → (ws.foldl d.store k').mem f = k'.mem f) ∧
        ∀ va, src.load (ws.foldl d.store k') va = src.load k' va := by
  have hcopyOf := copyuvm_copyOf kmap hsz hsrc hnodup hheld hcopy
  have hchild : ∀ f, d.Holds f → ¬ src.Holds f := fun f hf hf' =>
    hheld f hf' (hcopyOf.fresh f hf).1
  have hparent : ∀ f, src.Holds f → ¬ d.Holds f := fun f hf hf' => hchild f hf' hf
  exact ⟨hcopyOf, fun ws => ⟨fun f hf => mem_stores_of_not_holds ws (hchild f hf),
    load_stores ws hchild, fun f hf => mem_stores_of_not_holds ws (hparent f hf), load_stores ws hparent⟩⟩

def twoPages : Pgdir where
  frame := 10
  pde i := if i = 0 then some { frame := 11, pte := twoEntries } else none
where
  twoEntries : Nat → Option Pte
    | 0 => some ⟨12, userPerm⟩
    | 1 => some ⟨13, { userPerm with user := false }⟩
    | _ => none

theorem entry_twoPages {vpn : Nat} (hvpn : vpn < npages) : twoPages.entry vpn =
      if vpn / 1024 = 0 then twoPages.twoEntries (vpn % 1024) else none := by
  rw [entry, walk_eq hvpn, twoPages]
  dsimp only
  split_ifs <;> rfl

theorem holds_twoPages {f : Frame} (hf : twoPages.Holds f) : 10 ≤ f := by
  obtain rfl | ⟨i, -, t, ht, rfl⟩ | ⟨vpn, hvpn, e, he, rfl⟩ := hf
  · decide
  · rw [twoPages] at ht
    dsimp only at ht
    split_ifs at ht
    cases ht
    decide
  · rw [entry_twoPages (lt_npages hvpn)] at he
    split_ifs at he
    unfold twoPages.twoEntries at he
    split at he <;> cases he <;> decide

def eightFree : Kmem where
  freelist := [1, 2, 3, 4, 5, 6, 7, 8]
  mem f _ := f.toUInt8
  fails := []
  calls := []

theorem copyuvm_isolates_twoPages : ∃ d k',
    copyuvm Kmap.onePage twoPages (2 * pgsize) eightFree = .ok (some d, k') ∧
      CopyOf twoPages (pages (2 * pgsize)) eightFree d k' := by
  have hcopied : (copyuvm Kmap.onePage twoPages (2 * pgsize) eightFree).toOption.any (·.1.isSome) = true := by
    decide +kernel
  obtain ⟨⟨_ | d, k'⟩, hcopy, hsome⟩ := exists_ok hcopied
  · cases hsome
  · refine ⟨d, k', hcopy, (copyuvm_isolates Kmap.onePage (by decide) ?_ (by decide) ?_ hcopy).1⟩
    · intro vpn hvpn
      have htwo : vpn = 0 ∨ vpn = 1 := by
        rw [pages_eq (by decide)] at hvpn
        simp only [pgsize] at hvpn
        omega
      rw [present_iff]
      obtain rfl | rfl := htwo <;> rintro ⟨⟩
    · intro f hf hfree
      have hlow : ∀ g ∈ eightFree.freelist, g < 10 := by decide
      exact not_le.mpr (hlow f hfree) (holds_twoPages hf)

end Xv6.Vm
