import Xv6.Vm.Spec
import Xv6.Lib.Count
import Mathlib.Algebra.BigOperators.Pi

/-!
# Which physical pages a directory holds

A page directory holds its own page, those of its page tables, and the pages mapped at user addresses;
the kernel's mappings hold none. The functions of `vm.c` move pages between the free list and the
directory they work on.
-/

namespace Xv6.Vm

def userTables : Nat := kernbase / 2 ^ 22

def pteUses (f : Frame) : Option Pte → Nat
  | none => 0
  | some e => one e.frame f

def tableUses (f : Frame) (i : Nat) : Option PageTable → Nat
  | none => 0
  | some t =>
    one t.frame f + if i < userTables then ∑ j ∈ Finset.range 1024, pteUses f (t.pte j) else 0

namespace Pgdir

def uses (d : Pgdir) (f : Frame) : Nat :=
  one d.frame f + ∑ i ∈ Finset.range npdentries, tableUses f i (d.pde i)

def Holds (d : Pgdir) (f : Frame) : Prop :=
  f = d.frame ∨ (∃ i < npdentries, ∃ t, d.pde i = some t ∧ f = t.frame) ∨
    ∃ vpn < userPages, ∃ e, d.entry vpn = some e ∧ f = e.frame

variable {d d' : Pgdir} {v : Nat} {k k' : Kmem}

/-! ### Changing one entry -/

theorem uses_setPde (d : Pgdir) {i : Nat} (hi : i < npdentries) (t : PageTable) (f : Frame) :
    (d.setPde i t).uses f + tableUses f i (d.pde i) = d.uses f + tableUses f i (some t) := by
  have hsum := sum_update_add_of_mem (Finset.mem_range.mpr hi) (tableUses f) d.pde (some t)
  simp only [uses, setPde]
  omega

theorem tableUses_update (t : PageTable) (i : Nat) {j : Nat} (hj : j < 1024) (e : Option Pte) (f : Frame) :
    tableUses f i (some { t with pte := Function.update t.pte j e }) +
        (if i < userTables then pteUses f (t.pte j) else 0) =
      tableUses f i (some t) + if i < userTables then pteUses f e else 0 := by
  have hsum := sum_update_add_of_mem (Finset.mem_range.mpr hj) (fun _ => pteUses f) t.pte e
  simp only [tableUses]
  split_ifs <;> omega

/-- The entry of a user address counts, that of a kernel address does not. -/
def mine (va : Nat) (f : Frame) (e : Option Pte) : Nat :=
  if pdx va < userTables then pteUses f e else 0

theorem mine_none (va : Nat) (f : Frame) : mine va f none = 0 := ite_self 0

theorem mine_user (hv : v < userPages) (f : Frame) (e : Option Pte) :
    mine (pgsize * v) f e = pteUses f e := by
  refine if_pos ?_
  simp only [userPages, kernbase, pgsize] at hv
  rw [pdx_page (by simp only [npages]; omega)]
  simp only [userTables, kernbase]
  omega

theorem mine_kernel (hkernel : userPages ≤ v) (hv : v < npages) (f : Frame) (e : Option Pte) :
    mine (pgsize * v) f e = 0 := by
  refine if_neg ?_
  simp only [userPages, kernbase, pgsize] at hkernel
  rw [pdx_page hv]
  simp only [userTables, kernbase]
  omega

theorem uses_setPte {va : Nat} {x : Option Pte} (hwalk : d.walk va = some x) (e : Option Pte)
    (f : Frame) : (d.setPte va e).uses f + mine va f x = d.uses f + mine va f e := by
  unfold walk at hwalk
  obtain ⟨t, ht, rfl⟩ := Option.map_eq_some_iff.mp hwalk
  have hi : pdx va < npdentries := Nat.mod_lt _ (by decide)
  have hset := uses_setPde d hi { t with pte := Function.update t.pte (ptx va) e } f
  have htable := tableUses_update t (pdx va) (Nat.mod_lt (va / 2 ^ 12) (by decide)) e f
  simp only [setPte, ht, mine]
  rw [ht] at hset
  simp only [ptx] at hset ⊢
  omega

theorem uses_setPte_some {va : Nat} (hwalk : d.walk va = some none) (e : Pte) :
    (d.setPte va (some e)).uses = (fun f => mine va f (some e)) + d.uses := by
  funext f
  have hset := uses_setPte hwalk (some e) f
  rw [mine_none] at hset
  rw [Pi.add_apply]
  omega

theorem uses_setPte_none {va : Nat} {e : Pte} (hwalk : d.walk va = some (some e)) :
    d.uses = (fun f => mine va f (some e)) + (d.setPte va none).uses := by
  funext f
  have hset := uses_setPte hwalk none f
  rw [mine_none] at hset
  rw [Pi.add_apply]
  omega

theorem walkAlloc_keeps (hv : v < npages) (halloc : d.walkAlloc (pgsize * v) k = some (d', k')) :
    Keeps d.uses k d'.uses k' := by
  cases WalkAlloc.of_eq hv halloc with
  | found ht => exact .refl _ _
  | @made g k₁ ht hkalloc =>
    have hi : v / 1024 < npdentries := by
      simp only [npages] at hv
      simp only [npdentries]
      omega
    have huses : (d.setPde (v / 1024) { frame := g, pte := fun _ => none }).uses = one g + d.uses := by
      funext f
      have hset := uses_setPde d hi { frame := g, pte := fun _ => none } f
      simp only [ht, tableUses, pteUses, Finset.sum_const_zero, ite_self, Nat.add_zero] at hset
      rw [Pi.add_apply]
      omega
    rw [huses]
    exact (Keeps.kalloc hkalloc).trans (Keeps.memset (one_add_ne_zero g _) k₁ 0)

end Pgdir

open Pgdir

/-- If the computation returns, it does so in `Q`. If page 0 is neither held nor free, it does not panic
in `kfree`. -/
def Yields {α : Type} (held : Frame → Nat) (k : Kmem) (r : Except Panic α) (Q : α → Prop) : Prop :=
  (∀ x, r = .ok x → Q x) ∧ (held 0 + k.free 0 = 0 → r ≠ .error .kfree)

namespace Yields

variable {α β : Type} {held held' : Frame → Nat} {k k' : Kmem} {r : Except Panic α} {Q R : α → Prop}

theorem ok {x : α} (hx : Q x) : Yields held k (.ok x) Q := by
  refine ⟨?_, fun _ => nofun⟩
  rintro _ ⟨⟩
  exact hx

theorem error {e : Panic} (hne : e ≠ .kfree) : Yields held k (.error e) Q :=
  ⟨nofun, fun _ h => hne (Except.error.inj h)⟩

theorem bind {g : α → Except Panic β} {S : β → Prop} (hr : Yields held k r Q)
    (hg : ∀ x, Q x → Yields held k (g x) S) : Yields held k (r >>= g) S := by
  cases r with
  | ok x => exact hg x (hr.1 x rfl)
  | error e => exact ⟨nofun, fun hzero h => hr.2 hzero (congrArg _ (Except.error.inj h))⟩

theorem mono (hr : Yields held k r Q) (hQ : ∀ x, Q x → R x) : Yields held k r R :=
  ⟨fun x hx => hQ x (hr.1 x hx), hr.2⟩

theorem after (hr : Yields held' k' r Q) (hkeep : Keeps held k held' k') : Yields held k r Q :=
  ⟨hr.1, fun hzero => hr.2 ((hkeep.count 0).trans hzero)⟩

theorem frame (hr : Yields held k r Q) (more : Frame → Nat) : Yields (more + held) k r Q := by
  refine ⟨hr.1, fun hzero => hr.2 ?_⟩
  rw [Pi.add_apply] at hzero
  omega

theorem and_ends (hr : Yields held k r Q) (hends : Ends r R) : Yields held k r fun x => R x ∧ Q x := by
  refine ⟨?_, hr.2⟩
  rintro x rfl
  exact ⟨hends, hr.1 x rfl⟩

theorem and_eq (hr : Yields held k r Q) : Yields held k r fun x => r = .ok x ∧ Q x :=
  ⟨fun x hx => ⟨hx, hr.1 x hx⟩, hr.2⟩

theorem returns (hr : Yields held k r Q) (hends : Ends r R) (hzero : held 0 + k.free 0 = 0) :
    ∃ x, r = .ok x ∧ R x ∧ Q x := by
  cases r with
  | ok x => exact ⟨x, rfl, hends, hr.1 x rfl⟩
  | error e => exact absurd (congrArg _ hends) (hr.2 hzero)

end Yields

theorem mapPages_keeps (perm : Perm) (m v : Nat) (pa : Frame) (d : Pgdir) (k : Kmem)
    (hlast : v + m ≤ npages) (hkernel : userPages ≤ v) :
    Yields d.uses k (mapPages perm m v pa d k) fun r => Keeps d.uses k r.2.1.uses r.2.2 := by
  induction m generalizing v pa d k with
  | zero => exact .ok (.refl _ _)
  | succ m ih =>
    have hv : v < npages := by omega
    unfold mapPages
    cases halloc : d.walkAlloc (pgsize * v) k with
    | none => exact .ok (.refused _ k)
    | some dk =>
      obtain ⟨d₁, k₁⟩ := dk
      obtain ⟨hx, -, -⟩ := walkAlloc_spec hv halloc
      dsimp only
      rw [hx]
      cases hentry : d.entry v with
      | some y => exact .error (by decide)
      | none =>
        rw [hentry] at hx
        have huses : (d₁.setPte (pgsize * v) (some ⟨pa, perm⟩)).uses = d₁.uses := by
          rw [uses_setPte_some hx]
          funext f
          rw [Pi.add_apply, mine_kernel hkernel hv, Nat.zero_add]
        have hkeep : Keeps d.uses k (d₁.setPte (pgsize * v) (some ⟨pa, perm⟩)).uses k₁ :=
          (walkAlloc_keeps hv halloc).trans (.of_eq huses)
        exact ((ih (v + 1) (pa + 1) _ k₁ (by omega) (by omega)).mono fun r hr => hkeep.trans hr).after hkeep

theorem mappages_page_keeps {v : Nat} (d : Pgdir) (perm : Perm) (pa : Frame) (k : Kmem)
    (hv : v < userPages) : Yields (one pa + d.uses) k (mappages d (pgsize * v) pgsize pa perm k) fun r =>
      Keeps (one pa + d.uses) k (if r.1 then r.2.1.uses else one pa + r.2.1.uses) r.2.2 := by
  have hv' := lt_npages hv
  simp only [mappages_page_eq d pa perm k hv', mapPages]
  cases halloc : d.walkAlloc (pgsize * v) k with
  | none =>
    refine .ok ?_
    rw [if_neg Bool.false_ne_true]
    exact .refused _ k
  | some dk =>
    obtain ⟨d₁, k₁⟩ := dk
    obtain ⟨hx, -, -⟩ := walkAlloc_spec hv' halloc
    dsimp only
    rw [hx]
    cases hentry : d.entry v with
    | some y => exact .error (by decide)
    | none =>
      rw [hentry] at hx
      refine .ok ?_
      rw [if_pos rfl]
      refine ((walkAlloc_keeps hv' halloc).frame (one pa)).trans (.of_eq ?_)
      rw [uses_setPte_some hx]
      funext f
      rw [Pi.add_apply, Pi.add_apply, mine_user hv]
      rfl

/-! ### Shrinking and growing -/

variable {oldsz newsz : Nat}

theorem freePages_keeps {vs : List Nat} (hvs : ∀ v ∈ vs, v < userPages) (d : Pgdir) (k : Kmem) :
    Yields d.uses k (freePages vs d k) fun r => Keeps d.uses k r.1.uses r.2 := by
  induction vs generalizing d k with
  | nil => exact .ok (.refl _ _)
  | cons v vs ih =>
    have hvs' : ∀ w ∈ vs, w < userPages := fun w hw => hvs w (List.mem_cons_of_mem v hw)
    rw [freePages]
    cases he : d.entry v with
    | none => exact ih hvs' d k
    | some e =>
      have huses : d.uses = one e.frame + (d.setPte (pgsize * v) none).uses := by
        refine (uses_setPte_none (walk_of_entry he)).trans (congrArg (· + _) (funext fun f => ?_))
        rw [mine_user (hvs v List.mem_cons_self)]
        rfl
      dsimp only
      split_ifs with hzero
      · refine ⟨by rintro _ ⟨⟩, fun hnone => ?_⟩
        rw [huses, hzero, Pi.add_apply, one_self] at hnone
        omega
      have hfree : Keeps d.uses k (d.setPte (pgsize * v) none).uses (k.kfree e.frame) := by
        rw [huses]
        exact .kfree _ k e.frame
      exact ((ih hvs' _ _).mono fun r hr => hfree.trans hr).after hfree

theorem deallocuvm_keeps (d : Pgdir) (k : Kmem) (holdsz : oldsz ≤ kernbase) :
    Yields d.uses k (deallocuvm d oldsz newsz k) fun r => Keeps d.uses k r.2.1.uses r.2.2 := by
  by_cases hlt : newsz < oldsz
  · rw [deallocuvm_eq d k holdsz hlt]
    refine .bind (freePages_keeps (fun v hv => ?_) d k) fun r hr => .ok hr
    exact lt_userPages holdsz ((mem_pagesFrom _ v holdsz).mp hv).2
  · rw [deallocuvm, if_pos (not_lt.mp hlt)]
    exact .ok (.refl _ _)

theorem allocLoop_keeps (hnewsz : newsz < kernbase) (fuel v : Nat) (d : Pgdir) (k : Kmem) :
    Yields d.uses k (allocLoop oldsz newsz fuel (pgsize * v) d k) fun r => Keeps d.uses k r.2.1.uses r.2.2 := by
  have hundo : ∀ (d : Pgdir) (k : Kmem), Yields d.uses k (deallocuvm d newsz oldsz k) fun r =>
      Keeps d.uses k r.2.1.uses r.2.2 :=
    fun d k => deallocuvm_keeps d k hnewsz.le
  induction fuel generalizing v d k with
  | zero => exact .ok (.refl _ _)
  | succ fuel ih =>
    unfold allocLoop
    by_cases hlt : pgsize * v < newsz
    · rw [if_pos hlt]
      have hv := lt_userPages hnewsz.le hlt
      cases hk : k.kalloc with
      | none =>
        exact .bind ((hundo d k.refused).after (.refused _ k)) fun r hr =>
          Yields.ok ((Keeps.refused _ k).trans hr)
      | some gk =>
        obtain ⟨g, k₁⟩ := gk
        have htake : Keeps d.uses k (one g + d.uses) (k₁.memset g 0) :=
          (Keeps.kalloc hk).trans (Keeps.memset (one_add_ne_zero g _) k₁ 0)
        refine .bind ((mappages_page_keeps d userPerm g (k₁.memset g 0) hv).after htake) ?_
        rintro ⟨mapped, d₂, k₂⟩ hmap
        dsimp only at hmap ⊢
        cases mapped with
        | true =>
          rw [if_pos rfl] at hmap
          rw [if_pos rfl, u32_page_succ hv]
          exact ((ih (v + 1) d₂ k₂).mono fun r hr => (htake.trans hmap).trans hr).after (htake.trans hmap)
        | false =>
          rw [if_neg Bool.false_ne_true] at hmap
          rw [if_neg Bool.false_ne_true]
          refine .bind (((hundo d₂ k₂).frame (one g)).after (htake.trans hmap)) fun r hr => .ok ?_
          exact ((htake.trans hmap).trans (hr.frame (one g))).trans (.kfree _ _ g)
    · rw [if_neg hlt]
      exact .ok (.refl _ _)

theorem allocuvm_keeps (d : Pgdir) (k : Kmem) (holdsz : oldsz ≤ kernbase) :
    Yields d.uses k (allocuvm d oldsz newsz k) fun r => Keeps d.uses k r.2.1.uses r.2.2 := by
  unfold allocuvm
  split_ifs with hbig hlt
  · exact .ok (.refl _ _)
  · exact .ok (.refl _ _)
  · rw [pgroundup_eq holdsz]
    exact allocLoop_keeps (by omega) _ _ d k

/-! ### Making and freeing a directory -/

def tablePage (t : Option PageTable) : Frame → Nat := t.elim 0 fun t => one t.frame

theorem uses_of_empty {d : Pgdir} (hentry : ∀ vpn < userPages, d.entry vpn = none) :
    d.uses = ∑ i ∈ Finset.range npdentries, tablePage (d.pde i) + one d.frame := by
  funext f
  rw [Pi.add_apply, Finset.sum_apply, Nat.add_comm]
  refine congrArg (one d.frame f + ·) (Finset.sum_congr rfl fun i hi => ?_)
  cases ht : d.pde i with
  | none => rfl
  | some t =>
    simp only [tableUses, tablePage, Option.elim]
    split_ifs with huser
    · have hzero : ∀ j ∈ Finset.range 1024, pteUses f (t.pte j) = 0 := by
        intro j hj
        rw [Finset.mem_range] at hj
        simp only [userTables, kernbase] at huser
        have hv : i * 1024 + j < userPages := by
          simp only [userPages, kernbase, pgsize]
          omega
        have hwalk : d.walk (pgsize * (i * 1024 + j)) = some (t.pte j) := by
          rw [walk_eq (lt_npages hv), show (i * 1024 + j) / 1024 = i by omega,
            show (i * 1024 + j) % 1024 = j by omega, ht]
          rfl
        have habsent := hentry _ hv
        rw [entry, hwalk] at habsent
        change t.pte j = none at habsent
        rw [habsent]
        rfl
      rw [Finset.sum_eq_zero hzero, Nat.add_zero]
    · rw [Nat.add_zero]

theorem foldl_keeps {step : Kmem → Nat → Kmem} {g : Nat → Frame → Nat}
    (hstep : ∀ i held k, Keeps (g i + held) k held (step k i)) (n : Nat) (held : Frame → Nat) (k : Kmem) :
    Keeps (∑ i ∈ Finset.range n, g i + held) k held ((List.range n).foldl step k) := by
  induction n generalizing held with
  | zero =>
    refine .of_eq ?_
    rw [Finset.sum_range_zero, zero_add]
  | succ n ih =>
    rw [List.range_succ, List.foldl_append, Finset.sum_range_succ, add_assoc]
    exact (ih (g n + held)).trans (hstep n held _)

theorem freevm_keeps (d : Pgdir) (k : Kmem) :
    Yields d.uses k (freevm d k) fun k' => Keeps d.uses k 0 k' := by
  have hempty := deallocuvm_spec d k le_rfl (by decide : 0 < kernbase)
  refine .bind ((deallocuvm_keeps d k le_rfl).and_ends hempty) ?_
  rintro ⟨sz, d₁, k₁⟩ ⟨⟨-, hclear⟩, hkeep⟩
  refine .ok (hkeep.trans ?_)
  have hentry : ∀ vpn < userPages, d₁.entry vpn = none := by
    intro vpn hvpn
    rw [hclear.entry vpn (lt_npages hvpn), if_pos]
    refine ⟨?_, ?_⟩
    · rw [pages_eq (Nat.zero_le _)]
      omega
    · simp only [userPages, kernbase, pgsize] at hvpn
      simp only [kernbase, pgsize]
      omega
  dsimp only
  rw [uses_of_empty hentry]
  have hlast : ∀ k₂ : Kmem, Keeps (one d₁.frame) k₂ 0 (k₂.kfree d₁.frame) := fun k₂ =>
    add_zero (one d₁.frame) ▸ .kfree 0 k₂ d₁.frame
  refine .trans ?_ (hlast _)
  refine foldl_keeps (fun i held k => ?_) npdentries (one d₁.frame) k₁
  unfold tablePage
  cases d₁.pde i with
  | none => exact .of_eq (zero_add held).symm
  | some t => exact .kfree held k t.frame

def usesOf (d : Option Pgdir) : Frame → Nat := d.elim 0 Pgdir.uses

theorem mapKmap_keeps (entries : List KmapEntry) (d : Pgdir) (k : Kmem)
    (hhigh : ∀ e ∈ entries, userPages ≤ e.first ∧ e.first ≤ e.last) :
    Yields d.uses k (mapKmap entries d k) fun r => Keeps d.uses k (usesOf r.1) r.2 := by
  induction entries generalizing d k with
  | nil => exact .ok (.refl _ _)
  | cons e rest ih =>
    obtain ⟨hfirst, hle⟩ := hhigh e List.mem_cons_self
    have hlast := e.last_lt
    have hmap : Yields d.uses k (mappages d e.virt e.size (e.physStart / pgsize)
        { writable := e.writable, user := false } k) fun r => Keeps d.uses k r.2.1.uses r.2.2 := by
      rw [mappages_kmap d _ _ k hle]
      exact mapPages_keeps _ _ e.first _ d k (by omega) hfirst
    unfold mapKmap
    refine .bind hmap ?_
    rintro ⟨mapped, d₁, k₁⟩ hkeep
    cases mapped with
    | true =>
      exact ((ih d₁ k₁ fun e' he' => hhigh e' (List.mem_cons_of_mem _ he')).mono
        fun r hr => hkeep.trans hr).after hkeep
    | false =>
      exact .bind ((freevm_keeps d₁ k₁).after hkeep) fun k₂ hk₂ =>
        .ok (hkeep.trans hk₂)

theorem setupkvm_keeps (kmap : Kmap) (k : Kmem) :
    Yields 0 k (setupkvm kmap k) fun r => Keeps 0 k (usesOf r.1) r.2 := by
  unfold setupkvm
  cases hk : k.kalloc with
  | none => exact .ok (.refused _ k)
  | some gk =>
    obtain ⟨g, k₁⟩ := gk
    have huses : ({ frame := g, pde := fun _ => none } : Pgdir).uses = one g + 0 := by
      funext f
      simp only [uses, tableUses, Finset.sum_const_zero, Nat.add_zero, Pi.add_apply, Pi.zero_apply]
    have htake : Keeps 0 k ({ frame := g, pde := fun _ => none } : Pgdir).uses (k₁.memset g 0) :=
      huses ▸ (Keeps.kalloc hk).trans (Keeps.memset (one_add_ne_zero g _) k₁ 0)
    exact ((mapKmap_keeps kmap.entries _ _ kmap.high).mono fun r hr => htake.trans hr).after htake

/-- A turn of the loop: without a page for the copy, or for its page table, the new directory is given
back, in the second case without the page. -/
theorem copyLoop_turn {src : Pgdir} {sz fuel v : Nat} {d : Pgdir} {k : Kmem} {Q : Option Pgdir × Kmem → Prop}
    (hsz : sz ≤ kernbase) (hlt : pgsize * v < sz)
    (hfull : ∀ k', k.kalloc = none → Keeps d.uses k 0 k' → Q (none, k'))
    (hlost : ∀ {g k₁ perm f d₂ k₂ k'}, k.kalloc = some (g, k₁) →
      mappages d (pgsize * v) pgsize g perm (k₁.memmove g f) = .ok (false, d₂, k₂) →
      Keeps d.uses k (one g) k' → Q (none, k'))
    (hnext : ∀ {g k₁ perm f d₂ k₂}, k.kalloc = some (g, k₁) →
      mappages d (pgsize * v) pgsize g perm (k₁.memmove g f) = .ok (true, d₂, k₂) →
      Keeps d.uses k d₂.uses k₂ → Yields d₂.uses k₂ (copyLoop src sz fuel (pgsize * (v + 1)) d₂ k₂) Q) :
    Yields d.uses k (copyLoop src sz (fuel + 1) (pgsize * v) d k) Q := by
  have hv := lt_userPages hsz hlt
  unfold copyLoop
  rw [if_pos hlt]
  cases src.walk (pgsize * v) with
  | none => exact .error (by decide)
  | some x =>
    cases x with
    | none => exact .error (by decide)
    | some e =>
      cases hk : k.kalloc with
      | none =>
        exact .bind ((freevm_keeps d k.refused).after (.refused _ k)) fun k' hfree =>
          Yields.ok (hfull k' hk ((Keeps.refused _ k).trans hfree))
      | some gk =>
        obtain ⟨g, k₁⟩ := gk
        have htake : Keeps d.uses k (one g + d.uses) (k₁.memmove g e.frame) :=
          (Keeps.kalloc hk).trans (Keeps.memmove (one_add_ne_zero g _) k₁ e.frame)
        refine .bind ((mappages_page_keeps d e.perm g (k₁.memmove g e.frame) hv).and_eq.after htake) ?_
        rintro ⟨mapped, d₂, k₂⟩ ⟨hcall, hmap⟩
        dsimp only at hmap ⊢
        cases mapped with
        | false =>
          rw [if_neg Bool.false_ne_true] at hmap
          refine .bind (((freevm_keeps d₂ k₂).frame (one g)).after (htake.trans hmap))
            fun k₃ hfree => .ok (hlost hk hcall ?_)
          exact (htake.trans hmap).trans (add_zero (one g) ▸ hfree.frame (one g))
        | true =>
          rw [if_pos rfl] at hmap
          rw [if_pos rfl, u32_page_succ hv]
          exact (hnext hk hcall (htake.trans hmap)).after (htake.trans hmap)

theorem copyLoop_keeps {src : Pgdir} {sz : Nat} (hsz : sz ≤ kernbase) (fuel v : Nat) (d : Pgdir)
    (k : Kmem) : Yields d.uses k (copyLoop src sz fuel (pgsize * v) d k) fun r => ∀ d', r.1 = some d' →
      Keeps d.uses k d'.uses r.2 := by
  induction fuel generalizing v d k with
  | zero =>
    refine .ok ?_
    rintro d' ⟨⟩
    exact .refl _ _
  | succ fuel ih =>
    by_cases hlt : pgsize * v < sz
    · exact copyLoop_turn hsz hlt (fun _ _ _ => nofun) (fun _ _ _ => nofun) fun _ _ hmap =>
        (ih (v + 1) _ _).mono fun r hr d' hd' => hmap.trans (hr d' hd')
    · rw [copyLoop, if_neg hlt]
      refine .ok ?_
      rintro d' ⟨⟩
      exact .refl _ _

theorem copyuvm_keeps (kmap : Kmap) (src : Pgdir) {sz : Nat} (k : Kmem) (hsz : sz ≤ kernbase) :
    Yields 0 k (copyuvm kmap src sz k) fun r => ∀ d, r.1 = some d → Keeps 0 k d.uses r.2 := by
  refine .bind (setupkvm_keeps kmap k) ?_
  rintro ⟨_ | d, k₁⟩ hmake
  · exact .ok nofun
  · exact ((copyLoop_keeps hsz (turns 0 sz) 0 d k₁).mono fun r hr d' hd' =>
      hmake.trans (hr d' hd')).after hmake

/-! ### `exec` -/

theorem execLoad_keeps (phdrs : List Proghdr) (sz : Nat) (d : Pgdir) (k : Kmem) (hsz : sz < kernbase)
    (hpages : Pages d (pages sz)) :
    Yields d.uses k (execLoad phdrs sz d k) fun r => Keeps d.uses k r.2.1.uses r.2.2 := by
  induction phdrs generalizing sz d k with
  | nil => exact .ok (.refl _ _)
  | cons ph rest ih =>
    cases ph with
    | short => exact .ok (.refl _ _)
    | other => exact ih sz d k hsz hpages
    | load filesz memsz vaddr loads =>
      unfold execLoad
      split
      · exact .ok (.refl _ _)
      refine .bind ((allocuvm_keeps d k hsz.le).and_ends (allocuvm_pages _ k hpages hsz.le fun _ => hsz)) ?_
      rintro ⟨sz₁, d₁, k₁⟩ ⟨hr, hkeep⟩
      dsimp only at hr hkeep ⊢
      split
      · exact .ok hkeep
      · rename_i hgood
        obtain ⟨hlt, -, hp⟩ := hr.resolve_right fun h => hgood (.inl h.1)
        exact ((ih sz₁ d₁ k₁ hlt hp).mono fun r hr => hkeep.trans hr).after hkeep

theorem clearpteu_uses (d : Pgdir) (uva : Nat) (k : Kmem) :
    Yields d.uses k (clearpteu d uva) fun d' => d'.uses = d.uses := by
  unfold clearpteu
  cases hwalk : d.walk uva with
  | none => exact .error nofun
  | some e =>
    refine .ok (funext fun f => ?_)
    have hsame : mine uva f (e.map fun e => { e with perm := { e.perm with user := false } }) =
        mine uva f e := by
      cases e <;> rfl
    have hset := uses_setPte hwalk (e.map fun e => { e with perm := { e.perm with user := false } }) f
    rw [hsame] at hset
    exact Nat.add_right_cancel hset

theorem execStack_keeps (args : Bool) {sz : Nat} (d : Pgdir) (k : Kmem) (hsz : sz < kernbase) :
    Yields d.uses k (execStack args sz d k) fun r => Keeps d.uses k r.2.1.uses r.2.2 := by
  have hround : pgroundup sz ≤ kernbase := by
    rw [pgroundup_eq hsz.le, pages_eq hsz.le]
    simp only [kernbase] at hsz
    simp only [kernbase, pgsize]
    omega
  refine .bind (allocuvm_keeps d k hround) ?_
  rintro ⟨sz₁, d₁, k₁⟩ hkeep
  dsimp only at hkeep ⊢
  split
  · exact .ok hkeep
  · refine .bind ((clearpteu_uses d₁ _ k₁).after hkeep) fun d₂ hd₂ => ?_
    have hkeep' : Keeps d.uses k d₂.uses k₁ := hkeep.trans (.of_eq hd₂)
    cases args <;> exact .ok hkeep'

/-- The image of `exec` takes its pages from the free list; a failed `exec` gives them all back. -/
theorem execImage_keeps (kmap : Kmap) (phdrs : List Proghdr) (args : Bool) (k : Kmem) :
    Yields 0 k (execImage kmap phdrs args k) fun r => Keeps 0 k (usesOf (r.1.map Prod.fst)) r.2 := by
  refine .bind ((setupkvm_keeps kmap k).and_ends (setupkvm_pages kmap k)) ?_
  rintro ⟨_ | d, k₁⟩ ⟨hd, hmake⟩
  · exact .ok hmake
  have hzero : Pages d (pages 0) := by
    rw [pages_eq (Nat.zero_le _)]
    exact hd d rfl
  have hlarge : 0 < kernbase := by decide
  refine .bind (((execLoad_keeps phdrs 0 d k₁ hlarge hzero).and_ends
    (execLoad_spec phdrs 0 d k₁ hlarge hzero)).after hmake) ?_
  rintro ⟨_ | sz, d₂, k₂⟩ ⟨hsz, hkeep⟩
  · exact .bind ((freevm_keeps d₂ k₂).after (hmake.trans hkeep)) fun k₃ hk₃ =>
      .ok ((hmake.trans hkeep).trans hk₃)
  obtain ⟨hlt, -⟩ := hsz sz rfl
  refine .bind ((execStack_keeps args d₂ k₂ hlt).after (hmake.trans hkeep)) ?_
  rintro ⟨_ | sz', d₃, k₃⟩ hkeep'
  · exact .bind ((freevm_keeps d₃ k₃).after ((hmake.trans hkeep).trans hkeep')) fun k₄ hk₄ =>
      .ok (((hmake.trans hkeep).trans hkeep').trans hk₄)
  · exact .ok ((hmake.trans hkeep).trans hkeep')

end Xv6.Vm
