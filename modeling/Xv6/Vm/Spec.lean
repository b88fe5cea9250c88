import Xv6.Vm.Kmem

/-!
# What the functions of `vm.c` map

A page directory is described by the entries of its pages, and the pages of user addresses by their
bytes. The size of a process determines which of them are present: all below `pages sz`, and no other
below `kernbase`.
-/

namespace Xv6.Vm

open Function (update update_self update_of_ne)

def pages (sz : Nat) : Nat := pgroundup sz / pgsize

variable {sz vpn oldsz newsz n : Nat} {d d' src : Pgdir} {α : Type} {r : Except Panic α} {Q : α → Prop}
  {k k' : Kmem}

theorem pages_eq (hsz : sz ≤ kernbase) : pages sz = (sz + 4095) / 4096 := by
  simp only [kernbase] at hsz
  simp only [pages, pgroundup, pgrounddown, u32, pgsize]
  omega

theorem pgroundup_eq (hsz : sz ≤ kernbase) : pgroundup sz = pgsize * pages sz := by
  rw [pages_eq hsz]
  simp only [kernbase] at hsz
  simp only [pgroundup, pgrounddown, u32, pgsize]
  omega

theorem pages_mono {sz' : Nat} (hsz : sz' ≤ kernbase) (hle : sz ≤ sz') : pages sz ≤ pages sz' := by
  rw [pages_eq hsz, pages_eq (hle.trans hsz)]
  omega

theorem lt_pages (hsz : sz ≤ kernbase) : vpn < pages sz ↔ pgsize * vpn < sz := by
  rw [pages_eq hsz]
  simp only [pgsize]
  omega

theorem lt_npages (hvpn : vpn < userPages) : vpn < npages := by
  simp only [userPages, kernbase, pgsize] at hvpn
  simp only [npages]
  omega

theorem lt_userPages (hsz : sz ≤ kernbase) (hlt : pgsize * vpn < sz) : vpn < userPages := by
  simp only [kernbase, pgsize] at hsz hlt
  simp only [userPages, kernbase, pgsize]
  omega

theorem pages_le_userPages (hsz : sz ≤ kernbase) : pages sz ≤ userPages := by
  rw [pages_eq hsz]
  simp only [kernbase] at hsz
  simp only [userPages, kernbase, pgsize]
  omega

theorem u32_page_succ (hvpn : vpn < userPages) : u32 (pgsize * vpn + pgsize) = pgsize * (vpn + 1) := by
  simp only [userPages, kernbase, pgsize] at hvpn
  simp only [u32, pgsize]
  omega

theorem pdx_page (hvpn : vpn < npages) : pdx (pgsize * vpn) = vpn / 1024 := by
  simp only [npages] at hvpn
  simp only [pdx, pgsize, npdentries]
  omega

theorem ptx_page (vpn : Nat) : ptx (pgsize * vpn) = vpn % 1024 := by
  simp only [ptx, pgsize]
  omega

namespace Pgdir

variable {d d' : Pgdir} {vpn v : Nat} {va : Nat} {e : Option Pte} {k k' : Kmem}

def entry (d : Pgdir) (vpn : Nat) : Option Pte := (d.walk (pgsize * vpn)).join

theorem present_iff : d.Present vpn ↔ d.entry vpn ≠ none := by
  unfold Present entry
  cases d.walk (pgsize * vpn) with
  | none => simp
  | some e => cases e <;> simp

theorem walk_eq (hvpn : vpn < npages) :
    d.walk (pgsize * vpn) = (d.pde (vpn / 1024)).map fun t => t.pte (vpn % 1024) := by
  unfold walk
  rw [pdx_page hvpn, ptx_page]

theorem pdx_eq (va : Nat) : pdx va = pdx (pgsize * (va / pgsize % npages)) := by
  simp only [pdx, pgsize, npages, npdentries]
  omega

theorem ptx_eq (va : Nat) : ptx va = ptx (pgsize * (va / pgsize % npages)) := by
  simp only [ptx, pgsize, npages]
  omega

theorem walk_page (d : Pgdir) (va : Nat) : d.walk va = d.walk (pgsize * (va / pgsize % npages)) := by
  rw [walk, walk, pdx_eq, ptx_eq]

theorem setPte_page (d : Pgdir) (va : Nat) (e : Option Pte) :
    d.setPte va e = d.setPte (pgsize * (va / pgsize % npages)) e := by
  rw [setPte, setPte, pdx_eq, ptx_eq]

theorem walk_setPte_self {x : Option Pte} (hwalk : d.walk va = some x) :
    (d.setPte va e).walk va = some e := by
  unfold walk at hwalk
  obtain ⟨t, ht, -⟩ := Option.map_eq_some_iff.mp hwalk
  unfold setPte walk
  rw [ht]
  simp [setPde]

theorem walk_setPte_of_ne (hv : v < npages) (hvpn : vpn < npages) (hne : vpn ≠ v) :
    (d.setPte (pgsize * v) e).walk (pgsize * vpn) = d.walk (pgsize * vpn) := by
  rw [walk_eq hvpn, walk_eq hvpn]
  unfold setPte
  rw [pdx_page hv, ptx_page]
  cases ht : d.pde (v / 1024) with
  | none => rfl
  | some t =>
    by_cases hdir : vpn / 1024 = v / 1024
    · have htab : vpn % 1024 ≠ v % 1024 := by omega
      simp [setPde, hdir, ht, update_of_ne htab]
    · simp [setPde, update_of_ne hdir]

theorem entry_setPte {x : Option Pte} (hv : v < npages) (hwalk : d.walk (pgsize * v) = some x)
    (hvpn : vpn < npages) : (d.setPte (pgsize * v) e).entry vpn = if vpn = v then e else d.entry vpn := by
  unfold entry
  by_cases hne : vpn = v
  · subst hne
    rw [walk_setPte_self hwalk, if_pos rfl]
    rfl
  · rw [walk_setPte_of_ne hv hvpn hne, if_neg hne]

/-- `walkpgdir` with `alloc` finds the page table of page `v`, or makes it. -/
inductive WalkAlloc (d : Pgdir) (k : Kmem) (v : Nat) : Pgdir → Kmem → Prop
  | found {t : PageTable} (ht : d.pde (v / 1024) = some t) : WalkAlloc d k v d k
  | made {g : Frame} {k₁ : Kmem} (ht : d.pde (v / 1024) = none) (hkalloc : k.kalloc = some (g, k₁)) :
      WalkAlloc d k v (d.setPde (v / 1024) { frame := g, pte := fun _ => none }) (k₁.memset g 0)

theorem WalkAlloc.of_eq (hv : v < npages) (halloc : d.walkAlloc (pgsize * v) k = some (d', k')) :
    WalkAlloc d k v d' k' := by
  unfold walkAlloc at halloc
  rw [pdx_page hv] at halloc
  split at halloc
  · cases halloc
    exact .found ‹_›
  · split at halloc <;> cases halloc
    exact .made ‹_› ‹_›

theorem walkAlloc_spec (hv : v < npages) (halloc : d.walkAlloc (pgsize * v) k = some (d', k')) :
    d'.walk (pgsize * v) = some (d.entry v) ∧ (∀ vpn < npages, d'.entry vpn = d.entry vpn) ∧
      k.Spares k' := by
  unfold entry
  cases WalkAlloc.of_eq hv halloc with
  | found ht =>
    refine ⟨?_, fun _ _ => rfl, Kmem.Spares.refl k⟩
    rw [walk_eq hv, ht]
    rfl
  | made ht hkalloc =>
    refine ⟨?_, fun vpn hvpn => ?_, Kmem.spares_kalloc hkalloc _⟩
    · simp [walk_eq hv, setPde, ht]
    · rw [walk_eq hvpn, walk_eq hvpn]
      by_cases hdir : vpn / 1024 = v / 1024
      · simp [setPde, hdir, ht]
      · simp [setPde, update_of_ne hdir]

end Pgdir

open Pgdir

/-- The loop of `mappages` for `m` pages from page `v` on. -/
def mapPages (perm : Perm) : Nat → Nat → Frame → Pgdir → Kmem → Except Panic (Bool × Pgdir × Kmem)
  | 0, _, _, d, k => .ok (true, d, k)
  | m + 1, v, pa, d, k =>
    match d.walkAlloc (pgsize * v) k with
    | none => .ok (false, d, k.refused)
    | some (d, k) =>
      match d.walk (pgsize * v) with
      | some (some _) => .error .remap
      | _ => mapPages perm m (v + 1) (pa + 1) (d.setPte (pgsize * v) (some ⟨pa, perm⟩)) k

theorem mapLoop_eq (perm : Perm) (m v turns : Nat) (pa : Frame) (d : Pgdir) (k : Kmem) (hturns : m < turns)
    (hlast : v + m < npages) :
    mapLoop perm (pgsize * (v + m)) turns (pgsize * v) pa d k = mapPages perm (m + 1) v pa d k := by
  induction m generalizing v turns pa d k with
  | zero =>
    obtain ⟨turns, rfl⟩ := Nat.exists_eq_succ_of_ne_zero (Nat.ne_of_gt hturns)
    simp only [mapLoop, Nat.add_zero, if_true]
    rfl
  | succ m ih =>
    obtain ⟨turns, rfl⟩ := Nat.exists_eq_succ_of_ne_zero (Nat.ne_of_gt (Nat.zero_lt_of_lt hturns))
    have hne : pgsize * v ≠ pgsize * (v + (m + 1)) := by
      simp only [pgsize]
      omega
    have hnext : u32 (pgsize * v + pgsize) = pgsize * (v + 1) := by
      simp only [npages] at hlast
      simp only [u32, pgsize]
      omega
    have hrest := fun d k => ih (v + 1) turns (pa + 1) d k (by omega) (by omega)
    rw [show v + 1 + m = v + (m + 1) by omega] at hrest
    simp only [mapLoop, if_neg hne, hnext, hrest]
    rfl

theorem mappages_eq {va size v m : Nat} (d : Pgdir) (pa : Frame) (perm : Perm) (k : Kmem)
    (hfirst : pgrounddown va = pgsize * v) (hlast : pgrounddown (u32 (va + size - 1)) = pgsize * (v + m))
    (hm : v + m < npages) : mappages d va size pa perm k = mapPages perm (m + 1) v pa d k := by
  rw [mappages, hfirst, hlast]
  exact mapLoop_eq perm m v npages pa d k (by omega) hm

theorem mappages_page_eq {v : Nat} (d : Pgdir) (pa : Frame) (perm : Perm) (k : Kmem) (hv : v < npages) :
    mappages d (pgsize * v) pgsize pa perm k = mapPages perm 1 v pa d k := by
  refine mappages_eq d pa perm k ?_ ?_ hv
  · simp only [pgrounddown, pgsize]
    omega
  · simp only [npages] at hv
    simp only [pgrounddown, u32, pgsize]
    omega

/-- `mappages` on pages that are absent does not panic. It may stop for lack of memory, after `j` of
them. -/
theorem mapPages_spec (perm : Perm) (m v : Nat) (pa : Frame) (d : Pgdir) (k : Kmem) (hlast : v + m ≤ npages)
    (habsent : ∀ vpn, v ≤ vpn → vpn < v + m → d.entry vpn = none) :
    ∃ mapped d' k' j, mapPages perm m v pa d k = .ok (mapped, d', k') ∧
      (if mapped then j = m else j < m) ∧ k.Spares k' ∧ ∀ vpn < npages, d'.entry vpn =
        if v ≤ vpn ∧ vpn < v + j then some ⟨pa + (vpn - v), perm⟩ else d.entry vpn := by
  induction m generalizing v pa d k with
  | zero =>
    refine ⟨true, d, k, 0, rfl, rfl, Kmem.Spares.refl k, fun vpn _ => ?_⟩
    rw [if_neg (by omega)]
  | succ m ih =>
    have hv : v < npages := by omega
    unfold mapPages
    cases halloc : d.walkAlloc (pgsize * v) k with
    | none =>
      refine ⟨false, d, k.refused, 0, rfl, Nat.succ_pos m, Kmem.spares_refused k, fun vpn _ => ?_⟩
      rw [if_neg (by omega)]
    | some dk =>
      obtain ⟨d₁, k₁⟩ := dk
      obtain ⟨hwalk, hsame, hspares⟩ := walkAlloc_spec hv halloc
      rw [habsent v le_rfl (by omega)] at hwalk
      simp only [hwalk]
      have hset := fun vpn (hvpn : vpn < npages) =>
        entry_setPte (e := some ⟨pa, perm⟩) hv hwalk hvpn
      obtain ⟨mapped, d', k', j, hok, hj, hspares', hentry⟩ := ih (v + 1) (pa + 1)
        (d₁.setPte (pgsize * v) (some ⟨pa, perm⟩)) k₁ (by omega) (fun vpn hle hlt => by
          rw [hset vpn (by omega), if_neg (by omega), hsame vpn (by omega)]
          exact habsent vpn (by omega) (by omega))
      refine ⟨mapped, d', k', j + 1, hok, by split at hj <;> simp_all, hspares.trans hspares',
        fun vpn hvpn => ?_⟩
      rw [hentry vpn hvpn, hset vpn hvpn, hsame vpn hvpn]
      by_cases heq : vpn = v
      · subst heq
        rw [if_neg (by omega), if_pos rfl, if_pos (by omega), Nat.sub_self, Nat.add_zero]
      · rw [if_neg heq]
        by_cases hin : v + 1 ≤ vpn ∧ vpn < v + 1 + j
        · have hoff : vpn - v = 1 + (vpn - (v + 1)) := by omega
          rw [if_pos hin, if_pos (by omega), hoff, ← Nat.add_assoc]
        · rw [if_neg hin, if_neg (by omega)]

theorem mappages_page {v : Nat} (perm : Perm) (pa : Frame) (k : Kmem) (hv : v < npages)
    (habsent : d.entry v = none) :
    ∃ mapped d' k', mappages d (pgsize * v) pgsize pa perm k = .ok (mapped, d', k') ∧ k.Spares k' ∧
      ∀ vpn < npages, d'.entry vpn =
        if mapped = true ∧ vpn = v then some ⟨pa, perm⟩ else d.entry vpn := by
  obtain ⟨mapped, d', k', j, hok, hj, hspares, hentry⟩ := mapPages_spec perm 1 v pa d k hv
    fun vpn hle hlt => by
      obtain rfl : vpn = v := by omega
      exact habsent
  refine ⟨mapped, d', k', (mappages_page_eq d pa perm k hv).trans hok, hspares, fun vpn hvpn => ?_⟩
  rw [hentry vpn hvpn]
  cases mapped with
  | true =>
    obtain rfl : j = 1 := hj
    by_cases heq : vpn = v
    · subst heq
      rw [if_pos (by omega), if_pos ⟨rfl, rfl⟩, Nat.sub_self, Nat.add_zero]
    · rw [if_neg (by omega), if_neg fun h => heq h.2]
  | false =>
    obtain rfl : j = 0 := Nat.lt_one_iff.mp hj
    rw [if_neg (by omega), if_neg fun h => nomatch h.1]

theorem exists_of_bind_ok {ε β : Type} {r : Except ε α} {g : α → Except ε β} {y : β}
    (h : (r >>= g) = .ok y) : ∃ x, r = .ok x ∧ g x = .ok y := by
  cases r with
  | ok x => exact ⟨x, rfl, h⟩
  | error e => cases h

/-- The computation ends in `Q`; the one panic it may run into is that of `kfree`, on a page number
that was never free. -/
def Ends {α : Type} (r : Except Panic α) (Q : α → Prop) : Prop :=
  match r with
  | .ok x => Q x
  | .error e => e = .kfree

theorem Ends.bind {β : Type} {f : α → Except Panic β}
    {R : β → Prop} (hr : Ends r Q) (hf : ∀ x, Q x → Ends (f x) R) : Ends (r >>= f) R := by
  cases r with
  | ok x => exact hf x hr
  | error e => exact hr

theorem Ends.mono {R : α → Prop} (hr : Ends r Q) (hQ : ∀ x, Q x → R x) : Ends r R := by
  cases r with
  | ok x => exact hQ x hr
  | error e => exact hr

theorem Ends.of_ok {x : α} (h : Ends r Q) (hr : r = .ok x) : Q x := by
  subst hr
  exact h

theorem Ends.of_error {e : Panic} (h : Ends r Q) (hr : r = .error e) : e = .kfree := by
  subst hr
  exact h

/-! ### Shrinking -/

theorem walk_of_entry {e : Pte} (he : d.entry vpn = some e) : d.walk (pgsize * vpn) = some (some e) := by
  unfold entry at he
  cases hwalk : d.walk (pgsize * vpn) with
  | none =>
    rw [hwalk] at he
    cases he
  | some x =>
    rw [hwalk] at he
    exact congrArg some he

/-- The pages of the list are looked at one by one, and given back if present. -/
def freePages : List Nat → Pgdir → Kmem → Except Panic (Pgdir × Kmem)
  | [], d, k => .ok (d, k)
  | v :: vs, d, k =>
    match d.entry v with
    | none => freePages vs d k
    | some e =>
      if e.frame = 0 then
        .error .kfree
      else
        freePages vs (d.setPte (pgsize * v) none) (k.kfree e.frame)

theorem freePages_absent {vs : List Nat} (ws : List Nat) (habsent : ∀ v ∈ vs, d.entry v = none) :
    freePages (vs ++ ws) d k = freePages ws d k := by
  induction vs with
  | nil => rfl
  | cons v vs ih =>
    rw [List.cons_append, freePages, habsent v List.mem_cons_self]
    exact ih fun w hw => habsent w (List.mem_cons_of_mem v hw)

/-- The pages of `[PGROUNDUP(newsz), oldsz)`. -/
def pagesFrom (lo oldsz : Nat) : List Nat := List.range' lo (pages oldsz - lo)

theorem pagesFrom_eq {v w : Nat} (oldsz : Nat) (hle : v ≤ w) :
    pagesFrom v oldsz = List.range' v (min w (pages oldsz) - v) ++ pagesFrom w oldsz := by
  unfold pagesFrom
  rcases Nat.le_total w (pages oldsz) with h | h
  · have hstart : v + 1 * (w - v) = w := by omega
    have hlen : pages oldsz - v = w - v + (pages oldsz - w) := by omega
    rw [Nat.min_eq_left h, hlen, ← List.range'_append, hstart]
  · have hnone : pages oldsz - w = 0 := by omega
    rw [Nat.min_eq_right h, hnone, List.range'_zero, List.append_nil]

theorem mem_pagesFrom (lo v : Nat) (holdsz : oldsz ≤ kernbase) :
    v ∈ pagesFrom lo oldsz ↔ lo ≤ v ∧ pgsize * v < oldsz := by
  rw [pagesFrom, List.mem_range'_1, ← lt_pages holdsz]
  omega

theorem deallocLoop_eq (holdsz : oldsz ≤ kernbase) (fuel v : Nat) (d : Pgdir) (k : Kmem)
    (hfuel : oldsz ≤ pgsize * (v + fuel)) :
    deallocLoop oldsz fuel (pgsize * v) d k = freePages (pagesFrom v oldsz) d k := by
  have hend : ∀ {v}, ¬ pgsize * v < oldsz → pagesFrom v oldsz = [] := by
    intro v hlt
    rw [← lt_pages holdsz] at hlt
    rw [pagesFrom, Nat.sub_eq_zero_of_le (Nat.le_of_not_lt hlt), List.range'_zero]
  induction fuel generalizing v d k with
  | zero =>
    rw [hend (v := v) (not_lt.mpr hfuel)]
    rfl
  | succ fuel ih =>
    unfold deallocLoop
    by_cases hlt : pgsize * v < oldsz
    · rw [if_pos hlt]
      have hvpages := (lt_pages holdsz).mpr hlt
      have hbounds : v < npages ∧ u32 (pgsize * v + pgsize) = pgsize * (v + 1) ∧
          u32 (2 ^ 22 * (v / 1024 + 1)) = pgsize * ((v / 1024 + 1) * 1024) ∧
          oldsz ≤ pgsize * (v + 1 + fuel) ∧ oldsz ≤ pgsize * ((v / 1024 + 1) * 1024 + fuel) := by
        simp only [kernbase] at holdsz
        simp only [pgsize] at hlt hfuel
        simp only [npages, u32, pgsize]
        omega
      obtain ⟨hv, hnext, hskip, hfuel', hfuel''⟩ := hbounds
      have hcons : pagesFrom v oldsz = v :: pagesFrom (v + 1) oldsz := by
        have hlen : pages oldsz - v = pages oldsz - (v + 1) + 1 := by omega
        rw [pagesFrom, hlen, List.range'_succ, pagesFrom]
      cases hwalk : d.walk (pgsize * v) with
      | none =>
        -- no page of this page table is present
        have hpde : d.pde (v / 1024) = none := by
          rw [walk_eq hv] at hwalk
          exact Option.map_eq_none_iff.mp hwalk
        dsimp only
        rw [pdx_page hv, hskip, ih _ d k hfuel'',
          pagesFrom_eq oldsz (show v ≤ (v / 1024 + 1) * 1024 by omega), freePages_absent]
        intro w hw
        obtain ⟨hge, hhi⟩ := List.mem_range'_1.mp hw
        have hdir : w / 1024 = v / 1024 := by omega
        have hw' : w < npages := by
          rw [pages_eq holdsz] at hhi
          simp only [kernbase] at holdsz
          simp only [npages]
          omega
        rw [entry, walk_eq hw', hdir, hpde]
        rfl
      | some x =>
        have hentry : d.entry v = x := by rw [entry, hwalk, Option.join_some]
        rw [hcons, freePages, hentry]
        cases x with
        | none =>
          dsimp only
          rw [hnext, ih (v + 1) d k hfuel']
        | some e =>
          dsimp only
          rw [hnext, ih (v + 1) _ _ hfuel']
    · rw [if_neg hlt, hend hlt]
      rfl

/-- The pages from `lo` on, up to the size `oldsz`, are unmapped, and given back. -/
structure Cleared (lo oldsz : Nat) (d : Pgdir) (k : Kmem) (d' : Pgdir) (k' : Kmem) : Prop where
  entry : ∀ vpn < npages, d'.entry vpn =
    if lo ≤ vpn ∧ pgsize * vpn < oldsz then none else d.entry vpn
  mem : ∀ f, (∀ vpn e, lo ≤ vpn → pgsize * vpn < oldsz → d.entry vpn = some e → e.frame ≠ f) →
    k'.mem f = k.mem f
  free : ∀ f, (∀ vpn e, lo ≤ vpn → pgsize * vpn < oldsz → d.entry vpn = some e → e.frame ≠ f) →
    f ∉ k.freelist → f ∉ k'.freelist

theorem deallocuvm_eq (d : Pgdir) (k : Kmem) (holdsz : oldsz ≤ kernbase) (hlt : newsz < oldsz) :
    deallocuvm d oldsz newsz k =
      freePages (pagesFrom (pages newsz) oldsz) d k >>= fun r => .ok (newsz, r) := by
  have hfuel : oldsz ≤ pgsize * (pages newsz + turns (pgsize * pages newsz) oldsz) := by
    simp only [turns, pgsize]
    omega
  unfold deallocuvm
  rw [if_neg (not_le.mpr hlt), pgroundup_eq (by omega)]
  dsimp only
  rw [deallocLoop_eq holdsz _ _ d k hfuel]

theorem freePages_spec {vs : List Nat} (hvs : ∀ v ∈ vs, v < npages) (d : Pgdir) (k : Kmem) :
    Ends (freePages vs d k) fun r =>
      (∀ vpn < npages, r.1.entry vpn = if vpn ∈ vs then none else d.entry vpn) ∧
      ∀ f, (∀ v ∈ vs, ∀ e, d.entry v = some e → e.frame ≠ f) →
        r.2.mem f = k.mem f ∧ (f ∉ k.freelist → f ∉ r.2.freelist) := by
  induction vs generalizing d k with
  | nil => exact ⟨fun _ _ => (if_neg List.not_mem_nil).symm, fun _ _ => ⟨rfl, id⟩⟩
  | cons v vs ih =>
    have hvs' : ∀ w ∈ vs, w < npages := fun w hw => hvs w (List.mem_cons_of_mem v hw)
    rw [freePages]
    cases he : d.entry v with
    | none =>
      refine (ih hvs' d k).mono fun r hr => ⟨fun vpn hvpn => ?_, fun f hf =>
        hr.2 f fun w hw => hf w (List.mem_cons_of_mem v hw)⟩
      rw [hr.1 vpn hvpn]
      by_cases hvpn : vpn = v <;> simp [hvpn, he]
    | some e =>
      have hset : ∀ vpn < npages, (d.setPte (pgsize * v) none).entry vpn = if vpn = v then none else
          d.entry vpn := fun _ => entry_setPte (hvs v List.mem_cons_self) (walk_of_entry he)
      dsimp only
      split_ifs with hzero
      · rfl
      refine (ih hvs' _ _).mono fun r hr => ⟨fun vpn hvpn => ?_, fun f hf => ?_⟩
      · rw [hr.1 vpn hvpn, hset vpn hvpn]
        by_cases hvpn : vpn = v <;> simp [hvpn]
      · have hframe : f ≠ e.frame := (hf v List.mem_cons_self e he).symm
        obtain ⟨hmem, hfree⟩ := hr.2 f fun w hw e' he' => by
          rw [hset w (hvs' w hw)] at he'
          split_ifs at he'
          exact hf w (List.mem_cons_of_mem v hw) e' he'
        refine ⟨hmem.trans (update_of_ne hframe ..), fun hnot => hfree ?_⟩
        rw [Kmem.kfree, List.mem_cons, not_or]
        exact ⟨hframe, hnot⟩

theorem deallocuvm_spec (d : Pgdir) (k : Kmem) (holdsz : oldsz ≤ kernbase) (hlt : newsz < oldsz) :
    Ends (deallocuvm d oldsz newsz k) fun r =>
      r.1 = newsz ∧ Cleared (pages newsz) oldsz d k r.2.1 r.2.2 := by
  have hmem := fun v => mem_pagesFrom (pages newsz) v holdsz
  rw [deallocuvm_eq d k holdsz hlt]
  refine .bind (freePages_spec (fun v hv => ?_) d k) fun r hr => ⟨rfl, ?_⟩
  · exact lt_npages (lt_userPages holdsz ((hmem v).mp hv).2)
  · simp only [hmem] at hr
    exact ⟨hr.1, fun f hf => (hr.2 f fun v hv e => hf v e hv.1 hv.2).1,
      fun f hf => (hr.2 f fun v hv e => hf v e hv.1 hv.2).2⟩

def Pages (d : Pgdir) (n : Nat) : Prop := ∀ vpn, vpn < userPages → (d.Present vpn ↔ vpn < n)

def Above (d : Pgdir) (n : Nat) : Prop := ∀ vpn < userPages, n ≤ vpn → d.entry vpn = none

theorem Pages.above (hpages : Pages d n) : Above d n := by
  intro vpn hvpn hn
  have hiff := hpages vpn hvpn
  rw [present_iff] at hiff
  by_contra hentry
  exact absurd (hiff.mp hentry) (by omega)

theorem Cleared.pages (holdsz : oldsz ≤ kernbase)
    (hpages : Pages d n) (hn : Vm.pages newsz ≤ n) (hn' : n ≤ Vm.pages oldsz)
    (h : Cleared (Vm.pages newsz) oldsz d k d' k') : Pages d' (Vm.pages newsz) := by
  intro vpn hvpn
  have hiff := hpages vpn hvpn
  rw [present_iff] at hiff
  rw [present_iff, h.entry vpn (lt_npages hvpn)]
  have hlt : vpn < Vm.pages oldsz ↔ pgsize * vpn < oldsz := lt_pages holdsz
  split_ifs with hin
  · exact ⟨fun h => absurd rfl h, fun h => by omega⟩
  · rw [hiff]
    omega

/-! ### Growing and copying -/

structure Restored (d : Pgdir) (k : Kmem) (d' : Pgdir) (k' : Kmem) : Prop where
  entry : ∀ vpn < npages, d'.entry vpn = d.entry vpn
  mem : ∀ f, f ∉ k.freelist → k'.mem f = k.mem f
  free : ∀ f, f ∉ k.freelist → f ∉ k'.freelist

/-- The pages from `n` up to `v` are mapped to pages that were free, with the permissions `perm`, and
what was there before is as it was. If `fair`, their bytes are `bytes`. -/
structure Filled (perm : Nat → Perm) (bytes : Nat → Nat → UInt8) (fair : Prop) (n v : Nat) (d : Pgdir)
    (k : Kmem) (d' : Pgdir) (k' : Kmem) : Prop where
  old : ∀ vpn < npages, ¬ (n ≤ vpn ∧ vpn < v) → d'.entry vpn = d.entry vpn
  new : ∀ vpn, n ≤ vpn → vpn < v → ∃ g, d'.entry vpn = some ⟨g, perm vpn⟩ ∧ g ∈ k.freelist ∧
    (fair → k'.mem g = bytes vpn ∧ g ∉ k'.freelist)
  spares : k.Spares k'

namespace Filled

variable {perm : Nat → Perm} {bytes : Nat → Nat → UInt8} {fair : Prop} {n v : Nat} {d₀ d d' : Pgdir}
  {k₀ k k₁ k' : Kmem} {g : Frame}

theorem refl (n : Nat) (d : Pgdir) (k : Kmem) : Filled perm bytes fair n n d k d k :=
  ⟨fun _ _ _ => rfl, fun _ hle hlt => by omega, Kmem.Spares.refl k⟩

theorem mono (h : Filled perm bytes fair n v d₀ k₀ d k) (hentry : ∀ vpn < npages, d'.entry vpn = d.entry vpn)
    (hv : v ≤ npages) (hspares : k.Spares k') : Filled perm bytes fair n v d₀ k₀ d' k' := by
  refine ⟨fun vpn hvpn hout => ?_, fun vpn hle hlt => ?_, h.spares.trans hspares⟩
  · rw [hentry vpn hvpn]
    exact h.old vpn hvpn hout
  · obtain ⟨g, hg, hfree, hbytes⟩ := h.new vpn hle hlt
    refine ⟨g, (hentry vpn (by omega)).trans hg, hfree, fun hfair => ?_⟩
    obtain ⟨hmem, hnot⟩ := hbytes hfair
    exact ⟨(hspares.mem g hnot).trans hmem, hspares.free g hnot⟩

theorem map {x : Nat → UInt8} (h : Filled perm bytes fair n v d₀ k₀ d k) (hn : n ≤ v) (hv : v < npages)
    (halloc : k.kalloc = some (g, k₁)) (habsent : d.entry v = none)
    (hx : fair → k₀.freelist.Nodup ∧ x = bytes v) :
    ∃ mapped d' k', mappages d (pgsize * v) pgsize g (perm v)
        { k₁ with mem := update k₁.mem g x } = .ok (mapped, d', k') ∧
      Filled perm bytes fair n (if mapped then v + 1 else v) d₀ k₀ d' k' := by
  obtain ⟨mapped, d', k', hok, hspares, hentry⟩ :=
    mappages_page (perm v) g { k₁ with mem := update k₁.mem g x } hv habsent
  have hall := (Kmem.spares_kalloc halloc x).trans hspares
  have hfree : g ∈ k₀.freelist := by
    by_contra hnot
    exact h.spares.free g hnot (Kmem.mem_freelist_of_kalloc halloc)
  refine ⟨mapped, d', k', hok, ?_⟩
  cases mapped with
  | false =>
    refine h.mono (fun vpn hvpn => ?_) hv.le hall
    rw [hentry vpn hvpn, if_neg fun h => nomatch h.1]
  | true =>
    refine ⟨fun vpn hvpn hout => ?_, fun vpn hle hlt => ?_, h.spares.trans hall⟩
    · rw [if_pos rfl] at hout
      rw [hentry vpn hvpn, if_neg (by omega)]
      exact h.old vpn hvpn (by omega)
    · rw [if_pos rfl] at hlt
      rw [hentry vpn (by omega)]
      by_cases heq : vpn = v
      · subst heq
        refine ⟨g, if_pos ⟨rfl, rfl⟩, hfree, fun hfair => ?_⟩
        obtain ⟨hnodup, hbytes⟩ := hx hfair
        have hnot := Kmem.notMem_of_kalloc halloc (h.spares.nodup hnodup)
        refine ⟨(hspares.mem g hnot).trans ?_, hspares.free g hnot⟩
        exact (update_self ..).trans hbytes
      · obtain ⟨g', hg', hfree', hbytes'⟩ := h.new vpn hle (by omega)
        refine ⟨g', (if_neg fun h => heq h.2).trans hg', hfree', fun hfair => ?_⟩
        obtain ⟨hmem, hnot⟩ := hbytes' hfair
        exact ⟨(hall.mem g' hnot).trans hmem, hall.free g' hnot⟩

theorem undo {oldsz newsz : Nat} (h : Filled perm bytes fair (pages oldsz) v d₀ k₀ d k)
    (hnewsz : newsz ≤ kernbase) (hv : v ≤ pages newsz)
    (habsent : ∀ vpn < npages, pages oldsz ≤ vpn → pgsize * vpn < newsz → d₀.entry vpn = none)
    (hclear : Cleared (pages oldsz) newsz d k d' k') :
    Restored d₀ k₀ d' k' := by
  have hrange : ∀ {vpn}, pgsize * vpn < newsz → vpn < npages := fun h =>
    lt_npages (lt_userPages hnewsz h)
  have hothers : ∀ f, f ∉ k₀.freelist → ∀ vpn e, pages oldsz ≤ vpn → pgsize * vpn < newsz →
      d.entry vpn = some e → e.frame ≠ f := by
    rintro f hf vpn e hle hlt he rfl
    by_cases hnew : vpn < v
    · obtain ⟨g, hg, hfree, -⟩ := h.new vpn hle hnew
      rw [hg] at he
      cases he
      exact hf hfree
    · rw [h.old vpn (hrange hlt) (by omega), habsent vpn (hrange hlt) hle hlt] at he
      cases he
  refine ⟨fun vpn hvpn => ?_, fun f hf => ?_, fun f hf => ?_⟩
  · rw [hclear.entry vpn hvpn]
    split_ifs with hin
    · exact (habsent vpn hvpn hin.1 hin.2).symm
    · refine h.old vpn hvpn fun hin' => hin ⟨hin'.1, (lt_pages hnewsz).mp (by omega)⟩
  · rw [hclear.mem f (hothers f hf)]
    exact h.spares.mem f hf
  · exact hclear.free f (hothers f hf) (h.spares.free f hf)

theorem pages_of (h : Filled perm bytes fair n v d₀ k₀ d k) (hpages : Pages d₀ n) (hn : n ≤ v) :
    Pages d v := by
  intro vpn hvpn
  have hiff := hpages vpn hvpn
  rw [present_iff] at hiff ⊢
  by_cases hnew : n ≤ vpn ∧ vpn < v
  · obtain ⟨g, hg, -⟩ := h.new vpn hnew.1 hnew.2
    rw [hg]
    exact ⟨fun _ => hnew.2, fun _ => nofun⟩
  · rw [h.old vpn (lt_npages hvpn) hnew, hiff]
    omega

end Filled

abbrev Grown (n v : Nat) (d : Pgdir) (k : Kmem) (d' : Pgdir) (k' : Kmem) : Prop :=
  Filled (fun _ => userPerm) (fun _ _ => 0) k.freelist.Nodup n v d k d' k'

theorem allocLoop_spec (hnewsz : newsz < kernbase) (hle : oldsz ≤ newsz) {d₀ : Pgdir} {k₀ : Kmem}
    (habsent : ∀ vpn < npages, pages oldsz ≤ vpn → pgsize * vpn < newsz → d₀.entry vpn = none)
    (fuel v : Nat) (d : Pgdir) (k : Kmem) (hgrown : Grown (pages oldsz) v d₀ k₀ d k)
    (hold : pages oldsz ≤ v) (hnew : v ≤ pages newsz) (hfuel : pages newsz ≤ v + fuel) :
    Ends (allocLoop oldsz newsz fuel (pgsize * v) d k) fun r =>
      (r.1 = newsz ∧ Grown (pages oldsz) (pages newsz) d₀ k₀ r.2.1 r.2.2) ∨
        (r.1 = 0 ∧ Restored d₀ k₀ r.2.1 r.2.2) := by
  have hnewsz' := hnewsz.le
  induction fuel generalizing v d k with
  | zero =>
    obtain rfl : v = pages newsz := by omega
    exact .inl ⟨rfl, hgrown⟩
  | succ fuel ih =>
    unfold allocLoop
    by_cases hlt : pgsize * v < newsz
    · rw [if_pos hlt]
      have hvnew := (lt_pages hnewsz').mpr hlt
      have hgrow : oldsz < newsz := by
        rcases Nat.lt_or_ge oldsz newsz with h | h
        · exact h
        · have := pages_mono (hle.trans hnewsz') h
          omega
      have huser := lt_userPages hnewsz' hlt
      have hv := lt_npages huser
      cases hk : k.kalloc with
      | none =>
        refine .bind (deallocuvm_spec d k.refused hnewsz' hgrow) fun r hr => .inr ⟨rfl, ?_⟩
        have hfill : Grown (pages oldsz) v d₀ k₀ d k.refused :=
          hgrown.mono (fun _ _ => rfl) hv.le (Kmem.spares_refused k)
        exact hfill.undo hnewsz' hnew habsent hr.2
      | some fk =>
        obtain ⟨g, k₁⟩ := fk
        have habs : d.entry v = none := by
          rw [hgrown.old v hv (by omega)]
          exact habsent v hv hold hlt
        obtain ⟨mapped, d', k', hok, hfill⟩ := hgrown.map (x := fun _ => 0) hold hv hk habs
          fun hnodup => ⟨hnodup, rfl⟩
        dsimp only
        change Ends (mappages d (pgsize * v) pgsize g userPerm
          { k₁ with mem := update k₁.mem g fun _ => 0 } >>= _) _
        rw [hok]
        cases mapped with
        | true =>
          change Ends (allocLoop oldsz newsz fuel (u32 (pgsize * v + pgsize)) d' k') _
          rw [u32_page_succ huser]
          exact ih (v + 1) d' k' hfill (by omega) (by omega) (by omega)
        | false =>
          change Ends (deallocuvm d' newsz oldsz k' >>= fun r =>
            .ok (0, r.2.1, r.2.2.kfree g)) _
          refine .bind (deallocuvm_spec d' k' hnewsz' hgrow) fun r hr => .inr ⟨rfl, ?_⟩
          obtain ⟨hentry, hmem, hfree⟩ := hfill.undo hnewsz' hnew habsent hr.2
          have hg : g ∈ k₀.freelist := by
            by_contra hnot
            exact hgrown.spares.free g hnot (Kmem.mem_freelist_of_kalloc hk)
          refine ⟨hentry, fun f hf => ?_, fun f hf => ?_⟩
          · have hne : f ≠ g := fun h => hf (h ▸ hg)
            exact (update_of_ne hne ..).trans (hmem f hf)
          · have hne : f ≠ g := fun h => hf (h ▸ hg)
            exact fun h => (List.mem_cons.mp h).elim hne (hfree f hf)
    · rw [if_neg hlt]
      have hvnew : ¬ v < pages newsz := fun h => hlt ((lt_pages hnewsz').mp h)
      obtain rfl : v = pages newsz := by omega
      exact .inl ⟨rfl, hgrown⟩

/-- What `allocuvm` comes to: the new size with zero pages mapped, or 0 and what was there. -/
theorem allocuvm_spec (newsz : Nat) (k : Kmem) (habove : Above d (pages oldsz))
    (holdsz : oldsz ≤ kernbase) : Ends (allocuvm d oldsz newsz k) fun r =>
      (newsz < kernbase ∧ r.1 = max oldsz newsz ∧
        Grown (pages oldsz) (pages (max oldsz newsz)) d k r.2.1 r.2.2) ∨
      (r.1 = 0 ∧ Restored d k r.2.1 r.2.2) := by
  unfold allocuvm
  by_cases hbig : kernbase ≤ newsz
  · rw [if_pos hbig]
    exact .inr ⟨rfl, fun _ _ => rfl, fun _ _ => rfl, fun _ h => h⟩
  rw [if_neg hbig]
  by_cases hlt : newsz < oldsz
  · rw [if_pos hlt]
    refine .inl ⟨by omega, (Nat.max_eq_left hlt.le).symm, ?_⟩
    rw [Nat.max_eq_left hlt.le]
    exact .refl _ d k
  rw [if_neg hlt, pgroundup_eq holdsz]
  have hle := Nat.le_of_not_lt hlt
  have hnewsz : newsz ≤ kernbase := by omega
  have hmono := pages_mono hnewsz hle
  refine (allocLoop_spec (by omega) hle (fun vpn hvpn hge hin => ?_) _ (pages oldsz) d k
    (.refl _ d k) le_rfl hmono ?_).mono fun r hr => ?_
  · exact habove vpn (lt_userPages hnewsz hin) hge
  · rw [pages_eq hnewsz]
    simp only [turns, pgsize]
    omega
  · refine hr.imp_left fun h => ?_
    rw [Nat.max_eq_right hle]
    exact ⟨by omega, h.1, h.2⟩

theorem Restored.pages (h : Restored d k d' k') (hpages : Pages d n) : Pages d' n := by
  intro vpn hvpn
  have hiff := hpages vpn hvpn
  rw [present_iff] at hiff
  rw [present_iff, h.entry vpn (lt_npages hvpn), hiff]

theorem allocuvm_pages (newsz : Nat) (k : Kmem) (hpages : Pages d (pages oldsz))
    (holdsz : oldsz ≤ kernbase) (hsmall : newsz < oldsz → oldsz < kernbase) :
    Ends (allocuvm d oldsz newsz k) fun r =>
      (r.1 < kernbase ∧ r.1 = max oldsz newsz ∧ Pages r.2.1 (pages r.1)) ∨
        (r.1 = 0 ∧ Pages r.2.1 (pages oldsz)) := by
  refine (allocuvm_spec newsz k hpages.above holdsz).mono fun r hr => ?_
  rcases hr with ⟨hlt, hmax, hgrown⟩ | ⟨hzero, hrestored⟩
  · have hsz : max oldsz newsz < kernbase := by omega
    refine .inl ⟨hmax ▸ hsz, hmax, ?_⟩
    rw [hmax]
    exact hgrown.pages_of hpages (pages_mono hsz.le (Nat.le_max_left ..))
  · exact .inr ⟨hzero, hrestored.pages hpages⟩

theorem freevm_spec (d : Pgdir) (k : Kmem) : Ends (freevm d k) fun _ => True :=
  .bind (deallocuvm_spec d k le_rfl (by decide)) fun _ _ => trivial

theorem KmapEntry.last_lt (e : KmapEntry) : e.last < npages := by
  simp only [KmapEntry.last, u32, pgsize, npages]
  omega

theorem mappages_kmap {e : KmapEntry} (d : Pgdir) (pa : Frame) (perm : Perm) (k : Kmem)
    (hle : e.first ≤ e.last) :
    mappages d e.virt e.size pa perm k = mapPages perm (e.last - e.first + 1) e.first pa d k := by
  refine mappages_eq d pa perm k rfl ?_ ?_ <;> rw [Nat.add_sub_cancel' hle]
  · rfl
  · exact e.last_lt

theorem mappages_entry {e : KmapEntry} (pa : Frame) (perm : Perm) (k : Kmem) (hle : e.first ≤ e.last)
    (habsent : ∀ vpn, e.first ≤ vpn → vpn ≤ e.last → d.entry vpn = none) :
    ∃ mapped d' k', mappages d e.virt e.size pa perm k = .ok (mapped, d', k') ∧ k.Spares k' ∧
      ∀ vpn < npages, ¬ (e.first ≤ vpn ∧ vpn ≤ e.last) → d'.entry vpn = d.entry vpn := by
  have hlast := e.last_lt
  obtain ⟨mapped, d', k', j, hok, hj, hspares, hentry⟩ := mapPages_spec perm
    (e.last - e.first + 1) e.first pa d k (by omega) fun vpn hge hlt => habsent vpn hge (by omega)
  refine ⟨mapped, d', k', (mappages_kmap d pa perm k hle).trans hok, hspares, fun vpn hvpn hout => ?_⟩
  rw [hentry vpn hvpn, if_neg]
  split at hj <;> omega

theorem mapKmap_spec (entries : List KmapEntry) (d : Pgdir) (k : Kmem)
    (hhigh : ∀ e ∈ entries, userPages ≤ e.first ∧ e.first ≤ e.last)
    (hdisjoint : entries.Pairwise fun e e' => e.last < e'.first ∨ e'.last < e.first)
    (habsent : ∀ e ∈ entries, ∀ vpn, e.first ≤ vpn → vpn ≤ e.last → d.entry vpn = none) :
    Ends (mapKmap entries d k) fun r => ∀ d', r.1 = some d' →
      k.Spares r.2 ∧ ∀ vpn < userPages, d'.entry vpn = d.entry vpn := by
  induction entries generalizing d k with
  | nil =>
    rintro d' ⟨⟩
    exact ⟨Kmem.Spares.refl k, fun _ _ => rfl⟩
  | cons e rest ih =>
    obtain ⟨hfirst, hle⟩ := hhigh e List.mem_cons_self
    obtain ⟨mapped, d₁, k₁, hok, hspares, hentry⟩ := mappages_entry (e.physStart / pgsize)
      { writable := e.writable, user := false } k hle (habsent e List.mem_cons_self)
    unfold mapKmap
    rw [hok]
    cases mapped with
    | false =>
      change Ends (freevm d₁ k₁ >>= fun k => .ok (none, k)) _
      exact .bind (freevm_spec d₁ k₁) fun _ _ => nofun
    | true =>
      rw [List.pairwise_cons] at hdisjoint
      refine (ih d₁ k₁ (fun e' he' => hhigh e' (List.mem_cons_of_mem _ he')) hdisjoint.2
        fun e' he' vpn hge hle' => ?_).mono fun r hr d' hd' => ?_
      · have hnew : vpn < npages := Nat.lt_of_le_of_lt hle' e'.last_lt
        have hapart := hdisjoint.1 e' he'
        rw [hentry vpn hnew (by omega)]
        exact habsent e' (List.mem_cons_of_mem _ he') vpn hge hle'
      · obtain ⟨hspares', hsame⟩ := hr d' hd'
        refine ⟨hspares.trans hspares', fun vpn hvpn => ?_⟩
        rw [hsame vpn hvpn, hentry vpn (lt_npages hvpn) (by omega)]

theorem setupkvm_spec (kmap : Kmap) (k : Kmem) : Ends (setupkvm kmap k) fun r => ∀ d, r.1 = some d →
      k.Spares r.2 ∧ ∀ vpn < userPages, d.entry vpn = none := by
  unfold setupkvm
  cases hk : k.kalloc with
  | none => exact nofun
  | some gk =>
    refine (mapKmap_spec kmap.entries _ _ kmap.high kmap.disjoint fun _ _ _ _ _ => rfl).mono
      fun r hr d hd => ?_
    obtain ⟨hspares, hentry⟩ := hr d hd
    exact ⟨(Kmem.spares_kalloc hk _).trans hspares, hentry⟩

theorem setupkvm_pages (kmap : Kmap) (k : Kmem) :
    Ends (setupkvm kmap k) fun r => ∀ d, r.1 = some d → Pages d 0 := by
  refine (setupkvm_spec kmap k).mono fun r hr d hd vpn hvpn => ?_
  rw [present_iff, (hr d hd).2 vpn hvpn]
  exact ⟨fun h => absurd rfl h, nofun⟩

/-- What `copyuvm` copies: the permissions of a page, and its bytes. -/
def Pgdir.perm (d : Pgdir) (vpn : Nat) : Perm := (d.entry vpn).elim userPerm Pte.perm

def Pgdir.bytes (d : Pgdir) (k : Kmem) (vpn : Nat) : Nat → UInt8 :=
  (d.entry vpn).elim (fun _ => 0) fun e => k.mem e.frame

/-- The pages that are copied are in use, and those that are free are so once. -/
def Fair (src : Pgdir) (n : Nat) (k : Kmem) : Prop :=
  k.freelist.Nodup ∧ ∀ vpn < n, ∀ e, src.entry vpn = some e → e.frame ∉ k.freelist

abbrev Copied (src : Pgdir) (n v : Nat) (d : Pgdir) (k : Kmem) (d' : Pgdir) (k' : Kmem) : Prop :=
  Filled src.perm (src.bytes k) (Fair src n k) 0 v d k d' k'

theorem copyLoop_spec (hsz : sz < kernbase)
    (hsrc : ∀ vpn < pages sz, src.entry vpn ≠ none) {d₀ : Pgdir} {k₀ : Kmem}
    (habsent : ∀ vpn < userPages, d₀.entry vpn = none) (fuel v : Nat) (d : Pgdir) (k : Kmem)
    (hcopied : Copied src (pages sz) v d₀ k₀ d k) (hv : v ≤ pages sz) (hfuel : pages sz ≤ v + fuel) :
    Ends (copyLoop src sz fuel (pgsize * v) d k) fun r => ∀ d', r.1 = some d' →
      Copied src (pages sz) (pages sz) d₀ k₀ d' r.2 := by
  have hsz' := hsz.le
  induction fuel generalizing v d k with
  | zero =>
    obtain rfl : v = pages sz := by omega
    rintro d' ⟨⟩
    exact hcopied
  | succ fuel ih =>
    unfold copyLoop
    by_cases hlt : pgsize * v < sz
    · rw [if_pos hlt]
      have hvn := (lt_pages hsz').mpr hlt
      have hvu := lt_userPages hsz' hlt
      obtain ⟨e, he⟩ := Option.ne_none_iff_exists'.mp (hsrc v hvn)
      simp only [walk_of_entry he]
      cases hk : k.kalloc with
      | none =>
        change Ends (freevm d k.refused >>= fun k => .ok (none, k)) _
        exact .bind (freevm_spec d k.refused) fun _ _ => nofun
      | some gk =>
        obtain ⟨g, k₁⟩ := gk
        have habs : d.entry v = none := by
          rw [hcopied.old v (lt_npages hvu) (by omega)]
          exact habsent v hvu
        obtain ⟨mapped, d', k', hok, hfill⟩ := hcopied.map (x := k₁.mem e.frame) (Nat.zero_le v)
          (lt_npages hvu) hk habs fun hfair => ⟨hfair.1, by
            rw [(Kmem.kalloc_eq_some hk).2.1, hcopied.spares.mem _ (hfair.2 v hvn e he), bytes, he]
            rfl⟩
        have hperm : src.perm v = e.perm := by
          rw [perm, he]
          rfl
        rw [hperm] at hok
        dsimp only
        change Ends (mappages d (pgsize * v) pgsize g e.perm
          { k₁ with mem := update k₁.mem g (k₁.mem e.frame) } >>= _) _
        rw [hok]
        cases mapped with
        | true =>
          change Ends (copyLoop src sz fuel (u32 (pgsize * v + pgsize)) d' k') _
          rw [u32_page_succ hvu]
          exact ih (v + 1) d' k' hfill (by omega) (by omega)
        | false =>
          change Ends (freevm d' k' >>= fun k => .ok (none, k)) _
          exact .bind (freevm_spec d' k') fun _ _ => nofun
    · rw [if_neg hlt]
      have hvn : ¬ v < pages sz := fun h => hlt ((lt_pages hsz').mp h)
      obtain rfl : v = pages sz := by omega
      rintro d' ⟨⟩
      exact hcopied

/-- The kernel's part first, then the copies. On pages that are present, `copyuvm` does not panic. -/
theorem copyuvm_spec (kmap : Kmap) (k : Kmem) (hsz : sz < kernbase)
    (hsrc : ∀ vpn < pages sz, src.entry vpn ≠ none) :
    Ends (copyuvm kmap src sz k) fun r => ∀ d, r.1 = some d → ∃ d₀ k₀, k.Spares k₀ ∧
      (∀ vpn < userPages, d₀.entry vpn = none) ∧ Copied src (pages sz) (pages sz) d₀ k₀ d r.2 := by
  refine .bind (setupkvm_spec kmap k) ?_
  rintro ⟨_ | d₀, k₀⟩ hd
  · exact nofun
  · obtain ⟨hspares, habsent⟩ := hd d₀ rfl
    refine (copyLoop_spec hsz hsrc habsent (turns 0 sz) 0 d₀ k₀ (.refl 0 d₀ k₀)
      (Nat.zero_le _) ?_).mono fun r hr d hd' => ⟨d₀, k₀, hspares, habsent, hr d hd'⟩
    rw [pages_eq hsz.le]
    simp only [turns, pgsize]
    omega

theorem copyuvm_pages (kmap : Kmap) (k : Kmem) (hsz : sz < kernbase) (hsrc : Pages src (pages sz)) :
    Ends (copyuvm kmap src sz k) fun r => ∀ d, r.1 = some d → Pages d (pages sz) := by
  have huser := pages_le_userPages hsz.le
  have hpresent : ∀ vpn < pages sz, src.entry vpn ≠ none := fun vpn hvpn =>
    present_iff.mp ((hsrc vpn (hvpn.trans_le huser)).mpr hvpn)
  refine (copyuvm_spec kmap k hsz hpresent).mono fun r hr d hd => ?_
  obtain ⟨d₀, k₀, -, habsent, hcopied⟩ := hr d hd
  refine hcopied.pages_of (fun vpn hvpn => ?_) (Nat.zero_le _)
  rw [present_iff, habsent vpn hvpn]
  exact ⟨fun h => absurd rfl h, nofun⟩

theorem inituvm_pages {init : Nat → UInt8} (hpages : Pages d 0)
    (hinit : inituvm d init k = .ok (d', k')) (hentry : (d'.entry 0).isSome) : Pages d' 1 := by
  have habsent := hpages.above
  unfold inituvm at hinit
  split at hinit
  case h_1 => cases hinit
  rename_i f k₁ _
  obtain ⟨mapped, d₁, k₂, hmap, -, hentries⟩ := mappages_page userPerm f (k₁.memset f 0)
    (by decide : 0 < npages) (habsent 0 (by decide) le_rfl)
  rw [Nat.mul_zero] at hmap
  rw [hmap] at hinit
  cases hinit
  intro vpn hvpn
  rw [hentries 0 (by decide)] at hentry
  rw [present_iff, hentries vpn (lt_npages hvpn)]
  cases mapped with
  | false =>
    have hzero := habsent 0 (by decide) le_rfl
    rw [if_neg (fun h => nomatch h.1), hzero] at hentry
    cases hentry
  | true =>
    by_cases hzero : vpn = 0
    · rw [if_pos ⟨rfl, hzero⟩, hzero]
      exact ⟨fun _ => Nat.one_pos, fun _ => nofun⟩
    · rw [if_neg fun h => hzero h.2, habsent vpn hvpn (Nat.zero_le _)]
      exact ⟨fun h => absurd rfl h, fun h => absurd (Nat.lt_one_iff.mp h) hzero⟩

theorem execLoad_spec (phdrs : List Proghdr) (sz : Nat) (d : Pgdir) (k : Kmem) (hsz : sz < kernbase)
    (hpages : Pages d (pages sz)) : Ends (execLoad phdrs sz d k) fun r => ∀ sz', r.1 = some sz' →
      sz' < kernbase ∧ Pages r.2.1 (pages sz') := by
  induction phdrs generalizing sz d k with
  | nil =>
    rintro sz' ⟨⟩
    exact ⟨hsz, hpages⟩
  | cons ph rest ih =>
    cases ph with
    | short => exact nofun
    | other => exact ih sz d k hsz hpages
    | load filesz memsz vaddr loads =>
      unfold execLoad
      split
      · exact nofun
      refine .bind (allocuvm_pages _ k hpages hsz.le fun _ => hsz) ?_
      rintro ⟨sz₁, d₁, k₁⟩ hr
      dsimp only at hr ⊢
      split
      · exact nofun
      · rename_i hgood
        obtain ⟨hlt, -, hp⟩ := hr.resolve_right fun h => hgood (.inl h.1)
        exact ih sz₁ d₁ k₁ hlt hp

theorem clearpteu_spec {v : Nat} (hpages : Pages d n) (hv : v < userPages) (hn : v < n) :
    Ends (clearpteu d (pgsize * v)) fun d' => Pages d' n := by
  obtain ⟨e, he⟩ := (hpages v hv).mpr hn
  unfold clearpteu
  rw [he]
  intro vpn hvpn
  have hiff := hpages vpn hvpn
  rw [present_iff] at hiff ⊢
  rw [entry_setPte (lt_npages hv) he (lt_npages hvpn)]
  split_ifs with heq
  · exact ⟨fun _ => heq ▸ hn, fun _ => nofun⟩
  · exact hiff

theorem execStack_spec (args : Bool) (k : Kmem) (hsz : sz < kernbase) (hpages : Pages d (pages sz)) :
    Ends (execStack args sz d k) fun r => ∀ sz', r.1 = some sz' →
      sz' < kernbase ∧ Pages r.2.1 (pages sz') := by
  have hpages_eq := pages_eq hsz.le
  have hround : pgsize * pages sz ≤ kernbase := by
    simp only [kernbase] at hsz
    simp only [kernbase, pgsize]
    omega
  have hpages' : Pages d (pages (pgsize * pages sz)) := by
    have heq : pages (pgsize * pages sz) = pages sz := by
      rw [pages_eq hround]
      simp only [pgsize]
      omega
    rw [heq]
    exact hpages
  have hgrow : u32 (pgsize * pages sz + 2 * pgsize) = pgsize * (pages sz + 2) := by
    simp only [kernbase, pgsize] at hround
    simp only [u32, pgsize]
    omega
  unfold execStack
  dsimp only
  rw [pgroundup_eq hsz.le, hgrow]
  have hsmall : pgsize * (pages sz + 2) < pgsize * pages sz → pgsize * pages sz < kernbase := by
    simp only [pgsize]
    omega
  refine .bind (allocuvm_pages _ k hpages' hround hsmall) ?_
  rintro ⟨sz₁, d₁, k₁⟩ hr
  dsimp only at hr ⊢
  by_cases hzero : sz₁ = 0
  · rw [if_pos hzero]
    exact nofun
  rw [if_neg hzero]
  obtain ⟨hlt, hmax, hp⟩ := hr.resolve_right fun h => hzero h.1
  have hsz₁ : sz₁ = pgsize * (pages sz + 2) := by
    rw [hmax]
    refine Nat.max_eq_right ?_
    simp only [pgsize]
    omega
  have hguard : sz₁ - 2 * pgsize = pgsize * pages sz := by
    rw [hsz₁]
    simp only [pgsize]
    omega
  rw [hguard]
  refine .bind (clearpteu_spec hp ?_ ?_) fun d₂ hd₂ => ?_
  · rw [hsz₁] at hlt
    simp only [kernbase, pgsize] at hlt
    simp only [userPages, kernbase, pgsize]
    omega
  · rw [pages_eq hlt.le, hsz₁]
    simp only [pgsize]
    omega
  · cases args with
    | false => exact nofun
    | true =>
      rintro sz' ⟨⟩
      exact ⟨hlt, hd₂⟩

theorem execImage_spec (kmap : Kmap) (phdrs : List Proghdr) (args : Bool) (k : Kmem) :
    Ends (execImage kmap phdrs args k) fun r => ∀ d sz, r.1 = some (d, sz) →
      sz < kernbase ∧ Pages d (pages sz) := by
  refine .bind (setupkvm_pages kmap k) ?_
  rintro ⟨_ | d, k⟩ hd
  · exact nofun
  have hzero : Pages d (pages 0) := by
    rw [pages_eq (Nat.zero_le _)]
    exact hd d rfl
  refine .bind (execLoad_spec phdrs 0 d k (by decide) hzero) ?_
  rintro ⟨_ | sz, d, k⟩ hsz
  · exact .bind (freevm_spec d k) fun _ _ => nofun
  obtain ⟨hlt, hpages⟩ := hsz sz rfl
  refine .bind (execStack_spec args k hlt hpages) ?_
  rintro ⟨_ | sz, d, k⟩ hsz
  · exact .bind (freevm_spec d k) fun _ _ => nofun
  · rintro _ _ ⟨⟩
    exact hsz sz rfl

end Xv6.Vm
