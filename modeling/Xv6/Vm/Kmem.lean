import Xv6.Vm.Model
import Mathlib.Algebra.Group.Nat.Defs
import Mathlib.Algebra.Group.Basic
import Mathlib.Data.List.Nodup
import Mathlib.Algebra.Group.Pi.Basic

/-!
# What the allocator's calls do to the free list

A page is free, held by somebody, or neither. The calls move pages between the free list and their
holders: the occurrences of a page in both together stay the same, and as long as there is one at most,
no page is handed out that is out already, and none is given back that is not out.
-/

namespace Xv6.Vm

open Function (update update_of_ne)

def one (g : Frame) : Frame → Nat := fun f => if g = f then 1 else 0

@[simp] theorem one_self (f : Frame) : one f f = 1 := if_pos rfl

theorem one_of_ne {g f : Frame} (hne : g ≠ f) : one g f = 0 := if_neg hne

theorem one_add_ne_zero (g : Frame) (held : Frame → Nat) : (one g + held) g ≠ 0 := by
  rw [Pi.add_apply, one_self]
  omega

theorem one_ne_zero {g f : Frame} : one g f ≠ 0 ↔ f = g := by
  unfold one
  split_ifs with h
  · exact ⟨fun _ => h.symm, fun _ => Nat.one_ne_zero⟩
  · exact ⟨fun h' => absurd rfl h', fun h' => absurd h'.symm h⟩

/-! ### The calls -/

def Out (f : Frame) : List Call → Prop
  | [] => False
  | .alloc g :: calls => g = f ∨ Out f calls
  | .free g :: calls => g ≠ f ∧ Out f calls

/-- No page was handed out while it was out, or given back while it was not. -/
def Legal : List Call → Prop
  | [] => True
  | .alloc g :: calls => ¬ Out g calls ∧ Legal calls
  | .free g :: calls => Out g calls ∧ Legal calls

namespace Kmem

variable {k k' k'' : Kmem} {g : Frame}

def free (k : Kmem) (f : Frame) : Nat := k.freelist.count f

theorem free_ne_zero {f : Frame} : k.free f ≠ 0 ↔ f ∈ k.freelist := by
  rw [free, ← Nat.pos_iff_ne_zero, List.count_pos_iff]

theorem free_eq_zero {f : Frame} : k.free f = 0 ↔ f ∉ k.freelist := List.count_eq_zero

theorem kalloc_eq_some (halloc : k.kalloc = some (g, k')) :
    k.freelist = g :: k'.freelist ∧ k'.mem = k.mem ∧ k'.calls = .alloc g :: k.calls := by
  unfold kalloc at halloc
  split at halloc
  · rename_i hlist
    cases halloc
    exact ⟨hlist, rfl, rfl⟩
  · cases halloc

theorem free_kalloc (halloc : k.kalloc = some (g, k')) (f : Frame) : k'.free f + one g f = k.free f := by
  rw [free, free, (kalloc_eq_some halloc).1, List.count_cons]
  simp only [one, beq_iff_eq]

@[simp] theorem free_memset (k : Kmem) (g : Frame) (c : UInt8) (f : Frame) :
    (k.memset g c).free f = k.free f := rfl

@[simp] theorem free_kfree (k : Kmem) (g f : Frame) : (k.kfree g).free f = k.free f + one g f := by
  simp only [free, kfree, memset, List.count_cons, one, beq_iff_eq]

/-! ### Bytes -/

/-- Only pages that were free are written, and no other becomes free. -/
structure Spares (k k' : Kmem) : Prop where
  mem : ∀ f, f ∉ k.freelist → k'.mem f = k.mem f
  free : ∀ f, f ∉ k.freelist → f ∉ k'.freelist
  nodup : k.freelist.Nodup → k'.freelist.Nodup

theorem Spares.refl (k : Kmem) : k.Spares k := ⟨fun _ _ => rfl, fun _ h => h, id⟩

theorem Spares.trans (h : k.Spares k') (h' : k'.Spares k'') : k.Spares k'' where
  mem f hf := (h'.mem f (h.free f hf)).trans (h.mem f hf)
  free f hf := h'.free f (h.free f hf)
  nodup hk := h'.nodup (h.nodup hk)

theorem spares_refused (k : Kmem) : k.Spares k.refused := ⟨fun _ _ => rfl, fun _ h => h, id⟩

theorem spares_kalloc (halloc : k.kalloc = some (g, k')) (x : Nat → UInt8) :
    k.Spares { k' with mem := update k'.mem g x } := by
  obtain ⟨hlist, hmem, -⟩ := kalloc_eq_some halloc
  constructor
  · intro f hf
    rw [hlist, List.mem_cons, not_or] at hf
    exact (update_of_ne hf.1 ..).trans (congrFun hmem f)
  · intro f hf
    rw [hlist, List.mem_cons, not_or] at hf
    exact hf.2
  · intro hk
    rw [hlist, List.nodup_cons] at hk
    exact hk.2

theorem mem_freelist_of_kalloc (halloc : k.kalloc = some (g, k')) : g ∈ k.freelist := by
  rw [(kalloc_eq_some halloc).1]
  exact List.mem_cons_self

theorem notMem_of_kalloc (halloc : k.kalloc = some (g, k')) (hk : k.freelist.Nodup) : g ∉ k'.freelist := by
  rw [(kalloc_eq_some halloc).1, List.nodup_cons] at hk
  exact hk.1

end Kmem

/-! ### Who holds what -/

/-- The calls were in order, a page that is held is out, and a page that is free is not. -/
structure Book (held : Frame → Nat) (k : Kmem) : Prop where
  legal : Legal k.calls
  once : ∀ f, held f + k.free f ≤ 1
  out : ∀ f, held f ≠ 0 → Out f k.calls
  back : ∀ f, k.free f ≠ 0 → ¬ Out f k.calls

namespace Book

variable {held : Frame → Nat} {k k' : Kmem} {g : Frame}

theorem kalloc (hk : Book held k) (halloc : k.kalloc = some (g, k')) : Book (one g + held) k' := by
  obtain ⟨-, -, hcalls⟩ := Kmem.kalloc_eq_some halloc
  have hfree : k.free g ≠ 0 := Kmem.free_ne_zero.mpr (Kmem.mem_freelist_of_kalloc halloc)
  have hcount := Kmem.free_kalloc halloc
  constructor
  · rw [hcalls]
    exact ⟨hk.back g hfree, hk.legal⟩
  · intro f
    have := hk.once f
    have := hcount f
    rw [Pi.add_apply]
    omega
  · intro f hf
    rw [hcalls]
    by_cases hfg : g = f
    · exact .inl hfg
    · rw [Pi.add_apply, one_of_ne hfg, Nat.zero_add] at hf
      exact .inr (hk.out f hf)
  · intro f hf
    rw [hcalls]
    have hold : k.free f ≠ 0 := by
      have := hcount f
      omega
    rintro (rfl | hout)
    · have := hcount g
      have := hk.once g
      rw [one_self] at *
      omega
    · exact hk.back f hold hout

theorem kfree (hk : Book (one g + held) k) : Book held (k.kfree g) := by
  have hg : 1 + held g + k.free g ≤ 1 := by
    have := hk.once g
    rwa [Pi.add_apply, one_self] at this
  constructor
  · refine ⟨hk.out g ?_, hk.legal⟩
    rw [Pi.add_apply, one_self]
    omega
  · intro f
    have := hk.once f
    rw [Pi.add_apply] at this
    rw [Kmem.free_kfree]
    omega
  · intro f hf
    have hne : g ≠ f := by
      rintro rfl
      omega
    refine ⟨hne, hk.out f ?_⟩
    rwa [Pi.add_apply, one_of_ne hne, Nat.zero_add]
  · rintro f hf ⟨hne, hout⟩
    rw [Kmem.free_kfree, one_of_ne hne, Nat.add_zero] at hf
    exact hk.back f hf hout

theorem congr (hk : Book held k) (hlist : k'.freelist = k.freelist) (hcalls : k'.calls = k.calls) :
    Book held k' := by
  have hfree : k'.free = k.free := by
    funext f
    rw [Kmem.free, Kmem.free, hlist]
  constructor
  · exact hcalls ▸ hk.legal
  · exact hfree ▸ hk.once
  · exact hcalls ▸ hk.out
  · rw [hfree, hcalls]
    exact hk.back

theorem start {k : Kmem} (hnodup : k.freelist.Nodup) (hcalls : k.calls = []) : Book (0 + 0) k where
  legal := hcalls ▸ trivial
  once f := by
    rw [Pi.add_apply, Pi.zero_apply, Nat.zero_add, Nat.zero_add]
    exact List.nodup_iff_count_le_one.mp hnodup f
  out f hf := absurd rfl hf
  back f _ hout := by
    rw [hcalls] at hout
    exact hout

end Book

/-- From `held` and `k` to `held'` and `k'` no page gets lost or appears, the book stays in order,
whatever else is held, and pages that are neither held nor free are left alone. -/
structure Keeps (held : Frame → Nat) (k : Kmem) (held' : Frame → Nat) (k' : Kmem) : Prop where
  count : ∀ f, held' f + k'.free f = held f + k.free f
  book : ∀ rest, Book (rest + held) k → Book (rest + held') k'
  mem : ∀ f, held f + k.free f = 0 → k'.mem f = k.mem f

namespace Keeps

variable {held held' held'' : Frame → Nat} {k k' k'' : Kmem} {g : Frame}

theorem refl (held : Frame → Nat) (k : Kmem) : Keeps held k held k :=
  ⟨fun _ => rfl, fun _ h => h, fun _ _ => rfl⟩

theorem trans (h : Keeps held k held' k') (h' : Keeps held' k' held'' k'') :
    Keeps held k held'' k'' :=
  ⟨fun f => (h'.count f).trans (h.count f), fun rest hk => h'.book rest (h.book rest hk),
    fun f hf => (h'.mem f ((h.count f).trans hf)).trans (h.mem f hf)⟩

theorem frame (h : Keeps held k held' k') (more : Frame → Nat) :
    Keeps (more + held) k (more + held') k' := by
  refine ⟨fun f => ?_, fun rest hk => ?_, fun f hf => h.mem f ?_⟩
  · have := h.count f
    simp only [Pi.add_apply]
    omega
  · rw [← add_assoc] at hk ⊢
    exact h.book _ hk
  · rw [Pi.add_apply] at hf
    omega

theorem kalloc (halloc : k.kalloc = some (g, k')) : Keeps held k (one g + held) k' := by
  refine ⟨fun f => ?_, fun rest hk => ?_, fun f _ => ?_⟩
  · have := Kmem.free_kalloc halloc f
    rw [Pi.add_apply]
    omega
  · rw [add_left_comm]
    exact hk.kalloc halloc
  · rw [(Kmem.kalloc_eq_some halloc).2.1]

theorem kfree (held : Frame → Nat) (k : Kmem) (g : Frame) : Keeps (one g + held) k held (k.kfree g) := by
  refine ⟨fun f => ?_, fun rest hk => ?_, fun f hf => ?_⟩
  · rw [Kmem.free_kfree, Pi.add_apply]
    omega
  · rw [add_left_comm] at hk
    exact hk.kfree
  · rw [Pi.add_apply] at hf
    have hne : f ≠ g := fun h => one_ne_zero.mpr h (by omega)
    exact update_of_ne hne ..

theorem write (hlist : k'.freelist = k.freelist) (hcalls : k'.calls = k.calls)
    (hmem : ∀ f, held f = 0 → k'.mem f = k.mem f) : Keeps held k held k' := by
  refine ⟨fun f => ?_, fun rest hk => hk.congr hlist hcalls, fun f hf => hmem f (by omega)⟩
  rw [Kmem.free, Kmem.free, hlist]

theorem of_eq (hheld : held' = held) : Keeps held k held' k := hheld ▸ refl held k

theorem refused (held : Frame → Nat) (k : Kmem) : Keeps held k held k.refused :=
  write rfl rfl fun _ _ => rfl

theorem memset (hg : held g ≠ 0) (k : Kmem) (c : UInt8) : Keeps held k held (k.memset g c) :=
  write rfl rfl fun x hx => update_of_ne (fun h : x = g => hg (h ▸ hx)) ..

theorem memmove (hg : held g ≠ 0) (k : Kmem) (f : Frame) : Keeps held k held (k.memmove g f) :=
  write rfl rfl fun x hx => update_of_ne (fun h : x = g => hg (h ▸ hx)) ..

theorem perm (hkeep : Keeps 0 k 0 k') : k'.freelist.Perm k.freelist :=
  List.perm_iff_count.mpr fun f => by
    have hcount := hkeep.count f
    rwa [Pi.zero_apply, Nat.zero_add, Nat.zero_add] at hcount

theorem not_perm (hkeep : Keeps 0 k (one g) k') : ¬ k'.freelist.Perm k.freelist := fun hperm => by
  have hcount := hkeep.count g
  rw [one_self, Pi.zero_apply, Kmem.free, hperm.count_eq g, Kmem.free] at hcount
  omega

end Keeps

end Xv6.Vm
