import Mathlib.Data.Finset.Card
import Mathlib.Data.Set.Finite.Basic
import Mathlib.Logic.Relation
import Mathlib.Tactic.SplitIfs

/-!
# Graphs of named edges

A finite set of edges `(d, x, i)`: node `d` names node `i` by `x`. The two degrees that link counts
are made of, how they change with one edge, and the fact that makes such a graph a tree: where every
node has at most one predecessor and the root has none, nothing reachable from the root lies on a
cycle.
-/

namespace Xv6

abbrev Edges (ν κ : Type) := Finset (ν × κ × ν)

namespace Edges

variable {ν κ : Type} [DecidableEq ν] [DecidableEq κ] {E : Edges ν κ} {d i : ν} {x : κ}
  {P : ν → Prop} [DecidablePred P]

def indegree (E : Edges ν κ) (i : ν) : Nat := (E.filter fun e => e.2.2 = i).card

def outdegree (E : Edges ν κ) (P : ν → Prop) [DecidablePred P] (d : ν) : Nat :=
  (E.filter fun e => e.1 = d ∧ P e.2.2).card

omit [DecidableEq κ] in
theorem indegree_eq_zero_iff : E.indegree i = 0 ↔ ∀ d x, (d, x, i) ∉ E := by
  rw [indegree, Finset.card_eq_zero, Finset.filter_eq_empty_iff]
  constructor
  · intro h d x hmem
    exact h hmem rfl
  · rintro h ⟨d, x, j⟩ hmem rfl
    exact h d x hmem

omit [DecidableEq κ] in
theorem indegree_pos_iff : 0 < E.indegree i ↔ ∃ d x, (d, x, i) ∈ E := by
  rw [Nat.pos_iff_ne_zero, ne_eq, indegree_eq_zero_iff]
  push Not
  rfl

omit [DecidableEq κ] in
theorem outdegree_eq_zero_iff : E.outdegree P d = 0 ↔ ∀ x i, (d, x, i) ∈ E → ¬ P i := by
  rw [outdegree, Finset.card_eq_zero, Finset.filter_eq_empty_iff]
  constructor
  · intro h x i hmem hP
    exact h hmem ⟨rfl, hP⟩
  · rintro h ⟨e, x, j⟩ hmem ⟨rfl, hP⟩
    exact h x j hmem hP

omit [DecidableEq κ] in
theorem outdegree_congr {Q : ν → Prop} [DecidablePred Q]
    (hPQ : ∀ x i, (d, x, i) ∈ E → (P i ↔ Q i)) : E.outdegree P d = E.outdegree Q d := by
  unfold outdegree
  congr 1
  refine Finset.filter_congr ?_
  rintro ⟨e, x, j⟩ hmem
  constructor
  · rintro ⟨rfl, hP⟩
    exact ⟨rfl, (hPQ x j hmem).mp hP⟩
  · rintro ⟨rfl, hQ⟩
    exact ⟨rfl, (hPQ x j hmem).mpr hQ⟩

theorem indegree_insert (hnew : (d, x, i) ∉ E) (j : ν) :
    indegree (insert (d, x, i) E) j = E.indegree j + if i = j then 1 else 0 := by
  unfold indegree
  rw [Finset.filter_insert]
  by_cases hij : i = j
  · simp only [hij, if_true]
    rw [Finset.card_insert_of_notMem]
    intro hmem
    rw [hij] at hnew
    exact hnew (Finset.mem_filter.mp hmem).1
  · simp [hij]

theorem outdegree_insert (hnew : (d, x, i) ∉ E) (e : ν) :
    outdegree (insert (d, x, i) E) P e = E.outdegree P e + if d = e ∧ P i then 1 else 0 := by
  unfold outdegree
  rw [Finset.filter_insert]
  by_cases hde : d = e ∧ P i
  · simp only [hde, and_self, if_true]
    rw [Finset.card_insert_of_notMem]
    intro hmem
    rw [hde.1] at hnew
    exact hnew (Finset.mem_filter.mp hmem).1
  · simp [hde]

theorem indegree_erase (hmem : (d, x, i) ∈ E) (j : ν) :
    indegree (E.erase (d, x, i)) j + (if i = j then 1 else 0) = E.indegree j := by
  have hinsert := indegree_insert (E := E.erase (d, x, i)) (Finset.notMem_erase _ _) j
  rw [Finset.insert_erase hmem] at hinsert
  exact hinsert.symm

theorem outdegree_erase (hmem : (d, x, i) ∈ E) (e : ν) :
    outdegree (E.erase (d, x, i)) P e + (if d = e ∧ P i then 1 else 0) = E.outdegree P e := by
  have hinsert := outdegree_insert (P := P) (E := E.erase (d, x, i)) (Finset.notMem_erase _ _) e
  rw [Finset.insert_erase hmem] at hinsert
  exact hinsert.symm

def without (E : Edges ν κ) (d : ν) : Edges ν κ := E.filter fun e => e.1 ≠ d

omit [DecidableEq κ] in
@[simp]
theorem mem_without {e : ν} {j : ν} : (e, x, j) ∈ E.without d ↔ (e, x, j) ∈ E ∧ e ≠ d :=
  Finset.mem_filter

omit [DecidableEq κ] in
theorem indegree_without_le (j : ν) : (E.without d).indegree j ≤ E.indegree j :=
  Finset.card_le_card (Finset.filter_subset_filter _ (Finset.filter_subset _ _))

omit [DecidableEq κ] in
theorem outdegree_without_le (e : ν) : (E.without d).outdegree P e ≤ E.outdegree P e :=
  Finset.card_le_card (Finset.filter_subset_filter _ (Finset.filter_subset _ _))

omit [DecidableEq κ] in
theorem without_eq_self (hnone : ∀ x i, (d, x, i) ∉ E) : E.without d = E := by
  refine Finset.filter_true_of_mem ?_
  rintro ⟨e, x, i⟩ hmem rfl
  exact hnone x i hmem

end Edges

/-! ### Reachability from a root -/

section Reachable

open Relation

variable {α : Type} {r : α → α → Prop} {root d : α}

/-- With at most one predecessor each, and none for the root, what the root reaches is acyclic. -/
theorem not_transGen_self (huniq : ∀ a b c, r a c → r b c → a = b) (hroot : ∀ a, ¬ r a root)
    (hreach : ReflTransGen r root d) : ¬ TransGen r d d := by
  induction hreach with
  | refl =>
    intro hcycle
    obtain ⟨b, -, hb⟩ := TransGen.tail'_iff.mp hcycle
    exact hroot b hb
  | @tail b c _ hbc ih =>
    intro hcycle
    obtain ⟨b', hcb, hb'⟩ := TransGen.tail'_iff.mp hcycle
    obtain rfl := huniq _ _ _ hbc hb'
    exact ih (TransGen.head'_iff.mpr ⟨c, hbc, hcb⟩)

end Reachable

end Xv6
