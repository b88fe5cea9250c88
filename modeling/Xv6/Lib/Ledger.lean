import Mathlib.Algebra.BigOperators.Group.Finset.Basic
import Mathlib.Algebra.Order.BigOperators.Group.Finset
import Mathlib.Data.Set.Card

/-!
# Ledgers

Items of a pool are free or held by owners. A ledger is balanced if every item occurs, among the free
ones and in the holdings together, as often as in the pool. An exchange between the free items and one
owner keeps the balance; in a balanced ledger over a pool without repetitions every item that is not
free has one owner, and the number of free items depends on the sizes of the holdings only.
-/

namespace Xv6

structure Ledger (O α : Type) where
  free : List α
  held : O → α → Nat

namespace Ledger

variable {O α : Type} [DecidableEq α] {L L' : Ledger O α} {pool : List α}

def Balanced (L : Ledger O α) (pool : List α) : Prop :=
  ∀ a, ∃ owners : Finset O, (∀ o, o ∉ owners → L.held o a = 0) ∧
    L.free.count a + ∑ o ∈ owners, L.held o a = pool.count a

def holding (L : Ledger O α) (o : O) : Set α := {a | L.held o a ≠ 0}

namespace Balanced

theorem exchange [DecidableEq O] (hL : L.Balanced pool) (o : O)
    (hother : ∀ o', o' ≠ o → L'.held o' = L.held o')
    (hsum : ∀ a, L'.free.count a + L'.held o a = L.free.count a + L.held o a) :
    L'.Balanced pool := by
  intro a
  obtain ⟨owners, hout, hbalance⟩ := hL a
  have hinsert : ∑ o' ∈ insert o owners, L.held o' a = ∑ o' ∈ owners, L.held o' a :=
    Finset.sum_insert_of_eq_zero_if_notMem (hout o)
  have hrest : ∑ o' ∈ (insert o owners).erase o, L'.held o' a =
      ∑ o' ∈ (insert o owners).erase o, L.held o' a := by
    refine Finset.sum_congr rfl fun o' ho' => ?_
    rw [hother o' (Finset.ne_of_mem_erase ho')]
  have hsplit := Finset.add_sum_erase _ (fun o' => L.held o' a) (Finset.mem_insert_self o owners)
  have hsplit' := Finset.add_sum_erase _ (fun o' => L'.held o' a) (Finset.mem_insert_self o owners)
  refine ⟨insert o owners, ?_, ?_⟩
  · intro o' ho'
    rw [Finset.mem_insert, not_or] at ho'
    rw [hother o' ho'.1]
    exact hout o' ho'.2
  · have := hsum a
    omega

theorem update [DecidableEq O] {free free' : List α} {held : O → α → Nat}
    (hL : Balanced { free := free, held := held } pool) (o : O) (h : α → Nat)
    (hsum : ∀ a, free'.count a + h a = free.count a + held o a) :
    Balanced { free := free', held := Function.update held o h } pool := by
  refine hL.exchange o (fun o' ho' => Function.update_of_ne ho' ..) fun a => ?_
  change free'.count a + Function.update held o h o a = free.count a + held o a
  rw [Function.update_self]
  exact hsum a

variable (hL : L.Balanced pool) (hpool : pool.Nodup)
include hL

theorem mem_pool_of_free {a : α} (ha : a ∈ L.free) : a ∈ pool := by
  obtain ⟨owners, -, hbalance⟩ := hL a
  have hcount := List.count_pos_iff.mpr ha
  exact List.count_pos_iff.mp (by omega)

theorem held_le {o : O} {a : α} : L.free.count a + L.held o a ≤ pool.count a := by
  obtain ⟨owners, hout, hbalance⟩ := hL a
  by_cases ho : o ∈ owners
  · have := Finset.single_le_sum (f := fun o => L.held o a) (fun _ _ => Nat.zero_le _) ho
    omega
  · rw [hout o ho]
    omega

theorem mem_pool_of_held {o : O} {a : α} (ha : L.held o a ≠ 0) : a ∈ pool := by
  have := hL.held_le (o := o) (a := a)
  exact List.count_pos_iff.mp (by omega)

include hpool

theorem free_nodup : L.free.Nodup := by
  rw [List.nodup_iff_count_le_one] at hpool ⊢
  intro a
  obtain ⟨owners, -, hbalance⟩ := hL a
  have := hpool a
  omega

theorem held_of_free {a : α} (ha : a ∈ L.free) (o : O) : L.held o a = 0 := by
  have hfree := List.count_pos_iff.mpr ha
  have hle := hL.held_le (o := o) (a := a)
  have hone := List.nodup_iff_count_le_one.mp hpool a
  omega

theorem existsUnique_owner {a : α} (ha : a ∈ pool) (hnot : a ∉ L.free) : ∃! o, L.held o a ≠ 0 := by
  obtain ⟨owners, hout, hbalance⟩ := hL a
  rw [List.count_eq_zero_of_not_mem hnot, List.count_eq_one_of_mem hpool ha, Nat.zero_add] at hbalance
  obtain ⟨o, ho, hheld⟩ := Finset.exists_ne_zero_of_sum_ne_zero (by omega : ∑ o ∈ owners, L.held o a ≠ 0)
  refine ⟨o, hheld, fun o' hheld' => ?_⟩
  by_contra hne
  have ho' : o' ∈ owners := by
    by_contra hmem
    exact hheld' (hout o' hmem)
  classical
  have hsplit := Finset.add_sum_erase owners (fun o => L.held o a) ho
  have hle := Finset.single_le_sum (f := fun o => L.held o a) (fun _ _ => Nat.zero_le _)
    (Finset.mem_erase.mpr ⟨hne, ho'⟩)
  omega

theorem length_add_sum {T : Finset O} (hT : ∀ o a, L.held o a ≠ 0 → o ∈ T) :
    L.free.length + ∑ o ∈ T, (L.holding o).ncard = pool.length := by
  classical
  let items (o : O) : Finset α := pool.toFinset.filter fun a => L.held o a ≠ 0
  have hitems : ∀ o, (L.holding o).ncard = (items o).card := by
    intro o
    rw [← Set.ncard_coe_finset]
    congr 1
    ext a
    simp only [holding, items, Finset.coe_filter, List.mem_toFinset, Set.mem_ofPred_eq]
    exact ⟨fun h => ⟨hL.mem_pool_of_held h, h⟩, fun h => h.2⟩
  have hdisjoint : (T : Set O).PairwiseDisjoint items := by
    intro o _ o' _ hne
    rw [Function.onFun, Finset.disjoint_left]
    intro a ha ha'
    simp only [items, Finset.mem_filter, List.mem_toFinset] at ha ha'
    have hnot : a ∉ L.free := fun h => ha.2 (hL.held_of_free hpool h o)
    exact hne ((hL.existsUnique_owner hpool ha.1 hnot).unique ha.2 ha'.2)
  have howned : T.biUnion items = pool.toFinset \ L.free.toFinset := by
    ext a
    simp only [items, Finset.mem_biUnion, Finset.mem_filter, Finset.mem_sdiff, List.mem_toFinset]
    constructor
    · rintro ⟨o, -, hmem, ho⟩
      exact ⟨hmem, fun h => ho (hL.held_of_free hpool h o)⟩
    · rintro ⟨hmem, hnot⟩
      obtain ⟨o, ho, -⟩ := hL.existsUnique_owner hpool hmem hnot
      exact ⟨o, hT o a ho, hmem, ho⟩
  have hsub : L.free.toFinset ⊆ pool.toFinset := by
    intro a ha
    rw [List.mem_toFinset] at ha ⊢
    exact hL.mem_pool_of_free ha
  have hcard := Finset.card_sdiff_add_card_eq_card hsub
  rw [← howned, Finset.card_biUnion hdisjoint, List.toFinset_card_of_nodup hpool,
    List.toFinset_card_of_nodup (hL.free_nodup hpool)] at hcard
  rw [← hcard, Nat.add_comm, Finset.sum_congr rfl fun o _ => hitems o]

omit hpool in
theorem finite_owners : ∃ T : Finset O, ∀ o a, L.held o a ≠ 0 → o ∈ T := by
  classical
  have howners : ∀ a, ∃ owners : Finset O, ∀ o, L.held o a ≠ 0 → o ∈ owners := by
    intro a
    obtain ⟨owners, hout, -⟩ := hL a
    exact ⟨owners, fun o ho => by_contra fun h => ho (hout o h)⟩
  choose owners hmem using howners
  refine ⟨pool.toFinset.biUnion owners, fun o a ho => ?_⟩
  exact Finset.mem_biUnion.mpr ⟨a, List.mem_toFinset.mpr (hL.mem_pool_of_held ho), hmem a o ho⟩

theorem length_free_eq (hL' : L'.Balanced pool)
    (hsame : ∀ o, (L.holding o).ncard = (L'.holding o).ncard) : L.free.length = L'.free.length := by
  classical
  obtain ⟨T, hT⟩ := hL.finite_owners
  obtain ⟨T', hT'⟩ := hL'.finite_owners
  have hsum := hL.length_add_sum hpool (T := T ∪ T') fun o a ho =>
    Finset.mem_union_left T' (hT o a ho)
  have hsum' := hL'.length_add_sum hpool (T := T ∪ T') fun o a ho =>
    Finset.mem_union_right T (hT' o a ho)
  rw [Finset.sum_congr rfl fun o _ => hsame o] at hsum
  omega

end Balanced

end Ledger

end Xv6
