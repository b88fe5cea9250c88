import Mathlib.Algebra.Order.BigOperators.Group.Finset
import Mathlib.Data.Fintype.BigOperators
import Mathlib.Algebra.Order.Ring.Int

/-!
# Counting over all processes

A reference count is a sum over processes. When one of them changes its local state, the sum changes
by the difference of its own terms.
-/

namespace Xv6

theorem update_add_count {κ : Type} [DecidableEq κ] (ref : κ → Nat) (m : Multiset κ) (k i : κ) :
    Function.update ref k (ref k + 1) i + m.count i = ref i + (k ::ₘ m).count i := by
  by_cases hi : i = k
  · subst hi
    rw [Function.update_self, Multiset.count_cons_self]
    omega
  · rw [Function.update_of_ne hi, Multiset.count_cons_of_ne hi]

theorem update_sub_count {κ : Type} [DecidableEq κ] {ref : κ → Nat} {k : κ} (hpos : 0 < ref k)
    (m : Multiset κ) (i : κ) :
    Function.update ref k (ref k - 1) i + (k ::ₘ m).count i = ref i + m.count i := by
  by_cases hi : i = k
  · subst hi
    rw [Function.update_self, Multiset.count_cons_self]
    omega
  · rw [Function.update_of_ne hi, Multiset.count_cons_of_ne hi]

variable {ι α : Type} [Fintype ι]

theorem le_sum (g : ι → Nat) (p : ι) : g p ≤ ∑ q, g q :=
  Finset.single_le_sum (fun _ _ => Nat.zero_le _) (Finset.mem_univ p)

variable [DecidableEq ι]

theorem sum_add_of_eq_except_of_mem {κ : Type} [DecidableEq κ] {s : Finset κ} {g h : κ → Nat} {p : κ}
    (hp : p ∈ s) (heq : ∀ q, q ≠ p → g q = h q) : ∑ q ∈ s, g q + h p = ∑ q ∈ s, h q + g p := by
  have hrest : ∑ q ∈ s.erase p, g q = ∑ q ∈ s.erase p, h q :=
    Finset.sum_congr rfl fun q hq => heq q (Finset.ne_of_mem_erase hq)
  have hg := Finset.add_sum_erase s g hp
  have hh := Finset.add_sum_erase s h hp
  omega

theorem sum_add_of_eq_except {g h : ι → Nat} {p : ι} (heq : ∀ q, q ≠ p → g q = h q) :
    ∑ q, g q + h p = ∑ q, h q + g p :=
  sum_add_of_eq_except_of_mem (Finset.mem_univ p) heq

theorem sum_update_add_of_mem {κ : Type} [DecidableEq κ] {s : Finset κ} {p : κ} (hp : p ∈ s)
    (g : κ → α → Nat) (T : κ → α) (x : α) :
    ∑ q ∈ s, g q (Function.update T p x q) + g p (T p) = ∑ q ∈ s, g q (T q) + g p x := by
  have hsum := sum_add_of_eq_except_of_mem (g := fun q => g q (Function.update T p x q)) hp fun q hq =>
    congrArg (g q) (Function.update_of_ne hq x T)
  rwa [Function.update_self] at hsum

theorem sum_update_add (g : α → Nat) (T : ι → α) (p : ι) (x : α) :
    ∑ q, g (Function.update T p x q) + g (T p) = ∑ q, g (T q) + g x :=
  sum_update_add_of_mem (Finset.mem_univ p) (fun _ => g) T x

theorem add_le_sum (g : ι → Nat) {p q : ι} (hne : p ≠ q) : g p + g q ≤ ∑ r, g r := by
  rw [← Finset.add_sum_erase Finset.univ g (Finset.mem_univ p)]
  refine Nat.add_le_add_left ?_ _
  exact Finset.single_le_sum (f := g) (fun _ _ => Nat.zero_le _)
    (Finset.mem_erase.mpr ⟨hne.symm, Finset.mem_univ q⟩)

theorem countP_eq_card {α : Type} (p : α → Bool) (l : List α) :
    l.countP p = ((Finset.range l.length).filter fun k => l[k]?.any p).card := by
  induction l using List.reverseRecOn with
  | nil => simp
  | append_singleton l a ih =>
    have hold : ((Finset.range l.length).filter fun k => (l ++ [a])[k]?.any p)
        = (Finset.range l.length).filter fun k => l[k]?.any p := by
      refine Finset.filter_congr fun k hk => ?_
      rw [List.getElem?_append_left (Finset.mem_range.mp hk)]
    have hlast : (l ++ [a])[l.length]?.any p = p a := by simp
    rw [List.countP_append, List.length_append, List.length_singleton, Finset.range_add_one,
      Finset.filter_insert, hold, hlast, List.countP_singleton, ih]
    by_cases ha : p a
    · rw [if_pos ha, if_pos ha, Finset.card_insert_of_notMem (by simp)]
    · rw [if_neg ha, if_neg ha, Nat.add_zero]

end Xv6
