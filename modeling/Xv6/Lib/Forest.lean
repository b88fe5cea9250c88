import Mathlib.Logic.Relation

/-!
# Parent pointers

Parent pointers that lead to smaller ranks have no cycle, and lead to the only node without a parent.
-/

namespace Xv6.Forest

variable {ι : Type*} {parent : ι → Option ι} {rank : ι → Nat}

def Up (parent : ι → Option ι) (q r : ι) : Prop := parent q = some r

theorem rank_lt (hrank : ∀ q r, parent q = some r → rank r < rank q) {q r : ι}
    (hup : Relation.TransGen (Up parent) q r) : rank r < rank q := by
  induction hup with
  | single h => exact hrank _ _ h
  | tail _ h ih => exact Nat.lt_trans (hrank _ _ h) ih

theorem not_transGen_self (hrank : ∀ q r, parent q = some r → rank r < rank q) (q : ι) :
    ¬ Relation.TransGen (Up parent) q q :=
  fun hup => Nat.lt_irrefl _ (rank_lt hrank hup)

theorem reaches_root (hrank : ∀ q r, parent q = some r → rank r < rank q) {root : ι}
    {P : ι → Prop} (hin : ∀ q, P q → q ≠ root → ∃ r, parent q = some r ∧ P r) {q : ι} (hq : P q) :
    Relation.ReflTransGen (Up parent) q root := by
  induction hn : rank q using Nat.strongRecOn generalizing q with
  | ind n ih =>
    by_cases hroot : q = root
    · rw [hroot]
    · obtain ⟨r, hparent, hr⟩ := hin q hq hroot
      exact .head hparent (ih _ (hn ▸ hrank q r hparent) hr rfl)

end Xv6.Forest
