import Mathlib.Logic.Function.Basic
import Mathlib.Tactic.Common
import Mathlib.Algebra.Order.Ring.Int

/-!
# Ownership of numbered blocks

Places hold block numbers, zero for none. Ownership says that the blocks in use are those that some
place holds, and that no two places hold the same one; taking an unused block into an empty place and
giving back the block of a place keep it.
-/

namespace Xv6

open Function (update update_self update_of_ne)

structure Owns {Place : Type} (holds : Place → Nat) (IsData Used : Nat → Prop) : Prop where
  pos : ∀ b, IsData b → b ≠ 0
  data : ∀ x, holds x ≠ 0 → IsData (holds x)
  inj : ∀ x y, holds x ≠ 0 → holds x = holds y → x = y
  used_iff : ∀ b, IsData b → (Used b ↔ ∃ x, holds x = b)

namespace Owns

variable {Place : Type} {holds : Place → Nat} {IsData Used : Nat → Prop}

section

variable (hown : Owns holds IsData Used)
include hown

theorem used_of_holds {x : Place} (hx : holds x ≠ 0) : Used (holds x) :=
  (hown.used_iff _ (hown.data x hx)).mpr ⟨x, rfl⟩

theorem holds_ne {b : Nat} (hb : ¬ Used b) (hne : b ≠ 0) (x : Place) : holds x ≠ b := by
  rintro rfl
  exact hb (hown.used_of_holds hne)

theorem congr {holds' : Place → Nat} {Used' : Nat → Prop} (hholds : ∀ x, holds' x = holds x)
    (hused : ∀ b, IsData b → (Used' b ↔ Used b)) :
    Owns holds' IsData Used' := by
  obtain rfl : holds' = holds := funext hholds
  exact ⟨hown.pos, hown.data, hown.inj, fun b hb => (hused b hb).trans (hown.used_iff b hb)⟩

variable [DecidableEq Place]

theorem take {x : Place} {b : Nat} (hx : holds x = 0) (hdata : IsData b) (hunused : ¬ Used b) :
    Owns (update holds x b) IsData (fun c => c = b ∨ Used c) where
  pos := hown.pos
  data y hy := by
    by_cases hyx : y = x
    · subst hyx
      rwa [update_self]
    · rw [update_of_ne hyx] at hy ⊢
      exact hown.data y hy
  inj y z hy heq := by
    have hfresh := hown.holds_ne hunused (hown.pos b hdata)
    by_cases hyx : y = x
    · by_cases hzx : z = x
      · rw [hyx, hzx]
      · rw [hyx, update_self, update_of_ne hzx] at heq
        exact absurd heq.symm (hfresh z)
    · rw [update_of_ne hyx] at hy heq
      by_cases hzx : z = x
      · rw [hzx, update_self] at heq
        exact absurd heq (hfresh y)
      · rw [update_of_ne hzx] at heq
        exact hown.inj y z hy heq
  used_iff c hc := by
    constructor
    · rintro (rfl | hused)
      · exact ⟨x, update_self ..⟩
      · obtain ⟨y, rfl⟩ := (hown.used_iff c hc).mp hused
        have hyx : y ≠ x := by
          rintro rfl
          exact hown.pos _ hc hx
        exact ⟨y, update_of_ne hyx ..⟩
    · rintro ⟨y, hy⟩
      by_cases hyx : y = x
      · rw [hyx, update_self] at hy
        exact Or.inl hy.symm
      · rw [update_of_ne hyx] at hy
        exact Or.inr ((hown.used_iff c hc).mpr ⟨y, hy⟩)

theorem give {x : Place} (hx : holds x ≠ 0) :
    Owns (update holds x 0) IsData (fun c => c ≠ holds x ∧ Used c) where
  pos := hown.pos
  data y hy := by
    by_cases hyx : y = x
    · rw [hyx, update_self] at hy
      exact absurd rfl hy
    · rw [update_of_ne hyx] at hy ⊢
      exact hown.data y hy
  inj y z hy heq := by
    by_cases hyx : y = x
    · rw [hyx, update_self] at hy
      exact absurd rfl hy
    · rw [update_of_ne hyx] at hy heq
      by_cases hzx : z = x
      · rw [hzx, update_self] at heq
        exact absurd heq hy
      · rw [update_of_ne hzx] at heq
        exact hown.inj y z hy heq
  used_iff c hc := by
    constructor
    · rintro ⟨hne, hused⟩
      obtain ⟨y, rfl⟩ := (hown.used_iff c hc).mp hused
      have hyx : y ≠ x := by
        rintro rfl
        exact hne rfl
      exact ⟨y, update_of_ne hyx ..⟩
    · rintro ⟨y, hy⟩
      by_cases hyx : y = x
      · rw [hyx, update_self] at hy
        exact absurd hy.symm (hown.pos c hc)
      · rw [update_of_ne hyx] at hy
        refine ⟨?_, (hown.used_iff c hc).mpr ⟨y, hy⟩⟩
        rintro rfl
        exact hyx (hown.inj y x (hown.pos _ hc ∘ (hy ▸ ·)) hy)

end

end Owns

end Xv6
