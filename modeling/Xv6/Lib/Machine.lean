import Mathlib.Data.List.Basic
import Mathlib.Algebra.Order.Ring.Int

/-!
# Machines

Runs of a partial step function whose actions meet a condition in the state before them.
-/

namespace Xv6

variable {σ α : Type}

inductive Reaches (step : σ → α → Option σ) (G : σ → α → Prop) (s₀ : σ) : σ → Prop
  | refl : Reaches step G s₀ s₀
  | step {s s' : σ} (a : α) (hbefore : Reaches step G s₀ s) (hG : G s a)
      (hstep : step s a = some s') : Reaches step G s₀ s'

def runActs (step : σ → α → Option σ) (G : σ → α → Prop) [∀ s a, Decidable (G s a)] : List α → σ → Option σ
  | [], s => some s
  | a :: acts, s => if G s a then (step s a).bind (runActs step G acts) else none

namespace Reaches

variable {step : σ → α → Option σ} {G : σ → α → Prop} {s₀ s s' : σ}

theorem invariant {I : σ → Prop} (hinit : I s₀)
    (hkeep : ∀ s a s', I s → G s a → step s a = some s' → I s') (hrun : Reaches step G s₀ s) :
    I s := by
  induction hrun with
  | refl => exact hinit
  | step a _ hG hstep ih => exact hkeep _ a _ ih hG hstep

theorem of_runActs [∀ s a, Decidable (G s a)] (acts : List α) (hbefore : Reaches step G s₀ s)
    (hrun : runActs step G acts s = some s') : Reaches step G s₀ s' := by
  induction acts generalizing s with
  | nil =>
    cases hrun
    exact hbefore
  | cons a acts ih =>
    unfold runActs at hrun
    by_cases hG : G s a
    · rw [if_pos hG] at hrun
      obtain ⟨s₁, hstep, hrest⟩ := Option.bind_eq_some_iff.mp hrun
      exact ih (.step a hbefore hG hstep) hrest
    · rw [if_neg hG] at hrun
      cases hrun

theorem of_map [∀ s a, Decidable (G s a)] {β : Type} {acts : List α} {f : σ → β} {x : β}
    (hrun : (runActs step G acts s₀).map f = some x) : ∃ s, Reaches step G s₀ s ∧ f s = x := by
  obtain ⟨s, hs, hx⟩ := Option.map_eq_some_iff.mp hrun
  exact ⟨s, .of_runActs acts .refl hs, hx⟩

end Reaches

end Xv6
