import Mathlib.Logic.Function.Basic

/-!
# No lost wakeup

A process that waits does so with a reason, or another process has ended the reason and still owes the
wakeup. The rules are for one process that moves, where waiting and owing are properties of a process's
position.
-/

namespace Xv6

variable {ι : Type}

/-- Whoever waits has the reason to wait, or somebody owes a wakeup. -/
def Answered (W : ι → Prop) (reason : Prop) (O : ι → Prop) : Prop := ∀ q, W q → reason ∨ ∃ r, O r

namespace Answered

variable {W W' O O' : ι → Prop} {reason reason' : Prop}

theorem nobody (hnone : ∀ q, ¬ W q) : Answered W reason O := fun q hq => absurd hq (hnone q)

variable [DecidableEq ι] {α : Type} {T : ι → α} {V D : α → Prop} {p : ι} {x : α}

/-- A process moves. It begins to wait only with reason; if it ends the reason it owes a wakeup
afterwards; and it may forget what it owes only if there is a reason again. -/
theorem update (h : Answered (fun q => V (T q)) reason fun q => D (T q))
    (hwait : V x → V (T p) ∨ reason') (hreason : reason → reason' ∨ D x) (howes : D (T p) → reason' ∨ D x) :
    Answered (fun q => V (Function.update T p x q)) reason' fun q => D (Function.update T p x q) := by
  have hp : D x → ∃ r, D (Function.update T p x r) := fun hx => ⟨p, by rwa [Function.update_self]⟩
  have hold : ∀ q, V (T q) → reason' ∨ ∃ r, D (Function.update T p x r) := by
    intro q hq
    rcases h q hq with hr | ⟨r, hr⟩
    · exact (hreason hr).imp_right hp
    · by_cases hrp : r = p
      · rw [hrp] at hr
        exact (howes hr).imp_right hp
      · exact Or.inr ⟨r, by rwa [Function.update_of_ne hrp]⟩
  intro q hq
  by_cases hqp : q = p
  · rw [hqp, Function.update_self] at hq
    rcases hwait hq with hwaits | hr
    · exact hold p hwaits
    · exact Or.inl hr
  · rw [Function.update_of_ne hqp] at hq
    exact hold q hq

/-- A process moves and leaves the reason as it is. It may forget what it owes if nobody waits. -/
theorem move (h : Answered (fun q => V (T q)) reason fun q => D (T q))
    (hwait : V x → V (T p) ∨ reason) (howes : D (T p) → D x ∨ ∀ q, ¬ V (T q)) :
    Answered (fun q => V (Function.update T p x q)) reason fun q => D (Function.update T p x q) := by
  by_cases hnone : ∀ q, ¬ V (T q)
  · intro q hq
    by_cases hqp : q = p
    · rw [hqp, Function.update_self] at hq
      exact Or.inl ((hwait hq).resolve_left (hnone p))
    · rw [Function.update_of_ne hqp] at hq
      exact absurd hq (hnone q)
  · exact h.update hwait Or.inl fun hp => Or.inr ((howes hp).resolve_right hnone)

end Answered

end Xv6
