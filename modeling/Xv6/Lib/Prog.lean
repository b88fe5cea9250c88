import Mathlib.Logic.Function.Basic
import Mathlib.Tactic.Common
import Mathlib.Algebra.Order.Ring.Int

/-!
# Programs over atomic operations

A kernel path is a tree of atomic operations: each node performs one operation and continues with
its result. The tree says nothing about what an operation does. A sequential semantics runs it
against one state (`Prog.run`), and `Xv6.Lib.Pool` interleaves many of them over a shared one.
-/

namespace Xv6

/-- A program that performs operations of `Op`, the answer to `o` being of type `Res o`. -/
inductive Prog (Op : Type) (Res : Op → Type) (α : Type) : Type where
  | pure (a : α)
  | op (o : Op) (next : Res o → Prog Op Res α)

namespace Prog

variable {Op : Type} {Res : Op → Type} {α β : Type}

def bind : Prog Op Res α → (α → Prog Op Res β) → Prog Op Res β
  | .pure a, f => f a
  | .op o next, f => .op o fun r => (next r).bind f

instance : Monad (Prog Op Res) where
  pure := .pure
  bind := .bind

def perform (o : Op) : Prog Op Res (Res o) := .op o .pure

def forFin (n : Nat) (body : Fin n → Prog Op Res Unit) : Prog Op Res Unit :=
  match n with
  | 0 => .pure ()
  | n + 1 => (body 0).bind fun _ => forFin n fun i => body i.succ

def nextOp : Prog Op Res α → Option Op
  | .pure _ => none
  | .op o _ => some o

@[simp]
theorem op_bind (o : Op) (next : Res o → Prog Op Res α) (f : α → Prog Op Res β) :
    (.op o next >>= f) = .op o fun r => next r >>= f := rfl

end Prog

/-! ### Running one program alone -/

/-- How a program that runs alone ends: with its result, or at an operation that has no step. -/
inductive Outcome (Op σ α : Type) where
  | done (a : α) (s : σ)
  | halted (o : Op) (s : σ)

def Outcome.haltedAt {Op σ α : Type} : Outcome Op σ α → Option Op
  | .done _ _ => none
  | .halted o _ => some o

theorem Outcome.haltedAt_eq_some {Op σ α : Type} {out : Outcome Op σ α} {o : Op} :
    out.haltedAt = some o ↔ ∃ s, out = .halted o s := by
  cases out with
  | done a s => exact ⟨nofun, nofun⟩
  | halted o' s =>
    simp only [haltedAt, Option.some.injEq, halted.injEq]
    exact ⟨fun ho => ⟨s, ho, rfl⟩, fun ⟨_, ho, _⟩ => ho⟩

/-- An executable semantics: `none` when the operation has no step in that state. -/
abbrev Exec (Op : Type) (Res : Op → Type) (σ : Type) := (o : Op) → σ → Option (Res o × σ)

namespace Prog

variable {Op : Type} {Res : Op → Type} {α β σ : Type}

def run (exec : Exec Op Res σ) : Prog Op Res α → σ → Outcome Op σ α
  | .pure a, s => .done a s
  | .op o next, s =>
    match exec o s with
    | some (r, s') => (next r).run exec s'
    | none => .halted o s

/-- Weakest precondition: every completed run ends in `post`, every halted one in `stop`. -/
def wp (exec : Exec Op Res σ) (stop : Op → σ → Prop) (x : Prog Op Res α)
    (post : α → σ → Prop) (s : σ) : Prop :=
  match x.run exec s with
  | .done a s' => post a s'
  | .halted o s' => stop o s'

section Rules

variable {exec : Exec Op Res σ} {stop : Op → σ → Prop}

theorem wp_op (o : Op) (next : Res o → Prog Op Res α) (post : α → σ → Prop) (s : σ) :
    (Prog.op o next).wp exec stop post s ↔
      match exec o s with
      | some (r, s') => (next r).wp exec stop post s'
      | none => stop o s := by
  simp only [wp, run]
  cases exec o s with
  | none => rfl
  | some p => rfl

theorem wp_bind (x : Prog Op Res α) (f : α → Prog Op Res β) (post : β → σ → Prop) (s : σ) :
    (x >>= f).wp exec stop post s ↔ x.wp exec stop (fun a s' => (f a).wp exec stop post s') s := by
  induction x generalizing s with
  | pure a => rfl
  | op o next ih =>
    rw [op_bind, wp_op, wp_op]
    cases exec o s with
    | none => rfl
    | some p => exact ih p.1 p.2

variable {x : Prog Op Res α} {post : α → σ → Prop} {s : σ}

theorem wp_mono {post' : α → σ → Prop}
    (hx : x.wp exec stop post s) (hpost : ∀ a s', post a s' → post' a s') :
    x.wp exec stop post' s := by
  unfold wp at hx ⊢
  cases hrun : x.run exec s with
  | done a s' =>
    rw [hrun] at hx
    exact hpost a s' hx
  | halted o s' =>
    rw [hrun] at hx
    exact hx

theorem wp_seq {f : α → Prog Op Res β} {mid : α → σ → Prop} {post : β → σ → Prop}
    (hx : x.wp exec stop mid s) (hf : ∀ a s', mid a s' → (f a).wp exec stop post s') :
    (x >>= f).wp exec stop post s :=
  (wp_bind x f post s).mpr (wp_mono hx hf)

theorem wp_step (o : Op) (r : Res o × σ) {f : Res o → Prog Op Res α}
    (hexec : exec o s = some r) (hf : (f r.1).wp exec stop post r.2) :
    (perform o >>= f).wp exec stop post s := by
  refine (wp_op o f post s).mpr ?_
  rw [hexec]
  exact hf

theorem wp_done {s' : σ} {a : α}
    (hx : x.wp exec stop post s) (hrun : x.run exec s = .done a s') : post a s' := by
  unfold wp at hx
  rwa [hrun] at hx

theorem wp_halted {s' : σ} {o : Op}
    (hx : x.wp exec stop post s) (hrun : x.run exec s = .halted o s') : stop o s' := by
  unfold wp at hx
  rwa [hrun] at hx

end Rules

inductive Visits (exec : Exec Op Res σ) : Prog Op Res α → σ → Op → σ → Prop
  | here {o : Op} {next : Res o → Prog Op Res α} {s : σ} : Visits exec (.op o next) s o s
  | later {o o' : Op} {next : Res o → Prog Op Res α} {s s' s'' : σ} {r : Res o}
      (hexec : exec o s = some (r, s')) (hnext : Visits exec (next r) s' o' s'') :
      Visits exec (.op o next) s o' s''

theorem visits_of_halted {exec : Exec Op Res σ} {x : Prog Op Res α} {s s' : σ} {o : Op}
    (hrun : x.run exec s = .halted o s') : x.Visits exec s o s' := by
  induction x generalizing s with
  | pure a => cases hrun
  | op o' next ih =>
    rw [run] at hrun
    cases hexec : exec o' s with
    | none =>
      rw [hexec] at hrun
      cases hrun
      exact .here
    | some rs =>
      rw [hexec] at hrun
      exact .later hexec (ih rs.1 hrun)

end Prog

/-! ### Running under a condition on every step -/

section Guard

variable {Op : Type} {Res : Op → Type} {α σ : Type}

def Exec.guard (exec : Exec Op Res σ) (G : Op → σ → Prop) [∀ o s, Decidable (G o s)] :
    Exec Op Res σ := fun o s => if G o s then exec o s else none

variable {exec : Exec Op Res σ} {G : Op → σ → Prop} [∀ o s, Decidable (G o s)] {stop : Op → σ → Prop}

theorem Prog.wp_guard {o : Op} {next : Res o → Prog Op Res α} {post : α → σ → Prop} {s : σ}
    (hstop : stop o s) (hnext : ∀ r s', exec o s = some (r, s') → G o s →
      (next r).wp (Exec.guard exec G) stop post s') :
    (Prog.op o next).wp (Exec.guard exec G) stop post s := by
  rw [Prog.wp_op]
  unfold Exec.guard
  by_cases hG : G o s
  · rw [if_pos hG]
    cases hexec : exec o s with
    | none => exact hstop
    | some rs => exact hnext rs.1 rs.2 hexec hG
  · rw [if_neg hG]
    exact hstop

theorem Prog.Visits.of_guard {x : Prog Op Res α} {s s' : σ} {o : Op}
    (hvisit : x.Visits (Exec.guard exec G) s o s') : x.Visits exec s o s' := by
  induction hvisit with
  | here => exact .here
  | later hexec _ ih =>
    unfold Exec.guard at hexec
    split_ifs at hexec
    exact .later hexec ih

theorem Exec.guard_true [∀ o s, Decidable ((fun (_ : Op) (_ : σ) => True) o s)] :
    Exec.guard exec (fun _ _ => True) = exec := by
  funext o s
  exact if_pos trivial

end Guard

end Xv6
