import Xv6.Sched.Model
import Xv6.Ptable.States

/-!
# One processor for a running process

Who holds `ptable.lock`, and what `c->proc` and the state of that process are at every place of the
scheduler and of a process.
-/

namespace Xv6.Sched

open Ptable (Slot ProcState)
open Ptable.State (Effect)

def ProcPc.Holds : ProcPc → Prop
  | .run | .panicked => False
  | .body _ | .swtch | .resumed | .release => True

def SchedPc.Holds : SchedPc → Prop
  | .idle => False
  | .scan _ | .chosen _ | .ran _ | .back _ | .intr _ | .intrRelease => True

def Ctx.Holds : Ctx → Prop
  | .proc _ pc => pc.Holds
  | .sched pc => pc.Holds

/-- The current process and its state, by the place of the processor. -/
def Cpu.Ok (t : Ptable.State) (x : Cpu) : Prop :=
  match x.ctx with
  | .proc p .swtch | .sched (.back p) => x.proc = some p ∧ (t.proc p).state ≠ .running
  | .proc p _ | .sched (.ran p) => x.proc = some p ∧ (t.proc p).state = .running
  | .sched (.chosen p) => x.proc = some p ∧ (t.proc p).state = .runnable
  | .sched _ => x.proc = none

namespace State

variable {n : Nat} (s : State n)

structure Inv : Prop where
  table : s.table.Inv
  lock : ∀ c, (s.cpu c).ctx.Holds ↔ s.lock = some c
  ok : ∀ c, (s.cpu c).Ok s.table
  unique : ∀ {c c' p}, (s.cpu c).proc = some p → (s.cpu c').proc = some p → c = c'
  current : ∀ {p}, (s.table.proc p).state = .running → ∃ c, (s.cpu c).proc = some p
  stack : ∀ {p q k}, s.kstack p = some k → s.kstack q = some k → p = q

variable {s}

/-! ### Processors that do not take part -/

variable {t t' : Ptable.State}

theorem ok_of_states {x : Cpu} (hx : x.Ok t) (hstates : ∀ r, x.proc = some r →
      ((t.proc r).state = .running → (t'.proc r).state = .running) ∧
      ((t.proc r).state = .runnable → (t'.proc r).state = .runnable) ∧
      ((t.proc r).state ≠ .running → (t'.proc r).state ≠ .running)) : x.Ok t' := by
  unfold Cpu.Ok at hx ⊢
  split at hx
  · exact ⟨hx.1, (hstates _ hx.1).2.2 hx.2⟩
  · exact ⟨hx.1, (hstates _ hx.1).2.2 hx.2⟩
  · exact ⟨hx.1, (hstates _ hx.1).1 hx.2⟩
  · exact ⟨hx.1, (hstates _ hx.1).1 hx.2⟩
  · exact ⟨hx.1, (hstates _ hx.1).2.1 hx.2⟩
  · exact hx

theorem ok_of_effect {x : Cpu} {p : Slot} (hx : x.Ok t)
    (heffect : Effect p t t') (hne : x.proc ≠ some p) : x.Ok t' := by
  refine ok_of_states hx fun r hr => ?_
  have hrp : r ≠ p := fun h => hne (h ▸ hr)
  rcases heffect r with h | h | ⟨h, -⟩
  · rw [h]
    exact ⟨id, id, id⟩
  · generalize (t.proc r).state = a at h
    generalize (t'.proc r).state = b at h
    cases h <;> decide
  · exact absurd h hrp

theorem running_of_effect {p q : Slot} (heffect : Effect p t t')
    (hq : (t'.proc q).state = .running) : (t.proc q).state = .running := by
  rcases heffect q with h | h | ⟨-, h⟩
  · exact h ▸ hq
  · generalize (t.proc q).state = a at h ⊢
    rw [hq] at h
    cases h
  · generalize (t.proc q).state = a at h ⊢
    rw [hq] at h
    cases h

namespace Inv

variable {c : Fin n} {l : Option (Fin n)}

theorem running_of_not_holds (hs : s.Inv) {p : Slot} (hp : (s.cpu c).proc = some p)
    (hc : s.lock ≠ some c) : (s.table.proc p).state = .running := by
  have hok := hs.ok c
  have hholds : ¬ (s.cpu c).ctx.Holds := fun h => hc ((hs.lock c).mp h)
  unfold Cpu.Ok at hok
  split at hok <;> simp_all [Ctx.Holds, ProcPc.Holds, SchedPc.Holds]

theorem update (hs : s.Inv) {x : Cpu} {t : Ptable.State} {k : Slot → Option Nat}
    (htable : t.Inv) (hother : ∀ c', c' ≠ c → (s.cpu c').Ok t) (hok : x.Ok t)
    (hhold : x.ctx.Holds ↔ l = some c) (hlock : ∀ c', c' ≠ c → (s.lock = some c' ↔ l = some c'))
    (hunique : ∀ c' p, c' ≠ c → x.proc = some p → (s.cpu c').proc ≠ some p)
    (hcurrent : ∀ p, (t.proc p).state = .running →
      x.proc = some p ∨ ∃ c', c' ≠ c ∧ (s.cpu c').proc = some p)
    (hstack : ∀ {p q i}, k p = some i → k q = some i → p = q) :
    ({ table := t, kstack := k, cpu := Function.update s.cpu c x, lock := l } : State n).Inv where
  table := htable
  lock c' := by
    by_cases hc : c' = c
    · subst hc
      simp only [Function.update_self]
      exact hhold
    · simp only [Function.update_of_ne hc]
      exact (hs.lock c').trans (hlock c' hc)
  ok c' := by
    by_cases hc : c' = c
    · subst hc
      simp only [Function.update_self]
      exact hok
    · simp only [Function.update_of_ne hc]
      exact hother c' hc
  unique {a b p} ha hb := by
    by_cases hac : a = c <;> by_cases hbc : b = c
    · rw [hac, hbc]
    · subst hac
      simp only [Function.update_self, Function.update_of_ne hbc] at ha hb
      exact absurd hb (hunique b p hbc ha)
    · subst hbc
      simp only [Function.update_self, Function.update_of_ne hac] at ha hb
      exact absurd ha (hunique a p hac hb)
    · simp only [Function.update_of_ne hac, Function.update_of_ne hbc] at ha hb
      exact hs.unique ha hb
  current {p} hp := by
    rcases hcurrent p hp with h | ⟨c', hc, h⟩
    · exact ⟨c, by simpa only [Function.update_self] using h⟩
    · exact ⟨c', by simpa only [Function.update_of_ne hc] using h⟩
  stack := hstack

theorem move (hs : s.Inv) {p : Slot} {ctx : Ctx} {t : Ptable.State}
    {k : Slot → Option Nat} (hp : (s.cpu c).proc = some p)
    (htable : t.Inv) (heffect : Effect p s.table t)
    (hok : ({ s.cpu c with ctx := ctx } : Cpu).Ok t) (hhold : ctx.Holds ↔ l = some c)
    (hlock : ∀ c', c' ≠ c → (s.lock = some c' ↔ l = some c'))
    (hstack : ∀ {p q i}, k p = some i → k q = some i → p = q) :
    ({ table := t
       kstack := k
       cpu := Function.update s.cpu c { s.cpu c with ctx := ctx }
       lock := l } : State n).Inv := by
  have hne : ∀ c', c' ≠ c → (s.cpu c').proc ≠ some p := fun c' hc h => hc (hs.unique h hp)
  refine hs.update htable (fun c' hc => ok_of_effect (hs.ok c') heffect (hne c' hc)) hok hhold hlock
    (fun c' r hc hr h => hc (hs.unique h hr)) (fun q hq => ?_) hstack
  obtain ⟨c', hc'⟩ := hs.current (running_of_effect heffect hq)
  by_cases hc : c' = c
  · subst hc
    exact .inl hc'
  · exact .inr ⟨c', hc, hc'⟩

theorem goto (hs : s.Inv) {ctx : Ctx}
    (hok : ({ s.cpu c with ctx := ctx } : Cpu).Ok s.table) (hhold : ctx.Holds ↔ l = some c)
    (hlock : ∀ c', c' ≠ c → (s.lock = some c' ↔ l = some c')) : ({ s with lock := l }.goto c ctx).Inv := by
  refine hs.update hs.table (fun c' _ => hs.ok c') hok hhold hlock
    (fun c' r hc hr h => hc (hs.unique h hr)) (fun q hq => ?_) hs.stack
  obtain ⟨c', hc'⟩ := hs.current hq
  by_cases hc : c' = c
  · subst hc
    exact .inl hc'
  · exact .inr ⟨c', hc, hc'⟩

end Inv

end State

end Xv6.Sched
