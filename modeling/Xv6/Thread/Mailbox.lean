import Xv6.Thread.Cond
import Mathlib.Data.Fintype.Basic

/-!
# The mailbox

`send` and `recv` of `extracredit1.c`. The messages are received in the order in which they are sent,
each once. But `send` waits for an empty mailbox with the mutex held, and a receiver needs the mutex to
empty it: when a `send` gets the mutex while a message is waiting, nothing moves any more.
-/

namespace Xv6.Thread.Mailbox

open Cond

abbrev Message := { x : UInt32 // x ≠ 0 }

/-- The field `ptr`, and the messages stored and taken so far, which the program does not keep. -/
structure Box where
  ptr : UInt32
  sent : List UInt32
  received : List UInt32
  deriving DecidableEq

def Box.empty : Box := { ptr := 0, sent := [], received := [] }

inductive Call where
  | send (p : Message)
  | recv
  deriving DecidableEq

inductive Stmt where
  /-- `while (q->ptr != 0)` -/
  | sendTest (p : Message)
  /-- `q->ptr = p` -/
  | sendStore (p : Message)
  | sendSignal
  | sendUnlock
  /-- `while ((p = q->ptr) == 0)` -/
  | recvTest
  /-- `q->ptr = 0` -/
  | recvClear (p : UInt32)
  | recvUnlock
  deriving DecidableEq

def mailbox : Program Call Stmt Box where
  entry
    | .send p => .sendTest p
    | .recv => .recvTest
  effect
    | .sendTest p, d => if d.ptr ≠ 0 then .goto d (.sendTest p) else .goto d (.sendStore p)
    | .sendStore p, d => .goto { d with ptr := p, sent := d.sent ++ [p.val] } .sendSignal
    | .sendSignal, _ => .signal .sendUnlock
    | .sendUnlock, _ => .unlock .ret
    | .recvTest, d => if d.ptr = 0 then .wait .recvTest else .goto d (.recvClear d.ptr)
    | .recvClear p, d => .goto { d with ptr := 0, received := d.received ++ [p] } .recvUnlock
    | .recvUnlock, _ => .unlock .ret

abbrev State (n : Nat) := Cond.State n Stmt Box

def Box.waiting (d : Box) : List UInt32 := if d.ptr = 0 then [] else [d.ptr]

/-- `empty`: a `send` gets the mutex only when the mailbox is empty. -/
def assertions (empty : Prop) : Assertions Stmt Box where
  Entry st := (∃ p, st = .sendTest p) ∨ st = .recvTest
  At
    | .sendTest _, d => empty → d.ptr = 0
    | .sendStore _, d => d.ptr = 0
    | .recvClear p, d => p = d.ptr ∧ d.ptr ≠ 0
    | _, _ => True
  Reason d := d.ptr = 0
  Owes
    | .sendSignal => True
    | _ => False
  Late := False
  Good d := d.sent = d.received ++ d.waiting

theorem mailbox_sound (empty : Prop) : mailbox.Sound (assertions empty) where
  entry c := by
    cases c with
    | send p => exact .inl ⟨p, rfl⟩
    | recv => exact .inr rfl
  goto {st d d' next} heffect hgood hat := by
    have hgood : d.sent = d.received ++ d.waiting := hgood
    cases st with
    | sendTest p =>
      change (if d.ptr ≠ 0 then _ else _) = _ at heffect
      split_ifs at heffect with hfull
      · cases heffect
        exact ⟨hgood, hat, .inl, nofun⟩
      · cases heffect
        exact ⟨hgood, not_not.mp hfull, .inl, nofun⟩
    | sendStore p =>
      cases heffect
      have hempty : d.ptr = 0 := hat
      refine ⟨?_, trivial, fun _ => .inr trivial, nofun⟩
      change d.sent ++ [p.val] = d.received ++ (if p.val = 0 then [] else [p.val])
      rw [hgood, Box.waiting, if_pos hempty, if_neg p.property, List.append_nil]
    | recvTest =>
      change (if d.ptr = 0 then _ else _) = _ at heffect
      split_ifs at heffect with hempty
      cases heffect
      exact ⟨hgood, ⟨rfl, hempty⟩, .inl, nofun⟩
    | recvClear p =>
      cases heffect
      obtain ⟨rfl, hfull⟩ : p = d.ptr ∧ d.ptr ≠ 0 := hat
      refine ⟨?_, trivial, fun hempty => absurd hempty hfull, nofun⟩
      change d.sent = d.received ++ [d.ptr] ++ []
      rw [hgood, Box.waiting, if_neg hfull, List.append_nil]
    | sendSignal | sendUnlock | recvUnlock => cases heffect
  wait {st d next} heffect _ := by
    cases st with
    | recvTest =>
      change (if d.ptr = 0 then _ else _) = _ at heffect
      split_ifs at heffect with hempty
      cases heffect
      exact ⟨hempty, fun _ => trivial, id⟩
    | sendTest p =>
      change (if d.ptr ≠ 0 then _ else _) = _ at heffect
      split_ifs at heffect
    | _ => cases heffect
  signal {st d next} heffect _ := by
    cases st with
    | sendSignal =>
      cases heffect
      trivial
    | sendTest p =>
      change (if d.ptr ≠ 0 then _ else _) = _ at heffect
      split_ifs at heffect
    | recvTest =>
      change (if d.ptr = 0 then _ else _) = _ at heffect
      split_ifs at heffect
    | _ => cases heffect
  unlock {st d exit} heffect := by
    cases st with
    | sendUnlock | recvUnlock =>
      cases heffect
      exact ⟨nofun, nofun⟩
    | sendTest p =>
      change (if d.ptr ≠ 0 then _ else _) = _ at heffect
      split_ifs at heffect
    | recvTest =>
      change (if d.ptr = 0 then _ else _) = _ at heffect
      split_ifs at heffect
    | _ => cases heffect

variable {n : Nat}

/-- If the step is a `send` that gets the mutex, the mailbox is empty. -/
def EmptyForSend (s : State n) : Act n Call → Prop
  | .call .. => True
  | .run p =>
    match (s.proc p).pc with
    | .lock (.sendTest _) => s.ml = 0 → s.data.ptr = 0
    | _ => True

instance (s : State n) (a : Act n Call) : Decidable (EmptyForSend s a) := by
  unfold EmptyForSend
  split
  · infer_instance
  · split <;> infer_instance

/-- A sender holds the mutex and waits for the mailbox to become empty. -/
def Stuck (s : State n) : Prop :=
  ∃ p message, (s.proc p).pc = .inside (.sendTest message) ∧ s.data.ptr ≠ 0

theorem inv_step {empty : Prop} {s s' : State n} {a : Act n Call} (hinv : s.Inv (assertions empty))
    (hguard : empty → EmptyForSend s a) (hstep : s.step mailbox a = some s') :
    s'.Inv (assertions empty) := by
  refine hinv.step (mailbox_sound empty) (fun p st ha hpc hentry hml => ?_) hstep
  rcases hentry with ⟨message, rfl⟩ | rfl
  · intro hempty
    have hguard := hguard hempty
    rw [ha] at hguard
    unfold EmptyForSend at hguard
    simp only [hpc] at hguard
    exact hguard hml
  · trivial

theorem inv_of_reaches {empty : Prop} {G : State n → Act n Call → Prop} {s : State n}
    (hG : empty → ∀ s a, G s a → EmptyForSend s a)
    (hrun : Reaches (Cond.State.step mailbox) G (.init .empty) s) : s.Inv (assertions empty) := by
  have hgood : (assertions empty).Good .empty := rfl
  exact hrun.invariant (Cond.State.inv_init hgood) fun s a s' hinv hguard hstep =>
    inv_step hinv (fun hempty => hG hempty s a hguard) hstep

/-- In every run in which a `send` gets the mutex only when the mailbox is empty, the messages received
are, in order, those sent, up to one that is still in the mailbox; no sender waits with the mutex held;
and no receiver sleeps while a message waits and the locks are free. -/
theorem mailbox_correct {s : State n} (hrun : Reaches (Cond.State.step mailbox) EmptyForSend (.init .empty) s) :
    s.data.sent = s.data.received ++ s.data.waiting ∧ ¬ Stuck s ∧
      (s.ml = 0 → s.ptable = none → ∀ p, s.SleepsOn p → s.data.ptr = 0) := by
  have hinv : s.Inv (assertions True) := inv_of_reaches (fun _ _ _ h => h) hrun
  refine ⟨hinv.good, ?_, fun hml hptable p hsleeps => ?_⟩
  · rintro ⟨p, message, hpc, hfull⟩
    have hat := hinv.at_pc p
    rw [hpc] at hat
    exact hfull (hat trivial)
  · exact hinv.reason_of_sleeps hml hptable nofun hsleeps

/-- A message goes from thread 0 to thread 1, which waits for it. -/
theorem mailbox_correct_handover : ∃ s : State 2,
    Reaches (Cond.State.step mailbox) EmptyForSend (.init .empty) s ∧ s.data.received = [7] ∧
      s.data.sent = [7] := by
  have hrun : (runActs (Cond.State.step mailbox) EmptyForSend
      (.call 1 .recv :: List.replicate 7 (.run 1) ++ .call 0 (.send ⟨7, by decide⟩) ::
        List.replicate 8 (.run 0) ++ List.replicate 7 (.run 1)) (.init .empty : State 2)).map
      (fun s => (s.data.ptr, s.data.received)) = some (0, [7]) := by decide +kernel
  obtain ⟨s, hreach, heq⟩ := Reaches.of_map hrun
  obtain ⟨hptr, hreceived⟩ := Prod.mk.inj heq
  refine ⟨s, hreach, hreceived, ?_⟩
  rw [(mailbox_correct hreach).1, hreceived, Box.waiting, if_pos hptr]
  rfl

/-! ### Two messages -/

theorem Stuck.step {s s' : State n} {p : Fin n} {message : Message} {a : Act n Call}
    (hinv : s.Inv (assertions False)) (hpc : (s.proc p).pc = .inside (.sendTest message))
    (hfull : s.data.ptr ≠ 0) (hstep : s.step mailbox a = some s') :
    (s'.proc p).pc = .inside (.sendTest message) ∧ s'.data = s.data := by
  by_cases ha : a = .run p
  · subst ha
    have hspin : mailbox.effect (.sendTest message) s.data = .goto s.data (.sendTest message) :=
      if_pos hfull
    change s.run mailbox p = some s' at hstep
    unfold Cond.State.run at hstep
    simp only [hpc, hspin] at hstep
    cases hstep
    refine ⟨?_, rfl⟩
    change (Function.update s.proc p _ p).pc = _
    rw [Function.update_self]
  · have hinside : s.Inside p := by
      unfold Cond.State.Inside
      rw [hpc]
      trivial
    obtain ⟨hdata, hsame⟩ := hinv.step_other hinside ha hstep
    exact ⟨hsame.trans hpc, hdata⟩

/-- Once a sender waits with the mutex held, no continuation empties the mailbox. -/
theorem Stuck.forever {s s' : State n} (hinv : s.Inv (assertions False)) (hstuck : Stuck s)
    (hrun : Reaches (Cond.State.step mailbox) (fun _ _ => True) s s') : Stuck s' ∧ s'.data = s.data := by
  obtain ⟨p, message, hpc, hfull⟩ := hstuck
  let I : State n → Prop := fun s₁ =>
    s₁.Inv (assertions False) ∧ (s₁.proc p).pc = .inside (.sendTest message) ∧ s₁.data = s.data
  have hkeep : ∀ s₁ a s₂, I s₁ → True → s₁.step mailbox a = some s₂ → I s₂ := by
    rintro s₁ a s₂ ⟨hinv₁, hpc₁, hdata₁⟩ - hstep
    obtain ⟨hpc₂, hdata₂⟩ := Stuck.step hinv₁ hpc₁ (by rwa [hdata₁]) hstep
    exact ⟨inv_step hinv₁ False.elim hstep, hpc₂, hdata₂.trans hdata₁⟩
  obtain ⟨-, hpc', hdata⟩ := hrun.invariant (I := I) ⟨hinv, hpc, rfl⟩ hkeep
  exact ⟨⟨p, message, hpc', by rwa [hdata]⟩, hdata⟩

/-- Thread 0 sends one message and thread 1 the next before the first is received: thread 1 waits with
the mutex held, and thread 2 can never receive. -/
theorem mailbox_stuck : ∃ s : State 3,
    Reaches (Cond.State.step mailbox) (fun _ _ => True) (.init .empty) s ∧ Stuck s ∧
      ∀ s', Reaches (Cond.State.step mailbox) (fun _ _ => True) s s' → Stuck s' ∧ s'.data.received = [] := by
  have hrun : (runActs (Cond.State.step mailbox) (fun _ _ => True)
      (.call 0 (.send ⟨7, by decide⟩) :: List.replicate 8 (.run 0) ++
        .call 1 (.send ⟨8, by decide⟩) :: List.replicate 1 (.run 1)) (.init .empty : State 3)).map
      (fun s => ((s.proc 1).pc, s.data))
      = some (.inside (.sendTest ⟨8, by decide⟩), { ptr := 7, sent := [7], received := [] }) := by
    decide +kernel
  obtain ⟨s, hreach, heq⟩ := Reaches.of_map hrun
  obtain ⟨hpc, hdata⟩ := Prod.mk.inj heq
  have hstuck : Stuck s := ⟨1, _, hpc, by rw [hdata]; decide⟩
  refine ⟨s, hreach, hstuck, fun s' hrun' => ?_⟩
  obtain ⟨hstuck', hsame⟩ := hstuck.forever (inv_of_reaches False.elim hreach) hrun'
  exact ⟨hstuck', by rw [hsame, hdata]⟩

end Xv6.Thread.Mailbox
