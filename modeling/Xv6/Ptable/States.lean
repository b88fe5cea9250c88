import Xv6.Ptable.Inv

/-!
# How states change

A step of a process takes that process out of `RUNNING` at most, and moves every other entry along an
arrow that does not touch `RUNNING`.
-/

namespace Xv6.Ptable

inductive Given : ProcState → ProcState → Prop
  | take : Given .unused .embryo
  | giveUp : Given .embryo .unused
  | ready : Given .embryo .runnable
  | wake : Given .sleeping .runnable
  | reap : Given .zombie .unused

inductive Leaves : ProcState → ProcState → Prop
  | yield : Leaves .running .runnable
  | sleep : Leaves .running .sleeping
  | exit : Leaves .running .zombie

inductive Arrow : ProcState → ProcState → Prop
  | take : Arrow .unused .embryo
  | giveUp : Arrow .embryo .unused
  | ready : Arrow .embryo .runnable
  | run : Arrow .runnable .running
  | yield : Arrow .running .runnable
  | sleep : Arrow .running .sleeping
  | exit : Arrow .running .zombie
  | wake : Arrow .sleeping .runnable
  | reap : Arrow .zombie .unused

theorem Given.arrow {a b : ProcState} (h : Given a b) : Arrow a b := by
  cases h <;> constructor

theorem Leaves.arrow {a b : ProcState} (h : Leaves a b) : Arrow a b := by
  cases h <;> constructor

def Act.By (p : Slot) : Act → Prop
  | .schedule _ => False
  | .yield r | .alloc r _ | .kstack r _ | .copy r _ | .ready r | .exit r | .threadExit r | .wait r
  | .threadJoin r | .kill r _ | .sleep r _ => r = p
  | .wakeup _ => True

namespace State

variable {s s' t : State} {p : Slot}

def Effect (p : Slot) (s s' : State) : Prop :=
  ∀ q, (s'.proc q).state = (s.proc q).state ∨ Given (s.proc q).state (s'.proc q).state ∨
    (q = p ∧ Leaves (s.proc q).state (s'.proc q).state)

def Woken (s s' : State) : Prop :=
  ∀ q, (s'.proc q).state = (s.proc q).state ∨ (s.proc q).state = .sleeping ∧ (s'.proc q).state = .runnable

theorem Woken.trans (h : s.Woken t) (h' : t.Woken s') : s.Woken s' := by
  intro q
  rcases h q with hq | ⟨hs, ht⟩ <;> rcases h' q with hq' | ⟨ht', hs'⟩
  · exact .inl (hq'.trans hq)
  · exact .inr ⟨hq ▸ ht', hs'⟩
  · exact .inr ⟨hs, hq'.trans ht⟩
  · exact .inr ⟨hs, hs'⟩

theorem Woken.effect (h : s.Woken s') (p : Slot) : Effect p s s' := by
  intro q
  rcases h q with hq | ⟨hs, hs'⟩
  · exact .inl hq
  · rw [hs, hs']
    exact .inr (.inl .wake)

theorem woken_refl : s.Woken s := fun _ => .inl rfl

variable {q : Slot} {x : Proc}

theorem setProc_state (hx : x.state = (s.proc q).state) (r : Slot) :
    ((s.setProc q x).proc r).state = (s.proc r).state := by
  by_cases hr : r = q
  · subst hr
    rw [setProc_self, hx]
  · rw [setProc_of_ne hr]

theorem woken_setProc (hx : x.state = (s.proc q).state) : s.Woken (s.setProc q x) :=
  fun r => .inl (setProc_state hx r)

theorem woken_wakeup1 (chan : Option Chan) : s.Woken (s.wakeup1 chan) := by
  intro q
  simp only [wakeup1, Proc.wake]
  split_ifs with h
  · exact .inr ⟨h.1, rfl⟩
  · exact .inl rfl

theorem woken_adopt (p q : Slot) : s.Woken (adopt p s q) := by
  unfold adopt
  have hset : s.Woken (s.setProc q { s.proc q with parent := some initproc }) := woken_setProc rfl
  split
  · dsimp only
    split
    · exact hset.trans (woken_wakeup1 _)
    · exact hset
  · exact woken_refl

theorem woken_foldl_adopt (p : Slot) (l : List Slot) : s.Woken (l.foldl (adopt p) s) := by
  induction l generalizing s with
  | nil => exact woken_refl
  | cons q l ih => exact (woken_adopt p q).trans ih

theorem effect_setProc (hx : x.state = (s.proc q).state ∨ Given (s.proc q).state x.state ∨
      (q = p ∧ Leaves (s.proc q).state x.state)) : Effect p s (s.setProc q x) := by
  intro r
  by_cases hr : r = q
  · subst hr
    rw [setProc_self]
    exact hx
  · rw [setProc_of_ne hr]
    exact .inl rfl

theorem Effect.setSame (h : Effect p s s')
    (hx : x.state = (s'.proc q).state) : Effect p s (s'.setProc q x) := by
  intro r
  by_cases hr : r = q
  · subst hr
    rw [setProc_self, hx]
    exact h r
  · rw [setProc_of_ne hr]
    exact h r

theorem effect_exitSection (hstate : (s.proc p).state = .running) : Effect p s (s.exitSection p) := by
  have hwoken : s.Woken ((List.finRange nproc).foldl (adopt p) (s.wakeup1 ((s.proc p).parent.map .proc))) :=
    (woken_wakeup1 _).trans (woken_foldl_adopt p _)
  intro q
  by_cases hq : q = p
  · subst hq
    simp only [exitSection, setProc_self, hstate]
    exact .inr (.inr ⟨trivial, .exit⟩)
  · simp only [exitSection, setProc_of_ne hq]
    exact hwoken.effect p q

theorem effect_reap (hstate : (s.proc p).state = .running) (call : Reaper) :
    Effect p s (s.reap call p) := by
  unfold reap
  cases hscan : s.scan call p with
  | found q =>
    obtain ⟨-, hzombie⟩ := scan_found hscan
    have hcollect : Effect p s (s.collect call p q) := by
      refine effect_setProc (s := { s with reaped := s.record call p q :: s.reaped }) (.inr (.inl ?_))
      rw [hzombie]
      exact .reap
    exact hcollect.setSame rfl
  | fails => exact effect_setProc (.inl rfl)
  | sleeps =>
    refine effect_setProc (.inr (.inr ⟨rfl, ?_⟩))
    rw [hstate]
    exact .sleep

theorem effect_goOn (hstate : (s.proc p).state = .running) : Effect p s (s.goOn p) := by
  unfold goOn
  cases (s.proc p).pc with
  | reap call =>
    have hsame : ∀ q, ((s.setProc p { s.proc p with chan := none }).proc q).state =
        (s.proc q).state := setProc_state rfl
    intro q
    have hq := effect_reap (s := s.setProc p { s.proc p with chan := none }) (by rw [hsame, hstate]) call q
    rwa [hsame] at hq
  | asleep => exact effect_setProc (.inl rfl)
  | user | kstack | copy | ready => exact fun _ => .inl rfl

theorem effect_kill (pid : Int) : Effect p s (s.kill pid).2 := by
  unfold kill
  cases s.target? pid with
  | none => exact fun _ => .inl rfl
  | some q =>
    refine effect_setProc (s := { s with proc := fun q =>
        { s.proc q with named := (s.proc q).named || (s.proc q).pid = pid } }) ?_
    by_cases hsleep : (s.proc q).state = .sleeping
    · simp only [hsleep, if_true]
      exact .inr (.inl .wake)
    · simp only [hsleep, if_false]
      exact .inl trivial

theorem effect_pair {np : Slot} (pc : Pc)
    (hx : x.state = (s.proc np).state ∨ Given (s.proc np).state x.state) :
    Effect p s ((s.setProc np x).setProc p { (s.setProc np x).proc p with pc := pc }) := by
  have hset : Effect p s (s.setProc np x) := effect_setProc (hx.imp_right .inl)
  exact hset.setSame rfl

theorem pair_state {np : Slot} (pc : Pc) (hq : q ≠ np) :
    (((s.setProc np x).setProc p { (s.setProc np x).proc p with pc := pc }).proc q).state =
      (s.proc q).state := by
  by_cases hqp : q = p
  · subst hqp
    rw [setProc_self, setProc_of_ne hq]
  · rw [setProc_of_ne hqp, setProc_of_ne hq]

theorem making_state (hinv : s.Inv) {a : Act} {ok : Bool} (ha : a = .kstack p ok ∨ a = .copy p ok)
    (hstep : s.step a = some s') (q : Slot) :
    (s'.proc q).state = (s.proc q).state ∨ (s.proc q).state = .embryo := by
  have hout : ∀ {pc np b}, (s.proc p).pc = pc → pc.creating = some (np, b) → (q ≠ np →
      (s'.proc q).state = (s.proc q).state) →
      (s'.proc q).state = (s.proc q).state ∨ (s.proc q).state = .embryo := by
    intro pc np b hpc hcreating hother
    by_cases hq : q = np
    · exact .inr (hq ▸ (hinv.wf.made (b := b) (by rw [hpc, hcreating])).embryo)
    · exact .inl (hother hq)
  rcases ha with rfl | rfl
  · cases Took.of_step hstep with
    | stack _ np call hstate hpc => exact .inl (setProc_state (by rfl) q)
    | stackless _ np call hstate hpc => exact hout hpc rfl (pair_state .user)
  · cases Took.of_step hstep with
    | copy _ np call _ hstate hpc => exact hout hpc rfl (pair_state (.ready call np))
    | copyless _ np hstate hpc => exact hout hpc rfl (pair_state .user)

theorem effect_step (hinv : s.Inv) {a : Act} (ha : a.By p) (hstep : s.step a = some s') :
    Effect p s s' := by
  cases Took.of_step hstep with
  | schedule r => exact ha.elim
  | yield r hstate =>
    refine effect_setProc (.inr (.inr ⟨ha, ?_⟩))
    rw [hstate]
    exact .yield
  | alloc r call =>
    obtain rfl : r = p := ha
    unfold allocproc
    cases hfind : s.unused? with
    | none => exact fun _ => .inl rfl
    | some np =>
      refine effect_pair (s := { s with nextpid := int32 (s.nextpid + 1), created := s.created + 1 })
        (.kstack call np) (.inr ?_)
      rw [unused?_eq_some hfind]
      exact .take
  | stack => exact effect_setProc (.inl rfl)
  | stackless r np call hstate hpc =>
    obtain rfl : r = p := ha
    refine effect_pair .user (.inr ?_)
    rw [(hinv.wf.made (b := (call, false)) (by rw [hpc]; rfl)).embryo]
    exact .giveUp
  | copy r np call =>
    obtain rfl : r = p := ha
    exact effect_pair (.ready call np) (.inl rfl)
  | copyless r np hstate hpc =>
    obtain rfl : r = p := ha
    refine effect_pair .user (.inr ?_)
    rw [(hinv.wf.made (b := (.fork, false)) (by rw [hpc]; rfl)).embryo]
    exact .giveUp
  | ready r np call hstate hpc =>
    obtain rfl : r = p := ha
    refine effect_pair .user (.inr ?_)
    rw [(hinv.wf.made (b := (call, true)) (by rw [hpc]; rfl)).embryo]
    exact .ready
  | exit r huser | threadExit r huser =>
    obtain rfl : r = p := ha
    exact effect_exitSection huser.1
  | wait r huser | threadJoin r huser =>
    obtain rfl : r = p := ha
    exact effect_reap huser.1 _
  | kill r pid => exact effect_kill pid
  | sleep r chan huser =>
    refine effect_setProc (.inr (.inr ⟨ha, ?_⟩))
    rw [huser.1]
    exact .sleep
  | wakeup chan => exact (woken_wakeup1 chan).effect p

end State

end Xv6.Ptable
