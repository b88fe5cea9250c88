import Xv6.Lib.Machine
import Xv6.Lib.Mutex
import Xv6.Lib.Wakeup

/-!
# Condition variables

Threads that share a mutex of `lockFunc.h` and one condition variable: `thread_cond_wait` is `mysleep`
and `thread_cond_signal` is `mywakeup`, both of `proc.c`. What a thread does with the mutex held is a
statement, and the statements are a parameter, so that the semaphore and the mailbox are two programs for
the same machine. Every `xchg`, every store to the lock word, every acquisition and release of
`ptable.lock` and every assignment of `mysleep` is a step of its own.

The rules at the end reduce the invariant of all interleavings to facts about single statements.
-/

namespace Xv6.Thread.Cond

open Function (update update_of_ne)

inductive Exit where
  | ret
  /-- `thread_cond_signal`, after the mutex is free. -/
  | signal
  deriving DecidableEq

inductive Effect (St σ : Type) where
  | goto (d : σ) (next : St)
  /-- `thread_cond_wait(&cv, &ml)` -/
  | wait (next : St)
  /-- `thread_cond_signal(&cv)` -/
  | signal (next : St)
  /-- `thread_mutex_unlock(&ml)` -/
  | unlock (exit : Exit)

/-- The functions that threads call, as the statement after `thread_mutex_lock(&ml)`, and their text. -/
structure Program (Call St σ : Type) where
  entry : Call → St
  effect : St → σ → Effect St σ

inductive Pc (St : Type) where
  | idle
  /-- `xchg` in `thread_mutex_lock(&ml)` -/
  | lock (st : St)
  | inside (st : St)
  /-- `mysleep`: `acquire(&ptable.lock)` -/
  | sleepAcquire (st : St)
  /-- `kernel_mutex_unlock(lk)` -/
  | sleepUnlock (st : St)
  /-- `p->chan = chan` -/
  | setChan (st : St)
  /-- `p->state = SLEEPING` -/
  | setSleeping (st : St)
  /-- `sched()`, until the scheduler's `release(&ptable.lock)` -/
  | sched (st : St)
  /-- Off the CPU, until the scheduler has run it again with `ptable.lock` held. -/
  | switched (st : St)
  /-- `p->chan = 0` -/
  | clearChan (st : St)
  /-- `release(&ptable.lock)` -/
  | sleepRelease (st : St)
  /-- `xchg` in `kernel_mutex_lock(lk)` -/
  | relock (st : St)
  /-- `mywakeup`, with the mutex held if a statement follows: `acquire(&ptable.lock)` -/
  | wakeupAcquire (next : Option St)
  | wakeup (next : Option St)
  /-- `release(&ptable.lock)` -/
  | wakeupRelease (next : Option St)
  deriving DecidableEq

structure Proc (St : Type) where
  pc : Pc St
  sleeping : Bool
  /-- `p->chan` is `&cv->cond`; otherwise it is 0. -/
  chan : Bool
  deriving DecidableEq

structure State (n : Nat) (St σ : Type) where
  ml : UInt32
  /-- The owner of `ptable.lock`. -/
  ptable : Option (Fin n)
  data : σ
  proc : Fin n → Proc St

inductive Act (n : Nat) (Call : Type) where
  /-- An idle thread calls a function. -/
  | call (p : Fin n) (c : Call)
  | run (p : Fin n)

variable {n : Nat} {Call St σ : Type}

namespace State

def init (d : σ) : State n St σ where
  ml := 0
  ptable := none
  data := d
  proc _ := { pc := .idle, sleeping := false, chan := false }

def goto (s : State n St σ) (p : Fin n) (pc : Pc St) : State n St σ :=
  { s with proc := update s.proc p { s.proc p with pc := pc } }

def wakeup (s : State n St σ) : State n St σ :=
  { s with proc := fun q =>
      if (s.proc q).sleeping ∧ (s.proc q).chan then { s.proc q with sleeping := false } else s.proc q }

def apply (s : State n St σ) (p : Fin n) : Effect St σ → State n St σ
  | .goto d next => { s with data := d }.goto p (.inside next)
  | .wait next => s.goto p (.sleepAcquire next)
  | .signal next => s.goto p (.wakeupAcquire (some next))
  | .unlock .ret => { s with ml := 0 }.goto p .idle
  | .unlock .signal => { s with ml := 0 }.goto p (.wakeupAcquire none)

def run (prog : Program Call St σ) (s : State n St σ) (p : Fin n) : Option (State n St σ) :=
  match (s.proc p).pc with
  | .idle => none
  | .lock st => some ({ s with ml := 1 }.goto p (if s.ml ≠ 0 then .lock st else .inside st))
  | .inside st => some (s.apply p (prog.effect st s.data))
  | .sleepAcquire st =>
    if s.ptable = none then some ({ s with ptable := some p }.goto p (.sleepUnlock st)) else none
  | .sleepUnlock st => some ({ s with ml := 0 }.goto p (.setChan st))
  | .setChan st =>
    some { s with
      proc := update s.proc p { s.proc p with pc := .setSleeping st, chan := true } }
  | .setSleeping st =>
    some { s with
      proc := update s.proc p { s.proc p with pc := .sched st, sleeping := true } }
  | .sched st => some ({ s with ptable := none }.goto p (.switched st))
  | .switched st =>
    if s.ptable = none ∧ (s.proc p).sleeping = false then
      some ({ s with ptable := some p }.goto p (.clearChan st))
    else
      none
  | .clearChan st =>
    some { s with
      proc := update s.proc p { s.proc p with pc := .sleepRelease st, chan := false } }
  | .sleepRelease st => some ({ s with ptable := none }.goto p (.relock st))
  | .relock st => some ({ s with ml := 1 }.goto p (if s.ml ≠ 0 then .relock st else .inside st))
  | .wakeupAcquire next =>
    if s.ptable = none then some ({ s with ptable := some p }.goto p (.wakeup next)) else none
  | .wakeup next => some (s.wakeup.goto p (.wakeupRelease next))
  | .wakeupRelease next =>
    some ({ s with ptable := none }.goto p (next.elim .idle .inside))

def step (prog : Program Call St σ) (s : State n St σ) : Act n Call → Option (State n St σ)
  | .call p c =>
    match (s.proc p).pc with
    | .idle => some (s.goto p (.lock (prog.entry c)))
    | _ => none
  | .run p => s.run prog p

end State

/-! ### What the positions mean -/

namespace Pc

def HoldsMl : Pc St → Prop
  | .inside _ | .sleepAcquire _ | .sleepUnlock _ => True
  | .wakeupAcquire next | .wakeup next | .wakeupRelease next => next.isSome
  | _ => False

def HoldsPtable : Pc St → Prop
  | .sleepUnlock _ | .setChan _ | .setSleeping _ | .sched _ | .clearChan _ | .sleepRelease _ | .wakeup _
  | .wakeupRelease _ => True
  | _ => False

end Pc

namespace Proc

/-- Asleep on the condition variable, or in `mysleep` without the mutex and about to be. -/
def Waits (x : Proc St) : Prop :=
  match x.pc with
  | .setChan _ | .setSleeping _ | .sched _ => True
  | .switched _ => x.sleeping = true
  | _ => False

def Shape (x : Proc St) : Prop :=
  match x.pc with
  | .setSleeping _ => x.sleeping = false ∧ x.chan = true
  | .sched _ => x.sleeping = true ∧ x.chan = true
  | .switched _ => x.sleeping = true → x.chan = true
  | _ => x.sleeping = false

end Proc

/-! ### Rules for programs -/

/-- Which statements a function begins with, what is known of the data at each statement, when a thread
has a reason to wait, which statements owe a signal, whether signals come after the mutex is free, and
what always holds of the data. -/
structure Assertions (St σ : Type) where
  Entry : St → Prop
  At : St → σ → Prop
  Reason : σ → Prop
  Owes : St → Prop
  Late : Prop
  Good : σ → Prop

/-- The statements of the program, one by one, keep the assertions. -/
structure Program.Sound (prog : Program Call St σ) (A : Assertions St σ) : Prop where
  entry : ∀ c, A.Entry (prog.entry c)
  goto : ∀ {st d d' next}, prog.effect st d = .goto d' next → A.Good d → A.At st d →
    A.Good d' ∧ A.At next d' ∧ (A.Reason d → A.Reason d' ∨ A.Owes next) ∧
      (A.Owes st → A.Reason d' ∨ A.Owes next)
  wait : ∀ {st d next}, prog.effect st d = .wait next → A.At st d →
    A.Reason d ∧ (∀ d', A.At next d') ∧ ¬ A.Owes st
  signal : ∀ {st d next}, prog.effect st d = .signal next → A.At st d → A.At next d
  unlock : ∀ {st d exit}, prog.effect st d = .unlock exit →
    (A.Owes st → exit = .signal) ∧ (exit = .signal → A.Late)

namespace Pc

variable (A : Assertions St σ)

def At (d : σ) : Pc St → Prop
  | .inside st => A.At st d
  | .sleepAcquire st | .sleepUnlock st => A.Reason d ∧ ∀ d', A.At st d'
  | .setChan st | .setSleeping st | .sched st | .switched st | .clearChan st | .sleepRelease st
  | .relock st => ∀ d', A.At st d'
  | .wakeupAcquire next | .wakeup next | .wakeupRelease next => next.elim A.Late (A.At · d)
  | .lock st => A.Entry st
  | .idle => True

def Owes : Pc St → Prop
  | .inside st => A.Owes st
  | .wakeupAcquire _ | .wakeup _ => True
  | _ => False

end Pc

structure State.Inv (A : Assertions St σ) (s : State n St σ) : Prop where
  ml : LockWord s.ml fun p => (s.proc p).pc.HoldsMl
  ptable : Mutex s.ptable fun p => (s.proc p).pc.HoldsPtable
  good : A.Good s.data
  at_pc : ∀ p, (s.proc p).pc.At A s.data
  shape : ∀ p, (s.proc p).Shape
  answered : Answered (fun p => (s.proc p).Waits) (A.Reason s.data) fun p => (s.proc p).pc.Owes A

namespace State

variable {prog : Program Call St σ} {A : Assertions St σ} {s s' : State n St σ} {p q : Fin n}

theorem inv_init {d : σ} (hgood : A.Good d) : (init d : State n St σ).Inv A where
  ml := .free fun _ => id
  ptable _ := ⟨False.elim, nofun⟩
  good := hgood
  at_pc _ := trivial
  shape _ := rfl
  answered := .nobody fun _ => id

theorem Inv.move (hinv : s.Inv A) {x : Proc St} {pc : Pc St} (hpc : (s.proc p).pc = pc) {ml : UInt32}
    {ptable : Option (Fin n)} (hml : LockWord.Move s.ml pc.HoldsMl x.pc.HoldsMl ml)
    (hptable : Mutex.Move s.ptable p pc.HoldsPtable x.pc.HoldsPtable ptable)
    (hat : x.pc.At A s.data) (hshape : x.Shape)
    (hwaits : x.Waits → Proc.Waits { s.proc p with pc := pc } ∨ A.Reason s.data)
    (howes : pc.Owes A → x.pc.Owes A ∨ ∀ q, ¬ (s.proc q).Waits) :
    Inv A { s with ml := ml, ptable := ptable, proc := update s.proc p x } where
  ml := hinv.ml.move (P := fun x : Proc St => x.pc.HoldsMl) (by rwa [hpc])
  ptable := hinv.ptable.move (P := fun x : Proc St => x.pc.HoldsPtable) (by rwa [hpc])
  good := hinv.good
  at_pc := (Function.forall_update_iff s.proc fun _ x => x.pc.At A s.data).mpr
    ⟨hat, fun q _ => hinv.at_pc q⟩
  shape := (Function.forall_update_iff s.proc fun _ x => x.Shape).mpr ⟨hshape, fun q _ => hinv.shape q⟩
  answered := hinv.answered.move (D := fun x : Proc St => x.pc.Owes A) (by rwa [← hpc] at hwaits)
    (by rwa [hpc])

/-- Only the holder of the mutex relies on the data. -/
theorem Inv.at_other (hinv : s.Inv A) (hp : (s.proc p).pc.HoldsMl) (hq : q ≠ p) (d : σ) :
    (s.proc q).pc.At A d := by
  have hnot : ¬ (s.proc q).pc.HoldsMl := fun hin => hq (hinv.ml.unique hp hin)
  have hat := hinv.at_pc q
  revert hnot hat
  cases (s.proc q).pc with
  | inside | sleepAcquire | sleepUnlock => exact fun hnot => absurd trivial hnot
  | wakeupAcquire next | wakeup next | wakeupRelease next =>
    cases next with
    | none => exact fun _ hat => hat
    | some st => exact fun hnot => absurd rfl hnot
  | _ => exact fun _ hat => hat

/-! ### The statements -/

theorem Inv.apply (hinv : s.Inv A) (hsound : prog.Sound A) {st : St} (hpc : (s.proc p).pc = .inside st) :
    Inv A (s.apply p (prog.effect st s.data)) := by
  have hat : A.At st s.data := by
    have hat := hinv.at_pc p
    rw [hpc] at hat
    exact hat
  have hshape := hinv.shape p
  unfold Proc.Shape at hshape
  rw [hpc] at hshape
  cases heffect : prog.effect st s.data with
  | goto d next =>
    obtain ⟨hgood, hnext, hreason, howes⟩ := hsound.goto heffect hinv.good hat
    refine ⟨hinv.ml.update_keep (P := fun x : Proc St => x.pc.HoldsMl) (by rw [hpc]; rfl),
      hinv.ptable.update_keep (P := fun x : Proc St => x.pc.HoldsPtable) (by rw [hpc]; rfl), hgood, ?_, ?_, ?_⟩
    · exact (Function.forall_update_iff s.proc fun _ x => x.pc.At A d).mpr
        ⟨hnext, fun q hq => hinv.at_other (by rw [hpc]; trivial) hq d⟩
    · exact (Function.forall_update_iff s.proc fun _ x => x.Shape).mpr ⟨hshape, fun q _ => hinv.shape q⟩
    · refine hinv.answered.update (D := fun x : Proc St => x.pc.Owes A) nofun hreason fun h => ?_
      rw [hpc] at h
      exact howes h
  | wait next =>
    obtain ⟨hreason, hresume, hnot⟩ := hsound.wait heffect hat
    exact hinv.move hpc (.keep .rfl) (.keep .rfl) ⟨hreason, hresume⟩ hshape
      nofun fun howes => absurd howes hnot
  | signal next =>
    exact hinv.move hpc (.keep (iff_of_true rfl trivial)) (.keep .rfl)
      (hsound.signal heffect hat) hshape nofun fun _ => .inl trivial
  | unlock exit =>
    obtain ⟨howes, hlate⟩ := hsound.unlock heffect
    cases exit with
    | ret =>
      exact hinv.move hpc (.leave trivial id) (.keep .rfl) trivial hshape
        nofun fun h => nomatch howes h
    | signal =>
      exact hinv.move hpc (.leave trivial nofun) (.keep .rfl) (hlate rfl) hshape nofun fun _ => .inl trivial

/-! ### `mywakeup` -/

theorem wakeup_pc (s : State n St σ) (q : Fin n) : (s.wakeup.proc q).pc = (s.proc q).pc := by
  unfold State.wakeup
  dsimp only
  split <;> rfl

section

variable {next : Option St} (hinv : s.Inv A) (hpc : (s.proc p).pc = .wakeup next)
include hinv hpc

theorem Inv.pc_of_wakeup (hq : (s.proc q).pc.HoldsPtable) : (s.proc q).pc = .wakeup next := by
  have hp : (s.proc p).pc.HoldsPtable := by
    rw [hpc]
    trivial
  rw [hinv.ptable.unique hp hq]
  exact hpc

theorem Inv.wakeup_shape (q : Fin n) : (s.wakeup.proc q).Shape := by
  have hshape := hinv.shape q
  have hholds := hinv.pc_of_wakeup hpc (q := q)
  unfold State.wakeup
  dsimp only
  split_ifs
  · revert hshape hholds
    unfold Proc.Shape
    dsimp only
    cases (s.proc q).pc with
    | sched => exact fun _ hholds => nomatch hholds trivial
    | setSleeping => exact fun hshape _ => ⟨rfl, hshape.2⟩
    | switched => exact fun _ _ => nofun
    | _ => exact fun _ _ => rfl
  · exact hshape

theorem Inv.not_waits_wakeup (q : Fin n) : ¬ (s.wakeup.proc q).Waits := by
  have hshape := hinv.shape q
  have hholds := hinv.pc_of_wakeup hpc (q := q)
  unfold Proc.Waits
  rw [wakeup_pc]
  revert hshape hholds
  unfold Proc.Shape State.wakeup
  dsimp only
  cases (s.proc q).pc with
  | setChan | setSleeping | sched => exact fun _ hholds _ => nomatch hholds trivial
  | switched =>
    intro hshape _ hsleeping
    split_ifs at hsleeping with hwoken
    · exact nomatch hsleeping
    · exact hwoken ⟨hsleeping, hshape hsleeping⟩
  | _ => exact fun _ _ => id

theorem Inv.wakeup : Inv A s.wakeup where
  ml := by
    simp only [wakeup_pc]
    exact hinv.ml
  ptable := by
    simp only [wakeup_pc]
    exact hinv.ptable
  good := hinv.good
  at_pc q := by
    rw [wakeup_pc]
    exact hinv.at_pc q
  shape := hinv.wakeup_shape hpc
  answered := .nobody (hinv.not_waits_wakeup hpc)

end

/-! ### Every step -/

theorem Inv.xchg (hinv : s.Inv A) {busy : Pc St} {st : St} (hpc : (s.proc p).pc = busy)
    (hbusy : ¬ busy.HoldsMl ∧ ¬ busy.HoldsPtable ∧ ¬ busy.Owes A)
    (hshape : { s.proc p with pc := busy : Proc St }.Shape)
    (hwaits : ¬ { s.proc p with pc := busy : Proc St }.Waits) (hsleeping : (s.proc p).sleeping = false)
    (hat : s.ml = 0 → A.At st s.data) :
    Inv A ({ s with ml := 1 }.goto p (if s.ml ≠ 0 then busy else .inside st)) := by
  have hbefore := hinv.at_pc p
  rw [hpc] at hbefore
  split_ifs with hml
  · exact hinv.move hpc (.busy hml .rfl) (.keep .rfl) hbefore hshape (fun h => absurd h hwaits) .inl
  · have hfree : s.ml = 0 := not_not.mp hml
    exact hinv.move hpc (.enter hfree trivial) (.keep (iff_of_false id hbusy.2.1)) (hat hfree) hsleeping nofun
      fun h => absurd h hbusy.2.2

theorem Inv.run (hinv : s.Inv A) (hsound : prog.Sound A)
    (hlock : ∀ st, (s.proc p).pc = .lock st → A.Entry st → s.ml = 0 → A.At st s.data)
    (hrun : s.run prog p = some s') : s'.Inv A := by
  have hshape := hinv.shape p
  have hat := hinv.at_pc p
  unfold Proc.Shape at hshape
  unfold State.run at hrun
  cases hpc : (s.proc p).pc <;> simp only [hpc] at hrun hshape hat
  case idle => cases hrun
  case lock st =>
    cases hrun
    exact hinv.xchg hpc ⟨id, id, id⟩ hshape id hshape (hlock st hpc hat)
  case inside st =>
    cases hrun
    exact hinv.apply hsound hpc
  case sleepAcquire | wakeupAcquire =>
    split_ifs at hrun with hfree
    cases hrun
    exact hinv.move hpc (.keep .rfl) (.acquire hfree trivial) hat hshape nofun .inl
  case sleepUnlock st =>
    cases hrun
    exact hinv.move hpc (.leave trivial id) (.keep .rfl) hat.2 hshape (fun _ => .inr hat.1) .inl
  case setChan st =>
    cases hrun
    exact hinv.move hpc (.keep .rfl) (.keep .rfl) hat ⟨hshape, rfl⟩ .inl .inl
  case setSleeping st =>
    cases hrun
    exact hinv.move hpc (.keep .rfl) (.keep .rfl) hat ⟨rfl, hshape.2⟩ .inl .inl
  case sched st =>
    cases hrun
    exact hinv.move hpc (.keep .rfl) (.release trivial id) hat (fun _ => hshape.2)
      (fun _ => .inl trivial) .inl
  case switched st =>
    split_ifs at hrun with hready
    cases hrun
    exact hinv.move hpc (.keep .rfl) (.acquire hready.1 trivial) hat hready.2 nofun .inl
  case clearChan st =>
    cases hrun
    exact hinv.move hpc (.keep .rfl) (.keep .rfl) hat hshape nofun .inl
  case sleepRelease st =>
    cases hrun
    exact hinv.move hpc (.keep .rfl) (.release trivial id) hat hshape nofun .inl
  case relock st =>
    cases hrun
    exact hinv.xchg hpc ⟨id, id, id⟩ hshape id hshape fun _ => hat s.data
  case wakeup next =>
    cases hrun
    have hinv' := hinv.wakeup hpc
    have hpc' : (s.wakeup.proc p).pc = .wakeup next := (wakeup_pc s p).trans hpc
    have hshape' := hinv'.shape p
    unfold Proc.Shape at hshape'
    rw [hpc'] at hshape'
    exact hinv'.move hpc' (.keep .rfl) (.keep .rfl) hat hshape' nofun
      fun _ => .inr (hinv.not_waits_wakeup hpc)
  case wakeupRelease next =>
    cases hrun
    cases next with
    | none =>
      exact hinv.move hpc (.keep (iff_of_false id nofun)) (.release trivial id) trivial hshape nofun False.elim
    | some st =>
      exact hinv.move hpc (.keep (iff_of_true trivial rfl)) (.release trivial id) hat hshape nofun False.elim

/-- A call or a step keeps the invariant, provided that a thread finds what its first statement relies
on when it gets the mutex. -/
theorem Inv.step (hinv : s.Inv A) (hsound : prog.Sound A) {a : Act n Call}
    (hlock : ∀ p st, a = .run p → (s.proc p).pc = .lock st → A.Entry st → s.ml = 0 → A.At st s.data)
    (hstep : s.step prog a = some s') : s'.Inv A := by
  cases a with
  | call p c =>
    have hshape := hinv.shape p
    unfold Proc.Shape at hshape
    unfold State.step at hstep
    cases hpc : (s.proc p).pc with
    | idle =>
      simp only [hpc] at hstep hshape
      cases hstep
      exact hinv.move hpc (.keep .rfl) (.keep .rfl) (hsound.entry c) hshape
        nofun False.elim
    | _ =>
      simp only [hpc] at hstep
      cases hstep
  | run p => exact hinv.run hsound (fun st => hlock p st rfl) hstep

/-! ### Consequences -/

/-- Inside the mutex: between `thread_mutex_lock`, or the end of `thread_cond_wait`, and
`thread_mutex_unlock` or `mysleep`'s unlocking. -/
def Inside (s : State n St σ) (p : Fin n) : Prop := (s.proc p).pc.HoldsMl

def SleepsOn (s : State n St σ) (p : Fin n) : Prop :=
  (s.proc p).sleeping = true ∧ (s.proc p).chan = true

theorem Inv.waits_of_sleeping (hinv : s.Inv A) (hsleeping : (s.proc p).sleeping = true) :
    (s.proc p).Waits := by
  have hshape := hinv.shape p
  revert hshape
  unfold Proc.Shape Proc.Waits
  cases (s.proc p).pc with
  | sched | setSleeping => exact fun _ => trivial
  | switched => exact fun _ => hsleeping
  | _ =>
    intro hshape
    rw [hsleeping] at hshape
    exact nomatch hshape

/-- While a thread is inside the mutex, the steps of the others touch neither the data nor its position. -/
theorem Inv.step_other (hinv : s.Inv A) (hp : s.Inside p) {a : Act n Call} (ha : a ≠ .run p)
    (hstep : s.step prog a = some s') : s'.data = s.data ∧ (s'.proc p).pc = (s.proc p).pc := by
  have hgoto : ∀ (q : Fin n) (x : Proc St), q ≠ p → (update s.proc q x p).pc = (s.proc p).pc := by
    intro q x hq
    rw [update_of_ne (Ne.symm hq)]
  unfold State.step at hstep
  cases a with
  | call q c =>
    have hq : q ≠ p := by
      rintro rfl
      unfold State.Inside at hp
      revert hp hstep
      dsimp only
      cases (s.proc q).pc with
      | idle => exact fun _ hp => hp.elim
      | _ => exact fun hstep => nomatch hstep
    dsimp only at hstep
    split at hstep
    · cases hstep
      exact ⟨rfl, hgoto q _ hq⟩
    · cases hstep
  | run q =>
    have hq : q ≠ p := fun heq => ha (by rw [heq])
    have hnot : ¬ (s.proc q).pc.HoldsMl := fun hin => hq (hinv.ml.unique hp hin)
    dsimp only at hstep
    unfold State.run at hstep
    cases hpc : (s.proc q).pc <;> simp only [hpc] at hstep hnot
    case inside st =>
      exact absurd trivial hnot
    case wakeup next =>
      cases hstep
      refine ⟨rfl, ?_⟩
      change (update s.wakeup.proc q _ p).pc = _
      rw [update_of_ne (Ne.symm hq), wakeup_pc]
    case idle =>
      cases hstep
    case sleepAcquire | switched | wakeupAcquire =>
      split_ifs at hstep
      cases hstep
      exact ⟨rfl, hgoto q _ hq⟩
    all_goals
      cases hstep
      exact ⟨rfl, hgoto q _ hq⟩

theorem Inv.reason_of_sleeps (hinv : s.Inv A) (hfree : s.ml = 0) (hptable : s.ptable = none)
    (hquiet : A.Late → ∀ q, (s.proc q).pc ≠ .wakeupAcquire none) (hsleeps : s.SleepsOn p) :
    A.Reason s.data := by
  refine (hinv.answered p (hinv.waits_of_sleeping hsleeps.1)).resolve_right ?_
  rintro ⟨r, hr⟩
  have hml : ¬ (s.proc r).pc.HoldsMl := hinv.ml.not_of_zero hfree
  have hpt : ¬ (s.proc r).pc.HoldsPtable := by
    intro hholds
    have howner := (hinv.ptable r).mp hholds
    rw [hptable] at howner
    cases howner
  have hat := hinv.at_pc r
  have hquiet := fun hlate => hquiet hlate r
  revert hr hml hpt hat hquiet
  cases (s.proc r).pc with
  | inside st => exact fun _ hml => absurd trivial hml
  | wakeup next => exact fun _ _ hpt => absurd trivial hpt
  | wakeupAcquire next =>
    cases next with
    | none => exact fun _ _ _ hlate hquiet => hquiet hlate rfl
    | some st => exact fun _ hml => absurd rfl hml
  | _ => exact fun hr => hr.elim

end State

end Xv6.Thread.Cond
