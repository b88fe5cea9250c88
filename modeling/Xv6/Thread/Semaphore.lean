import Xv6.Thread.Cond
import Mathlib.Data.Fintype.Basic

/-!
# The user-level semaphore

`sem_init`, `sem_wait` and `sem_post` of `extracredit1.c`. The count is the initial value plus the
increments minus the decrements, as a `uint`; it is not decremented at 0; and nobody sleeps while it is
positive, except between an increment and its signal.
-/

namespace Xv6.Thread.Semaphore

open Cond

/-- The field `num`, and the completed increments and decrements, which the program does not keep. -/
structure Sem where
  num : UInt32
  increments : Nat
  decrements : Nat
  deriving DecidableEq

def semInit (num : UInt32) : Sem := { num := num, increments := 0, decrements := 0 }

inductive Call where
  | semWait
  | semPost
  deriving DecidableEq

inductive Stmt where
  /-- `while (semm->num == 0)` -/
  | waitTest
  /-- `semm->num--`: the load and the store -/
  | waitLoad
  | waitStore (old : UInt32)
  | waitUnlock
  /-- `semm->num++`: the load and the store -/
  | postLoad
  | postStore (old : UInt32)
  | postUnlock
  deriving DecidableEq

def semaphore : Program Call Stmt Sem where
  entry
    | .semWait => .waitTest
    | .semPost => .postLoad
  effect
    | .waitTest, d => if d.num = 0 then .wait .waitTest else .goto d .waitLoad
    | .waitLoad, d => .goto d (.waitStore d.num)
    | .waitStore old, d => .goto { d with num := old - 1, decrements := d.decrements + 1 } .waitUnlock
    | .waitUnlock, _ => .unlock .ret
    | .postLoad, d => .goto d (.postStore d.num)
    | .postStore old, d => .goto { d with num := old + 1, increments := d.increments + 1 } .postUnlock
    | .postUnlock, _ => .unlock .signal

abbrev State (n : Nat) := Cond.State n Stmt Sem

/-- The count with the initial value `k`, before it is cut to 32 bits. -/
def Sem.count (k : UInt32) (d : Sem) : Int := k.toNat + d.increments - d.decrements

def assertions (k : UInt32) : Assertions Stmt Sem where
  Entry st := st = .waitTest ∨ st = .postLoad
  At
    | .waitLoad, d => d.num ≠ 0
    | .waitStore old, d => old = d.num ∧ d.num ≠ 0
    | .postStore old, d => old = d.num
    | _, _ => True
  Reason d := d.num = 0
  Owes
    | .postUnlock => True
    | _ => False
  Late := True
  Good d := (d.num.toNat : Int) = d.count k % 2 ^ 32

theorem toNat_sub_one {x : UInt32} (hx : x ≠ 0) : ((x - 1).toNat : Int) = x.toNat - 1 := by
  have hpos : x.toNat ≠ 0 := fun hzero => hx (UInt32.toNat_inj.mp hzero)
  have hle : (1 : UInt32) ≤ x := by
    rw [UInt32.le_iff_toNat_le]
    exact Nat.one_le_iff_ne_zero.mpr hpos
  rw [UInt32.toNat_sub_of_le _ _ hle]
  change ((x.toNat - 1 : Nat) : Int) = x.toNat - 1
  omega

theorem toNat_add_one (x : UInt32) : ((x + 1).toNat : Int) = (x.toNat + 1) % 2 ^ 32 := by
  rw [UInt32.toNat_add]
  change (((x.toNat + 1) % 2 ^ 32 : Nat) : Int) = (x.toNat + 1) % 2 ^ 32
  omega

theorem semaphore_sound (k : UInt32) : semaphore.Sound (assertions k) where
  entry c := by
    cases c with
    | semWait => exact Or.inl rfl
    | semPost => exact Or.inr rfl
  goto {st d d' next} heffect hgood hat := by
    cases st with
    | waitTest =>
      change (if d.num = 0 then _ else _) = _ at heffect
      split_ifs at heffect with hzero
      cases heffect
      exact ⟨hgood, hzero, Or.inl, nofun⟩
    | waitLoad =>
      cases heffect
      exact ⟨hgood, ⟨rfl, hat⟩, .inl, nofun⟩
    | waitStore old =>
      cases heffect
      obtain ⟨rfl, hpos⟩ := hat
      refine ⟨?_, trivial, fun hzero => absurd hzero hpos, nofun⟩
      have hcount : (d.num.toNat : Int) = d.count k % 2 ^ 32 := hgood
      have hsub := toNat_sub_one hpos
      change ((d.num - 1).toNat : Int) = (k.toNat + d.increments - (d.decrements + 1 : Nat)) % 2 ^ 32
      unfold Sem.count at hcount
      omega
    | postLoad =>
      cases heffect
      exact ⟨hgood, rfl, .inl, nofun⟩
    | postStore old =>
      cases heffect
      have hold : old = d.num := hat
      refine ⟨?_, trivial, fun _ => .inr trivial, nofun⟩
      have hcount : (d.num.toNat : Int) = d.count k % 2 ^ 32 := hgood
      have hadd := toNat_add_one d.num
      rw [hold]
      change ((d.num + 1).toNat : Int) = (k.toNat + (d.increments + 1 : Nat) - d.decrements) % 2 ^ 32
      unfold Sem.count at hcount
      omega
    | waitUnlock | postUnlock => cases heffect
  wait {st d next} heffect _ := by
    cases st with
    | waitTest =>
      change (if d.num = 0 then _ else _) = _ at heffect
      split_ifs at heffect with hzero
      cases heffect
      exact ⟨hzero, fun _ => trivial, id⟩
    | _ => cases heffect
  signal {st d next} heffect _ := by
    cases st with
    | waitTest =>
      change (if d.num = 0 then _ else _) = _ at heffect
      split_ifs at heffect
    | _ => cases heffect
  unlock {st d exit} heffect := by
    refine ⟨fun howes => ?_, fun _ => trivial⟩
    cases st with
    | postUnlock =>
      cases heffect
      rfl
    | _ => exact howes.elim

variable {n : Nat}

theorem inv_of_reaches {k : UInt32} {s : State n}
    (hrun : Reaches (Cond.State.step semaphore) (fun _ _ => True) (.init (semInit k)) s) :
    s.Inv (assertions k) := by
  have hgood : (assertions k).Good (semInit k) := by
    change (k.toNat : Int) = (k.toNat + 0 - 0) % 2 ^ 32
    have hlt := k.toNat_lt
    omega
  refine hrun.invariant (Cond.State.inv_init hgood) fun s a s' hinv _ hstep => ?_
  refine hinv.step (semaphore_sound k) (fun p st _ _ hentry _ => ?_) hstep
  rcases hentry with rfl | rfl
  · trivial
  · trivial

/-- Between `semm->num++` and `mywakeup`'s `acquire(&ptable.lock)`. -/
def Signals (s : State n) (p : Fin n) : Prop :=
  (s.proc p).pc = .inside .postUnlock ∨ (s.proc p).pc = .wakeupAcquire none

/-- In every interleaving at most one thread is inside the mutex; `num` is the initial value plus the
completed increments minus the completed decrements, modulo `2 ^ 32`; it is positive when it is
decremented; and while the mutex and `ptable.lock` are free and no signal is due, a sleeping thread means
that `num` is 0. -/
theorem semaphore_correct {k : UInt32} {s : State n}
    (hrun : Reaches (Cond.State.step semaphore) (fun _ _ => True) (.init (semInit k)) s) :
    (∀ p q, s.Inside p → s.Inside q → p = q) ∧
    (s.data.num.toNat : Int) = (k.toNat + s.data.increments - s.data.decrements) % 2 ^ 32 ∧
    (∀ p old, (s.proc p).pc = .inside (.waitStore old) → old = s.data.num ∧ old ≠ 0) ∧
    (s.ml = 0 → s.ptable = none → (∀ p, ¬ Signals s p) → ∀ p, s.SleepsOn p → s.data.num = 0) := by
  have hinv := inv_of_reaches hrun
  refine ⟨fun p q hp hq => hinv.ml.unique hq hp, hinv.good, fun p old hpc => ?_,
    fun hfree hptable hquiet p hsleeps => ?_⟩
  · have hat := hinv.at_pc p
    rw [hpc] at hat
    obtain ⟨rfl, hpos⟩ : old = s.data.num ∧ s.data.num ≠ 0 := hat
    exact ⟨rfl, hpos⟩
  · exact hinv.reason_of_sleeps hfree hptable (fun _ q hq => hquiet q (.inr hq)) hsleeps

/-- With the count at 0, a thread that calls `sem_wait` goes to sleep. -/
theorem semaphore_correct_waits : ∃ s : State 2,
    Reaches (Cond.State.step semaphore) (fun _ _ => True) (.init (semInit 0)) s ∧ s.SleepsOn 0 ∧
      s.data.num = 0 := by
  have hrun : (runActs (Cond.State.step semaphore) (fun _ _ => True)
      (.call 0 .semWait :: List.replicate 7 (.run 0)) (.init (semInit 0) : State 2)).map
      (fun s => (s.ml, s.ptable, s.proc))
      = some (0, none, fun p => if p = 0 then { pc := .switched .waitTest, sleeping := true, chan := true }
          else { pc := .idle, sleeping := false, chan := false }) := by decide +kernel
  obtain ⟨s, hreach, heq⟩ := Reaches.of_map hrun
  simp only [Prod.mk.injEq] at heq
  obtain ⟨hml, hptable, hproc⟩ := heq
  have hsleeps : s.SleepsOn 0 := by
    unfold Cond.State.SleepsOn
    rw [hproc]
    exact ⟨rfl, rfl⟩
  have hquiet : ∀ p, ¬ Signals s p := by
    unfold Signals
    rw [hproc]
    decide
  exact ⟨s, hreach, hsleeps, (semaphore_correct hreach).2.2.2 hml hptable hquiet 0 hsleeps⟩

theorem ext_one {s s' : State 1} (hml : s.ml = s'.ml) (hptable : s.ptable = s'.ptable)
    (hdata : s.data = s'.data) (hproc : s.proc 0 = s'.proc 0) : s = s' := by
  obtain ⟨ml, ptable, data, proc⟩ := s
  obtain ⟨ml', ptable', data', proc'⟩ := s'
  cases hml
  cases hptable
  cases hdata
  congr 1
  funext q
  rw [Subsingleton.elim q 0]
  exact hproc

theorem reaches_post {s₀ : State 1} {d : Sem}
    (hbefore : Reaches (Cond.State.step semaphore) (fun _ _ => True) s₀ (.init d)) :
    Reaches (Cond.State.step semaphore) (fun _ _ => True) s₀
      (.init { d with num := d.num + 1, increments := d.increments + 1 }) := by
  refine Reaches.of_runActs (.call 0 .semPost :: List.replicate 7 (.run 0)) hbefore ?_
  exact congrArg some (ext_one rfl rfl rfl rfl)

/-- After `2 ^ 32` calls of `sem_post` the count is 0 again. -/
theorem semaphore_wraps : ∃ s : State 1,
    Reaches (Cond.State.step semaphore) (fun _ _ => True) (.init (semInit 0)) s ∧
      (s.data.num.toNat : Int) ≠ 0 + s.data.increments - s.data.decrements := by
  have hposts : ∀ m : Nat, Reaches (Cond.State.step semaphore) (fun _ _ => True)
      (.init (semInit 0) : State 1) (.init { num := .ofNat m, increments := m, decrements := 0 }) := by
    intro m
    induction m with
    | zero => exact .refl
    | succ m ih =>
      have hnext := reaches_post ih
      rwa [← UInt32.ofNat_one, ← UInt32.ofNat_add] at hnext
  refine ⟨_, hposts (2 ^ 32), ?_⟩
  decide

end Xv6.Thread.Semaphore
