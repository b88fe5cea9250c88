import Xv6.Lib.Count
import Xv6.Lib.Machine
import Xv6.Lib.Mutex
import Mathlib.Algebra.BigOperators.Fin
import Mathlib.Algebra.BigOperators.Ring.Finset

/-!
# Updates under the user locks

`do_work` of `thread.c`: every thread adds to `total_balance` inside a spin lock and a mutex, both of
`lockFunc.h`. Loads, stores, `xchg` and the unlocking stores are single steps. A thread that has loaded
`total_balance` is alone inside the locks, so the value it stores is one more than the current one, and
the total counts the stores.
-/

namespace Xv6.Thread

inductive Work where
  /-- `i < b->amount` -/
  | test (i : Nat)
  /-- `xchg` in `thread_spin_lock(&lock)` -/
  | spinLock (i : Nat)
  /-- `xchg` in `thread_mutex_lock(&ml)` -/
  | mutexLock (i : Nat)
  | load (i : Nat)
  | store (i : Nat) (old : Int)
  | mutexUnlock (i : Nat)
  | spinUnlock (i : Nat)
  /-- `thread_exit` -/
  | done
  deriving DecidableEq

namespace Work

def InSpin : Work → Prop
  | .mutexLock _ | .load _ | .store .. | .mutexUnlock _ | .spinUnlock _ => True
  | _ => False

def InMutex : Work → Prop
  | .load _ | .store .. | .mutexUnlock _ => True
  | _ => False

def stores (amount : Int) : Work → Nat
  | .test i | .spinLock i | .mutexLock i | .load i | .store i _ => i
  | .mutexUnlock i | .spinUnlock i => i + 1
  | .done => amount.toNat

def InLoop (amount : Int) : Work → Prop
  | .test i => i ≤ amount.toNat
  | .spinLock i | .mutexLock i | .load i | .store i _ | .mutexUnlock i | .spinUnlock i => i < amount
  | .done => True

end Work

structure State (n : Nat) where
  lock : UInt32
  ml : UInt32
  /-- The C `int`, in two's complement. -/
  totalBalance : Int
  work : Fin n → Work

namespace State

variable {n : Nat}

def init (balance : Int) : State n where
  lock := 0
  ml := 0
  totalBalance := balance
  work _ := .test 0

def goto (s : State n) (p : Fin n) (w : Work) : State n := { s with work := Function.update s.work p w }

def step (amount : Fin n → Int) (s : State n) (p : Fin n) : Option (State n) :=
  match s.work p with
  | .test i => some (s.goto p (if i < amount p then .spinLock i else .done))
  | .spinLock i =>
    some ({ s with lock := 1 }.goto p (if s.lock ≠ 0 then .spinLock i else .mutexLock i))
  | .mutexLock i =>
    some ({ s with ml := 1 }.goto p (if s.ml ≠ 0 then .mutexLock i else .load i))
  | .load i => some (s.goto p (.store i s.totalBalance))
  | .store i old => some ({ s with totalBalance := (old + 1).bmod (2 ^ 32) }.goto p (.mutexUnlock i))
  | .mutexUnlock i => some ({ s with ml := 0 }.goto p (.spinUnlock i))
  | .spinUnlock i => some ({ s with lock := 0 }.goto p (.test (i + 1)))
  | .done => none

/-! ### The invariant -/

def stores (amount : Fin n → Int) (s : State n) : Nat := ∑ p, (s.work p).stores (amount p)

structure Inv (amount : Fin n → Int) (balance : Int) (s : State n) : Prop where
  spin : LockWord s.lock fun p => (s.work p).InSpin
  mutex : LockWord s.ml fun p => (s.work p).InMutex
  loop : ∀ p, (s.work p).InLoop (amount p)
  old : ∀ p i old, s.work p = .store i old → old = s.totalBalance
  total : s.totalBalance = (balance + s.stores amount).bmod (2 ^ 32)

variable {amount : Fin n → Int} {balance : Int} {s s' : State n} {p : Fin n} {w : Work}

theorem stores_goto (amount : Fin n → Int) (s : State n) (p : Fin n) (w : Work) :
    (s.goto p w).stores amount + (s.work p).stores (amount p) = s.stores amount + w.stores (amount p) := by
  have hne : ∀ q, q ≠ p → ((s.goto p w).work q).stores (amount q) = (s.work q).stores (amount q) := by
    intro q hq
    change (Function.update s.work p w q).stores (amount q) = _
    rw [Function.update_of_ne hq]
  have hsum := sum_add_of_eq_except hne
  change _ + _ = _ + (Function.update s.work p w p).stores (amount p) at hsum
  rwa [Function.update_self] at hsum

theorem inv_init (amount : Fin n → Int) (hbalance : balance = balance.bmod (2 ^ 32)) :
    (init balance : State n).Inv amount balance where
  spin := .free fun _ => id
  mutex := .free fun _ => id
  loop _ := Nat.zero_le _
  old := nofun
  total := by
    have hzero : (init balance : State n).stores amount = 0 := by simp [stores, init, Work.stores]
    rw [hzero, Int.natCast_zero, Int.add_zero]
    exact hbalance

theorem Inv.goto (hinv : s.Inv amount balance) {w₀ : Work} (hw : s.work p = w₀) {lock ml : UInt32}
    (hspin : LockWord.Move s.lock w₀.InSpin w.InSpin lock)
    (hmutex : LockWord.Move s.ml w₀.InMutex w.InMutex ml)
    (hloop : w.InLoop (amount p)) (hold : ∀ i old, w = .store i old → old = s.totalBalance)
    (hstores : w.stores (amount p) = w₀.stores (amount p)) :
    Inv amount balance ({ s with lock := lock, ml := ml }.goto p w) where
  spin := hinv.spin.move (by rwa [hw])
  mutex := hinv.mutex.move (by rwa [hw])
  loop := (Function.forall_update_iff s.work fun q w => w.InLoop (amount q)).mpr
    ⟨hloop, fun q _ => hinv.loop q⟩
  old := (Function.forall_update_iff s.work fun _ w => ∀ i old, w = .store i old → old = s.totalBalance).mpr
    ⟨hold, fun q _ => hinv.old q⟩
  total := by
    have hsum := stores_goto amount s p w
    rw [hw] at hsum
    have hsame : (s.goto p w).stores amount = s.stores amount := by omega
    rw [hinv.total, ← hsame]
    rfl

/-- The thread that stores is alone inside the mutex: nobody else has loaded. -/
theorem Inv.store (hinv : s.Inv amount balance) {i : Nat} {old : Int} (hw : s.work p = .store i old) :
    Inv amount balance ({ s with totalBalance := (old + 1).bmod (2 ^ 32) }.goto p (.mutexUnlock i)) where
  spin := hinv.spin.update_keep (by rw [hw]; rfl)
  mutex := hinv.mutex.update_keep (by rw [hw]; rfl)
  loop := by
    have hloop := hinv.loop p
    rw [hw] at hloop
    exact (Function.forall_update_iff s.work fun q w => w.InLoop (amount q)).mpr
      ⟨hloop, fun q _ => hinv.loop q⟩
  old := by
    refine (Function.forall_update_iff s.work fun _ w =>
      ∀ j old', w = .store j old' → old' = (old + 1).bmod (2 ^ 32)).mpr ⟨nofun, fun q hq j old' hwq => ?_⟩
    have hin : (s.work p).InMutex ∧ (s.work q).InMutex := by
      rw [hw, hwq]
      exact ⟨trivial, trivial⟩
    exact absurd (hinv.mutex.unique hin.1 hin.2) hq
  total := by
    have hsum := stores_goto amount s p (.mutexUnlock i)
    rw [hw] at hsum
    change (s.goto p (.mutexUnlock i)).stores amount + i = s.stores amount + (i + 1) at hsum
    have hnext : (s.goto p (.mutexUnlock i)).stores amount = s.stores amount + 1 := by omega
    calc (old + 1).bmod (2 ^ 32) = ((balance + s.stores amount).bmod (2 ^ 32) + 1).bmod (2 ^ 32) := by
          rw [hinv.old p i old hw, hinv.total]
      _ = (balance + (s.stores amount + 1 : Nat)).bmod (2 ^ 32) := by
          rw [Int.bmod_add_bmod, Int.natCast_add, Int.add_assoc]
          rfl
      _ = (balance + (s.goto p (.mutexUnlock i)).stores amount).bmod (2 ^ 32) := by rw [hnext]

theorem Inv.step (hinv : s.Inv amount balance) (hstep : s.step amount p = some s') :
    s'.Inv amount balance := by
  have hloop := hinv.loop p
  unfold State.step at hstep
  cases hw : s.work p <;> simp only [hw] at hstep hloop <;> cases hstep
  case test i =>
    split_ifs with hmore
    · exact hinv.goto hw (.keep .rfl) (.keep .rfl) hmore nofun rfl
    · refine hinv.goto hw (.keep .rfl) (.keep .rfl) trivial nofun ?_
      change (amount p).toNat = i
      change i ≤ (amount p).toNat at hloop
      omega
  case spinLock i =>
    split_ifs with hbusy
    · exact hinv.goto hw (.busy hbusy .rfl) (.keep .rfl) hloop nofun rfl
    · exact hinv.goto hw (.enter (not_not.mp hbusy) trivial) (.keep .rfl) hloop nofun rfl
  case mutexLock i =>
    split_ifs with hbusy
    · exact hinv.goto hw (.keep .rfl) (.busy hbusy .rfl) hloop nofun rfl
    · exact hinv.goto hw (.keep .rfl) (.enter (not_not.mp hbusy) trivial) hloop nofun rfl
  case load i =>
    refine hinv.goto hw (.keep .rfl) (.keep .rfl) hloop ?_ rfl
    rintro j old ⟨⟩
    rfl
  case store i old =>
    exact hinv.store hw
  case mutexUnlock i =>
    exact hinv.goto hw (.keep .rfl) (.leave trivial id) hloop nofun rfl
  case spinUnlock i =>
    refine hinv.goto hw (.leave trivial id) (.keep .rfl) ?_ nofun rfl
    change i < amount p at hloop
    change i + 1 ≤ (amount p).toNat
    omega

theorem inv_of_reaches (hbalance : balance = balance.bmod (2 ^ 32))
    (hrun : Reaches (State.step amount) (fun _ _ => True) (init balance) s) : s.Inv amount balance :=
  hrun.invariant (inv_init amount hbalance) fun _ _ _ hinv _ hstep => hinv.step hstep

theorem stores_of_done (hdone : ∀ p, s.work p = .done) : s.stores amount = ∑ p, (amount p).toNat := by
  refine Finset.sum_congr rfl fun p _ => ?_
  rw [hdone p]
  rfl

end State

variable {n : Nat}

/-- In every interleaving of any number of threads at most one is inside the mutex and at most one
inside the spin lock, and when all have finished the balance has grown, as an `int`, by the sum of the
amounts that are not negative. -/
theorem do_work_no_lost_update (amount : Fin n → Int) {balance : Int}
    (hbalance : balance = balance.bmod (2 ^ 32)) {s : State n}
    (hrun : Reaches (State.step amount) (fun _ _ => True) (.init balance) s) :
    (∀ p q, (s.work p).InMutex → (s.work q).InMutex → p = q) ∧
    (∀ p q, (s.work p).InSpin → (s.work q).InSpin → p = q) ∧ ((∀ p, s.work p = .done) →
      s.totalBalance = (balance + ∑ p, max (amount p) 0).bmod (2 ^ 32)) := by
  have hinv := State.inv_of_reaches hbalance hrun
  refine ⟨fun p q hp hq => hinv.mutex.unique hq hp, fun p q hp hq => hinv.spin.unique hq hp,
    fun hdone => ?_⟩
  have hsum : ((∑ p, (amount p).toNat : Nat) : Int) = ∑ p, max (amount p) 0 := by
    rw [Nat.cast_sum]
    exact Finset.sum_congr rfl fun p _ => Int.ofNat_toNat (amount p)
  rw [hinv.total, State.stores_of_done hdone, hsum]

/-- Two threads with the amounts 1 and 2: the second finds the spin lock taken. -/
theorem do_work_no_lost_update_two : ∃ s : State 2,
    Reaches (State.step ![1, 2]) (fun _ _ => True) (.init 5) s ∧ (∀ p, s.work p = .done) ∧
      s.totalBalance = 8 := by
  have hrun : (runActs (State.step ![1, 2]) (fun _ _ => True)
      ([0, 0, 0, 0, 1, 1, 0, 0, 0, 0] ++ List.replicate 14 1) (.init 5)).map State.work
      = some fun _ => .done := by decide +kernel
  obtain ⟨s, hreach, hdone⟩ := Reaches.of_map hrun
  have hall : ∀ p, s.work p = .done := fun p => congrFun hdone p
  refine ⟨s, hreach, hall, ?_⟩
  rw [(do_work_no_lost_update ![1, 2] (by decide) hreach).2.2 hall]
  decide

/-- A thread with a negative amount adds nothing. -/
theorem do_work_negative_amount : ∃ s : State 1,
    Reaches (State.step ![-1]) (fun _ _ => True) (.init 0) s ∧ (∀ p, s.work p = .done) ∧
      s.totalBalance ≠ (0 + ∑ p, ![-1] p).bmod (2 ^ 32) := by
  have hrun : (runActs (State.step ![-1]) (fun _ _ => True) [0] (.init 0)).map
      (fun s : State 1 => (s.work, s.totalBalance)) = some (fun _ => .done, 0) := by decide
  obtain ⟨s, hreach, heq⟩ := Reaches.of_map hrun
  obtain ⟨hdone, htotal⟩ := Prod.mk.inj heq
  refine ⟨s, hreach, fun p => congrFun hdone p, ?_⟩
  rw [htotal]
  decide

end Xv6.Thread
