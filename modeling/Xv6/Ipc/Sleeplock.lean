import Xv6.Lib.Machine
import Xv6.Lib.Mutex
import Xv6.Lib.Wakeup

/-!
# Sleep-locks

`acquiresleep` and `releasesleep` of `sleeplock.c` with `sleep` and `wakeup` of `proc.c`, for one lock
and any number of processes. Every acquisition and release of `lk->lk` and `ptable.lock`, every
assignment and every test is a step of its own. `sched` ends when the scheduler lets `ptable.lock` go,
and a process runs again after the scheduler has taken `ptable.lock` on its behalf.
-/

namespace Xv6.Sleeplock

open Function (update update_self update_of_ne)

inductive Pc where
  | idle
  /-- `acquiresleep`: `acquire(&lk->lk)` -/
  | acquire
  /-- `while (lk->locked)` -/
  | test
  /-- `sleep(lk, &lk->lk)`: `acquire(&ptable.lock)` -/
  | sleepAcquire
  /-- `release(lk)` -/
  | sleepRelease
  /-- `p->chan = chan` -/
  | setChan
  /-- `p->state = SLEEPING` -/
  | setSleeping
  /-- `sched()`, until the scheduler's `release(&ptable.lock)` -/
  | sched
  /-- Off the CPU, until the scheduler has run it again with `ptable.lock` held. -/
  | switched
  /-- `p->chan = 0` -/
  | clearChan
  /-- `release(&ptable.lock)` -/
  | sleepUnlock
  /-- `acquire(lk)` -/
  | reacquire
  /-- `lk->locked = 1` -/
  | setLocked
  /-- `lk->pid = myproc()->pid` -/
  | setPid
  /-- `release(&lk->lk)`, and `acquiresleep` returns. -/
  | release
  /-- Between `acquiresleep` and `releasesleep`. -/
  | critical
  /-- `releasesleep`: `acquire(&lk->lk)` -/
  | releaseAcquire
  /-- `lk->locked = 0` -/
  | clearLocked
  /-- `lk->pid = 0` -/
  | clearPid
  /-- `wakeup(lk)`: `acquire(&ptable.lock)` -/
  | wakeupAcquire
  /-- `wakeup1(lk)` -/
  | wakeup1
  /-- `release(&ptable.lock)` -/
  | wakeupRelease
  /-- `release(&lk->lk)`, and `releasesleep` returns. -/
  | releaseRelease
  deriving DecidableEq

structure Proc where
  pc : Pc
  sleeping : Bool
  /-- `p->chan` is `lk`; otherwise it is 0. -/
  chan : Bool
  deriving DecidableEq

structure State (n : Nat) where
  /-- The owners of `lk->lk` and `ptable.lock`. -/
  lk : Option (Fin n)
  ptable : Option (Fin n)
  locked : UInt32
  pid : Int
  proc : Fin n → Proc

namespace State

variable {n : Nat}

def init : State n where
  lk := none
  ptable := none
  locked := 0
  pid := 0
  proc _ := { pc := .idle, sleeping := false, chan := false }

def goto (s : State n) (p : Fin n) (pc : Pc) : State n :=
  { s with proc := update s.proc p { s.proc p with pc := pc } }

def wakeup1 (s : State n) : State n :=
  { s with proc := fun q =>
      if (s.proc q).sleeping ∧ (s.proc q).chan then { s.proc q with sleeping := false } else s.proc q }

def step (pid : Fin n → Int) (s : State n) (p : Fin n) : Option (State n) :=
  match (s.proc p).pc with
  | .idle => some (s.goto p .acquire)
  | .acquire => if s.lk = none then some ({ s with lk := some p }.goto p .test) else none
  | .test => some (s.goto p (if s.locked ≠ 0 then .sleepAcquire else .setLocked))
  | .sleepAcquire =>
    if s.ptable = none then some ({ s with ptable := some p }.goto p .sleepRelease) else none
  | .sleepRelease => some ({ s with lk := none }.goto p .setChan)
  | .setChan =>
    some { s with proc := update s.proc p { s.proc p with pc := .setSleeping, chan := true } }
  | .setSleeping =>
    some { s with proc := update s.proc p { s.proc p with pc := .sched, sleeping := true } }
  | .sched => some ({ s with ptable := none }.goto p .switched)
  | .switched =>
    if s.ptable = none ∧ (s.proc p).sleeping = false then
      some ({ s with ptable := some p }.goto p .clearChan)
    else
      none
  | .clearChan =>
    some { s with proc := update s.proc p { s.proc p with pc := .sleepUnlock, chan := false } }
  | .sleepUnlock => some ({ s with ptable := none }.goto p .reacquire)
  | .reacquire => if s.lk = none then some ({ s with lk := some p }.goto p .test) else none
  | .setLocked => some ({ s with locked := 1 }.goto p .setPid)
  | .setPid => some ({ s with pid := pid p }.goto p .release)
  | .release => some ({ s with lk := none }.goto p .critical)
  | .critical => some (s.goto p .releaseAcquire)
  | .releaseAcquire => if s.lk = none then some ({ s with lk := some p }.goto p .clearLocked) else none
  | .clearLocked => some ({ s with locked := 0 }.goto p .clearPid)
  | .clearPid => some ({ s with pid := 0 }.goto p .wakeupAcquire)
  | .wakeupAcquire =>
    if s.ptable = none then some ({ s with ptable := some p }.goto p .wakeup1) else none
  | .wakeup1 => some (s.wakeup1.goto p .wakeupRelease)
  | .wakeupRelease => some ({ s with ptable := none }.goto p .releaseRelease)
  | .releaseRelease => some ({ s with lk := none }.goto p .idle)

end State

/-! ### What the positions mean -/

namespace Pc

def HoldsLk : Pc → Prop
  | .test | .sleepAcquire | .sleepRelease | .setLocked | .setPid | .release | .clearLocked | .clearPid
  | .wakeupAcquire | .wakeup1 | .wakeupRelease | .releaseRelease => True
  | _ => False

def HoldsPtable : Pc → Prop
  | .sleepRelease | .setChan | .setSleeping | .sched | .clearChan | .sleepUnlock | .wakeup1
  | .wakeupRelease => True
  | _ => False

/-- From `lk->locked = 1` to `lk->locked = 0`. -/
def Inside : Pc → Prop
  | .setPid | .release | .critical | .releaseAcquire | .clearLocked => True
  | _ => False

/-- Has returned from `acquiresleep` and not yet begun to give the lock back. -/
def Between : Pc → Prop
  | .critical | .releaseAcquire => True
  | _ => False

def Owes : Pc → Prop
  | .clearPid | .wakeupAcquire | .wakeup1 => True
  | _ => False

/-- The fields of the lock that the process at this position relies on. -/
def At (locked : UInt32) (pid mypid : Int) : Pc → Prop
  | .sleepAcquire | .sleepRelease => locked ≠ 0
  | .setLocked | .clearPid => locked = 0
  | .release | .critical | .releaseAcquire | .clearLocked => pid = mypid
  | _ => True

/-- The lock is free and `lk->pid` not yet cleared. -/
def Clears : Pc → Prop
  | .clearPid => True
  | _ => False

end Pc

namespace Proc

def Waits (x : Proc) : Prop :=
  match x.pc with
  | .setChan | .setSleeping | .sched => True
  | .switched => x.sleeping = true
  | _ => False

def Shape (x : Proc) : Prop :=
  match x.pc with
  | .setSleeping => x.sleeping = false ∧ x.chan = true
  | .sched => x.sleeping = true ∧ x.chan = true
  | .switched => x.sleeping = true → x.chan = true
  | _ => x.sleeping = false

end Proc

structure State.Inv {n : Nat} (pid : Fin n → Int) (s : State n) : Prop where
  lk : Mutex s.lk fun p => (s.proc p).pc.HoldsLk
  ptable : Mutex s.ptable fun p => (s.proc p).pc.HoldsPtable
  inside : LockWord s.locked fun p => (s.proc p).pc.Inside
  at_pc : ∀ p, (s.proc p).pc.At s.locked s.pid (pid p)
  clear : s.locked = 0 → s.pid = 0 ∨ ∃ p, (s.proc p).pc.Clears
  shape : ∀ p, (s.proc p).Shape
  answered : Answered (fun p => (s.proc p).Waits) (s.locked ≠ 0) fun p => (s.proc p).pc.Owes

namespace State

variable {n : Nat} {pid : Fin n → Int} {s s' : State n} {p q : Fin n}

theorem inv_init : (init : State n).Inv pid where
  lk _ := ⟨False.elim, nofun⟩
  ptable _ := ⟨False.elim, nofun⟩
  inside := .free fun _ => id
  at_pc _ := trivial
  clear _ := .inl rfl
  shape _ := rfl
  answered := .nobody fun _ => id

theorem Inv.move (hinv : s.Inv pid) {x : Proc} {pc : Pc} (hpc : (s.proc p).pc = pc)
    {lk ptable : Option (Fin n)} (hlk : Mutex.Move s.lk p pc.HoldsLk x.pc.HoldsLk lk)
    (hptable : Mutex.Move s.ptable p pc.HoldsPtable x.pc.HoldsPtable ptable)
    (hinside : x.pc.Inside ↔ pc.Inside) (hat : x.pc.At s.locked s.pid (pid p)) (hclears : ¬ pc.Clears)
    (hshape : x.Shape) (hwaits : x.Waits → Proc.Waits { s.proc p with pc := pc } ∨ s.locked ≠ 0)
    (howes : pc.Owes → x.pc.Owes ∨ ∀ q, ¬ (s.proc q).Waits) :
    Inv pid { s with lk := lk, ptable := ptable, proc := update s.proc p x } where
  lk := hinv.lk.move (P := fun x : Proc => x.pc.HoldsLk) (by rwa [hpc])
  ptable := hinv.ptable.move (P := fun x : Proc => x.pc.HoldsPtable) (by rwa [hpc])
  inside := hinv.inside.update_keep (P := fun x : Proc => x.pc.Inside) (by rwa [hpc])
  at_pc := (Function.forall_update_iff s.proc fun q x => x.pc.At s.locked s.pid (pid q)).mpr
    ⟨hat, fun q _ => hinv.at_pc q⟩
  clear hzero := by
    refine (hinv.clear hzero).imp_right fun ⟨r, hr⟩ => ⟨r, ?_⟩
    have hrp : r ≠ p := by
      rintro rfl
      rw [hpc] at hr
      exact hclears hr
    change (update s.proc p x r).pc.Clears
    rw [update_of_ne hrp]
    exact hr
  shape := (Function.forall_update_iff s.proc fun _ x => x.Shape).mpr ⟨hshape, fun q _ => hinv.shape q⟩
  answered := hinv.answered.move (D := fun x : Proc => x.pc.Owes) (by rwa [← hpc] at hwaits) (by rwa [hpc])

/-- Only the holder of `lk->lk` relies on more than `lk->pid`, and only inside. -/
theorem Inv.at_other (hinv : s.Inv pid) (hp : (s.proc p).pc.HoldsLk) (hq : q ≠ p) (locked : UInt32)
    {pid' : Int} (hsame : (s.proc q).pc.Inside → pid' = s.pid) : (s.proc q).pc.At locked pid' (pid q) := by
  have hnot : ¬ (s.proc q).pc.HoldsLk := fun hin => hq (hinv.lk.unique hp hin)
  have hat := hinv.at_pc q
  revert hnot hat hsame
  cases (s.proc q).pc with
  | critical | releaseAcquire =>
    intro hsame _ hat
    exact (hsame trivial).trans hat
  | sleepAcquire | sleepRelease | setLocked | clearPid | release | clearLocked =>
    intro _ hnot
    exact absurd trivial hnot
  | _ =>
    intros
    trivial

/-- The holder of `lk->lk` assigns to the other fields. -/
theorem Inv.assign (hinv : s.Inv pid) {pc pc' : Pc} {locked : UInt32} {pid' : Int}
    (hpc : (s.proc p).pc = pc) (hp : pc.HoldsLk) (hp' : pc'.HoldsLk)
    (hptable : pc'.HoldsPtable ↔ pc.HoldsPtable)
    (hinside : LockWord.Move s.locked pc.Inside pc'.Inside locked) (hat : pc'.At locked pid' (pid p))
    (hsame : ∀ q, q ≠ p → (s.proc q).pc.Inside → pid' = s.pid) (hclear : locked = 0 → pid' = 0 ∨ pc'.Clears)
    (hshape : { s.proc p with pc := pc' : Proc }.Shape)
    (hwaits : ¬ { s.proc p with pc := pc' : Proc }.Waits) (hreason : locked ≠ 0 ∨ pc'.Owes) :
    Inv pid ({ s with locked := locked, pid := pid' }.goto p pc') where
  lk := hinv.lk.update_keep (P := fun x : Proc => x.pc.HoldsLk) (by rw [hpc]; exact iff_of_true hp' hp)
  ptable := hinv.ptable.update_keep (P := fun x : Proc => x.pc.HoldsPtable) (by rwa [hpc])
  inside := hinv.inside.move (P := fun x : Proc => x.pc.Inside) (by rwa [hpc])
  at_pc := (Function.forall_update_iff s.proc fun q x => x.pc.At locked pid' (pid q)).mpr
    ⟨hat, fun q hq => hinv.at_other (by rwa [hpc]) hq locked (hsame q hq)⟩
  clear hzero := (hclear hzero).imp_right fun hclears => ⟨p, by
    change (update s.proc p { s.proc p with pc := pc' } p).pc.Clears
    rwa [update_self]⟩
  shape := (Function.forall_update_iff s.proc fun _ x => x.Shape).mpr ⟨hshape, fun q _ => hinv.shape q⟩
  answered := hinv.answered.update (D := fun x : Proc => x.pc.Owes) (fun h => absurd h hwaits)
    (fun _ => hreason) fun _ => hreason

/-! ### `wakeup1` -/

theorem wakeup1_pc (s : State n) (q : Fin n) : (s.wakeup1.proc q).pc = (s.proc q).pc := by
  unfold State.wakeup1
  dsimp only
  split <;> rfl

section

variable (hinv : s.Inv pid) (hpc : (s.proc p).pc = .wakeup1)
include hinv hpc

theorem Inv.pc_of_wakeup1 (hq : (s.proc q).pc.HoldsPtable) : (s.proc q).pc = .wakeup1 := by
  have hp : (s.proc p).pc.HoldsPtable := by
    rw [hpc]
    trivial
  rw [hinv.ptable.unique hp hq]
  exact hpc

theorem Inv.wakeup1_shape (q : Fin n) : (s.wakeup1.proc q).Shape := by
  have hshape := hinv.shape q
  have hholds := hinv.pc_of_wakeup1 hpc (q := q)
  unfold State.wakeup1
  dsimp only
  split_ifs
  · revert hshape hholds
    unfold Proc.Shape
    dsimp only
    cases (s.proc q).pc with
    | sched => exact fun _ hholds => nomatch hholds trivial
    | setSleeping => exact fun hshape _ => ⟨rfl, hshape.2⟩
    | switched => exact fun _ _ => nofun
    | _ => exact fun _ _ => rfl
  · exact hshape

theorem Inv.not_waits_wakeup1 (q : Fin n) : ¬ (s.wakeup1.proc q).Waits := by
  have hshape := hinv.shape q
  have hholds := hinv.pc_of_wakeup1 hpc (q := q)
  unfold Proc.Waits
  rw [wakeup1_pc]
  revert hshape hholds
  unfold Proc.Shape State.wakeup1
  dsimp only
  cases (s.proc q).pc with
  | setChan | setSleeping | sched => exact fun _ hholds _ => nomatch hholds trivial
  | switched =>
    intro hshape _ hsleeping
    split_ifs at hsleeping with hwoken
    · exact nomatch hsleeping
    · exact hwoken ⟨hsleeping, hshape hsleeping⟩
  | _ => exact fun _ _ => id

theorem Inv.wakeup1 : Inv pid s.wakeup1 where
  lk := by
    simp only [wakeup1_pc]
    exact hinv.lk
  ptable := by
    simp only [wakeup1_pc]
    exact hinv.ptable
  inside := by
    simp only [wakeup1_pc]
    exact hinv.inside
  at_pc q := by
    rw [wakeup1_pc]
    exact hinv.at_pc q
  clear := by
    simp only [wakeup1_pc]
    exact hinv.clear
  shape := hinv.wakeup1_shape hpc
  answered := .nobody (hinv.not_waits_wakeup1 hpc)

end

/-! ### Every step -/

theorem Inv.step (hinv : s.Inv pid) (hstep : s.step pid p = some s') : s'.Inv pid := by
  have hshape := hinv.shape p
  have hat := hinv.at_pc p
  unfold Proc.Shape at hshape
  unfold State.step at hstep
  cases hpc : (s.proc p).pc <;> simp only [hpc] at hstep hshape hat
  case idle | clearChan | critical =>
    cases hstep
    exact hinv.move hpc (.keep .rfl) (.keep .rfl) .rfl hat id hshape nofun .inl
  case acquire | reacquire | releaseAcquire =>
    split_ifs at hstep with hfree
    cases hstep
    exact hinv.move hpc (.acquire hfree trivial) (.keep .rfl) .rfl hat id hshape nofun .inl
  case test =>
    cases hstep
    split_ifs with hlocked
    · exact hinv.move hpc (.keep .rfl) (.keep .rfl) .rfl hlocked id hshape nofun .inl
    · exact hinv.move hpc (.keep .rfl) (.keep .rfl) .rfl (not_not.mp hlocked) id hshape nofun .inl
  case sleepAcquire | wakeupAcquire =>
    split_ifs at hstep with hfree
    cases hstep
    exact hinv.move hpc (.keep .rfl) (.acquire hfree trivial) .rfl hat id hshape nofun .inl
  case sleepRelease =>
    cases hstep
    exact hinv.move hpc (.release trivial id) (.keep .rfl) .rfl trivial id hshape (fun _ => .inr hat) .inl
  case setChan =>
    cases hstep
    exact hinv.move hpc (.keep .rfl) (.keep .rfl) .rfl trivial id ⟨hshape, rfl⟩ .inl .inl
  case setSleeping =>
    cases hstep
    exact hinv.move hpc (.keep .rfl) (.keep .rfl) .rfl trivial id ⟨rfl, hshape.2⟩ .inl .inl
  case sched =>
    cases hstep
    exact hinv.move hpc (.keep .rfl) (.release trivial id) .rfl trivial id (fun _ => hshape.2)
      (fun _ => .inl trivial) .inl
  case switched =>
    split_ifs at hstep with hrun
    cases hstep
    exact hinv.move hpc (.keep .rfl) (.acquire hrun.1 trivial) .rfl trivial id hrun.2 nofun .inl
  case sleepUnlock | wakeupRelease =>
    cases hstep
    exact hinv.move hpc (.keep .rfl) (.release trivial id) .rfl trivial id hshape nofun .inl
  case setLocked =>
    cases hstep
    exact hinv.assign hpc trivial trivial .rfl (.enter hat trivial) trivial (fun _ _ _ => rfl) nofun hshape
      id (.inl (by decide))
  case setPid =>
    cases hstep
    have hin : (s.proc p).pc.Inside := by
      rw [hpc]
      trivial
    have hlocked : s.locked ≠ 0 := fun hzero => hinv.inside.not_of_zero hzero hin
    exact hinv.assign hpc trivial trivial .rfl (.keep .rfl) rfl
      (fun q hq hinq => absurd (hinv.inside.unique hin hinq) hq) (fun hzero => absurd hzero hlocked) hshape id
      (.inl hlocked)
  case release | releaseRelease =>
    cases hstep
    exact hinv.move hpc (.release trivial id) (.keep .rfl) .rfl hat id hshape nofun .inl
  case clearLocked =>
    cases hstep
    exact hinv.assign hpc trivial trivial .rfl (.leave trivial id) rfl (fun _ _ _ => rfl)
      (fun _ => .inr trivial) hshape id (.inr trivial)
  case clearPid =>
    cases hstep
    exact hinv.assign hpc trivial trivial .rfl (.keep .rfl) trivial
      (fun _ _ hin => absurd hin (hinv.inside.not_of_zero hat)) (fun _ => .inl rfl) hshape id (.inr trivial)
  case wakeup1 =>
    cases hstep
    have hinv' := hinv.wakeup1 hpc
    have hpc' : (s.wakeup1.proc p).pc = .wakeup1 := (wakeup1_pc s p).trans hpc
    have hshape' := hinv'.shape p
    unfold Proc.Shape at hshape'
    rw [hpc'] at hshape'
    exact hinv'.move hpc' (.keep .rfl) (.keep .rfl) .rfl trivial id
      hshape' nofun fun _ => .inr (hinv.not_waits_wakeup1 hpc)

theorem inv_of_reaches (hrun : Reaches (State.step pid) (fun _ _ => True) init s) : s.Inv pid :=
  hrun.invariant inv_init fun _ _ _ hinv _ hstep => hinv.step hstep

theorem Inv.waits_of_sleeping (hinv : s.Inv pid) (hsleeping : (s.proc p).sleeping = true) :
    (s.proc p).Waits := by
  have hshape := hinv.shape p
  revert hshape
  unfold Proc.Shape Proc.Waits
  cases (s.proc p).pc with
  | sched | setSleeping => exact fun _ => trivial
  | switched => exact fun _ => hsleeping
  | _ =>
    intro hshape
    rw [hsleeping] at hshape
    exact nomatch hshape

end State

namespace Pc

theorem Between.inside {pc : Pc} (hpc : pc.Between) : pc.Inside := by
  cases pc with
  | critical | releaseAcquire => trivial
  | _ => exact hpc.elim

theorem Inside.between {pc : Pc} (hpc : pc.Inside) (hlk : ¬ pc.HoldsLk) : pc.Between := by
  cases pc with
  | critical | releaseAcquire => trivial
  | setPid | release | clearLocked => exact absurd trivial hlk
  | _ => exact hpc.elim

theorem Owes.holdsLk {pc : Pc} (hpc : pc.Owes) : pc.HoldsLk := by
  cases pc with
  | clearPid | wakeupAcquire | wakeup1 => trivial
  | _ => exact hpc.elim

theorem Clears.holdsLk {pc : Pc} (hpc : pc.Clears) : pc.HoldsLk := by
  cases pc with
  | clearPid => trivial
  | _ => exact hpc.elim

theorem At.pid_eq {pc : Pc} {locked : UInt32} {pid mypid : Int} (hat : pc.At locked pid mypid)
    (hpc : pc.Between) : pid = mypid := by
  cases pc with
  | critical | releaseAcquire => exact hat
  | _ => exact hpc.elim

end Pc

namespace State.Inv

variable {n : Nat} {pid : Fin n → Int} {s : State n} (hinv : s.Inv pid)
include hinv

theorem not_holdsLk (hfree : s.lk = none) (p : Fin n) : ¬ (s.proc p).pc.HoldsLk := by
  intro hp
  have howner := (hinv.lk p).mp hp
  rw [hfree] at howner
  cases howner

theorem locked_of_between {p : Fin n} (hp : (s.proc p).pc.Between) : s.locked = 1 :=
  hinv.inside.eq_one fun hzero => hinv.inside.not_of_zero hzero hp.inside

/-- With `lk->lk` free, `locked` and `pid` say whether somebody has the lock. -/
theorem locked_cases (hfree : s.lk = none) :
    s.locked = 1 ∧ (∃ p, (s.proc p).pc.Between) ∨ s.locked = 0 ∧ s.pid = 0 := by
  rcases hinv.inside with ⟨hzero, -⟩ | ⟨hone, p, hmutex⟩
  · refine .inr ⟨hzero, (hinv.clear hzero).resolve_right ?_⟩
    rintro ⟨r, hr⟩
    exact hinv.not_holdsLk hfree r hr.holdsLk
  · exact .inl ⟨hone, p, ((hmutex p).mpr rfl).between (hinv.not_holdsLk hfree p)⟩

end State.Inv

/-- In every interleaving at most one process is between `acquiresleep` and `releasesleep`; then
`locked` is 1 and `pid` is that process's; with `lk->lk` free they are so only then; and when both locks
are free and `locked` is 0, no process sleeps on the lock. -/
theorem sleeplock_correct {n : Nat} {pid : Fin n → Int} {s : State n}
    (hrun : Reaches (State.step pid) (fun _ _ => True) .init s) :
    (∀ p q, (s.proc p).pc.Between → (s.proc q).pc.Between → p = q) ∧
    (∀ p, (s.proc p).pc.Between → s.locked = 1 ∧ s.pid = pid p) ∧
    (s.lk = none → s.locked = 1 ∧ (∃ p, (s.proc p).pc.Between) ∨ s.locked = 0 ∧ s.pid = 0) ∧
    (s.lk = none → s.ptable = none → s.locked = 0 →
      ∀ p, ¬ ((s.proc p).sleeping = true ∧ (s.proc p).chan = true)) := by
  have hinv := State.inv_of_reaches hrun
  refine ⟨fun p q hp hq => hinv.inside.unique hq.inside hp.inside,
    fun p hp => ⟨hinv.locked_of_between hp, (hinv.at_pc p).pid_eq hp⟩, hinv.locked_cases,
    fun hfree _ hzero p hp => ?_⟩
  rcases hinv.answered p (hinv.waits_of_sleeping hp.1) with hlocked | ⟨r, hr⟩
  · exact hlocked hzero
  · exact hinv.not_holdsLk hfree r hr.holdsLk

/-- Process 1 finds the lock taken by process 0 and goes to sleep; process 0 wakes it, and it gets the
lock. -/
theorem sleeplock_correct_handover : ∃ s s' : State 2,
    (s.proc 1).sleeping = true ∧ s.pid = 7 ∧ s'.pid = 9 ∧ (s'.proc 1).pc = .critical ∧ s'.locked = 1 := by
  let pid : Fin 2 → Int := fun p => if p = 0 then 7 else 9
  have hrun : (runActs (State.step pid) (fun _ _ => True)
      ([0, 0, 0, 0, 0, 0] ++ List.replicate 8 1) .init).map (fun s => ((s.proc 1).sleeping, s.pid))
      = some (true, 7) := by decide +kernel
  have hrun' : (runActs (State.step pid) (fun _ _ => True)
      ([0, 0, 0, 0, 0, 0] ++ List.replicate 8 1 ++ List.replicate 9 0 ++ List.replicate 8 1) .init).map
      (fun s => ((s.proc 1).pc, s.pid)) = some (.critical, 9) := by decide +kernel
  obtain ⟨s, hs, heq⟩ := Option.map_eq_some_iff.mp hrun
  obtain ⟨s', hs', heq'⟩ := Option.map_eq_some_iff.mp hrun'
  obtain ⟨hsleeping, hpid⟩ := Prod.mk.inj heq
  obtain ⟨hpc, hpid'⟩ := Prod.mk.inj heq'
  refine ⟨s, s', hsleeping, hpid, hpid', hpc, ?_⟩
  refine ((sleeplock_correct (Reaches.of_runActs _ .refl hs')).2.1 1 ?_).1
  rw [hpc]
  trivial

/-! ### `holdingsleep` -/

/-- `holdingsleep`, which waits while `lk->lk` is taken. -/
def State.holdingsleep {n : Nat} (s : State n) : Option UInt32 :=
  if s.lk = none then some s.locked else none

/-- The functions that begin with `if(!holdingsleep(..)) panic(..)`. -/
inductive Guard where
  | bwrite
  | brelse
  | iderw
  /-- With what `ip->ref` is. -/
  | iunlock (ref : Int)

def Guard.check (r : UInt32) : Guard → Except String Unit
  | .bwrite => if r = 0 then .error "bwrite" else .ok ()
  | .brelse => if r = 0 then .error "brelse" else .ok ()
  | .iderw => if r = 0 then .error "iderw: buf not locked" else .ok ()
  | .iunlock ref => if r = 0 ∨ ref < 1 then .error "iunlock" else .ok ()

/-- `holdingsleep` says whether the caller `p` has the lock, and every function that asks stops a caller
that does not, iff no other process has it. -/
theorem holdingsleep_identifies {n : Nat} {pid : Fin n → Int} {s : State n} {p : Fin n} {r : UInt32}
    (hrun : Reaches (State.step pid) (fun _ _ => True) .init s) (hcall : s.holdingsleep = some r) :
    (r ≠ 0 ↔ (s.proc p).pc.Between) ∧
        (¬ (s.proc p).pc.Between → ∀ g : Guard, ∃ msg, g.check r = .error msg) ↔
      ∀ q, q ≠ p → ¬ (s.proc q).pc.Between := by
  have hinv := State.inv_of_reaches hrun
  obtain ⟨hfree, hr⟩ := Option.ite_none_right_eq_some.mp hcall
  cases hr
  have hlocked : ∀ q, (s.proc q).pc.Between → s.locked ≠ 0 := fun q hq => by
    rw [hinv.locked_of_between hq]
    decide
  refine ⟨fun ⟨hiff, _⟩ q hne hq => ?_, fun hother => ?_⟩
  · have hp := hiff.mp (hlocked q hq)
    exact hne (hinv.inside.unique hp.inside hq.inside)
  have hiff : s.locked ≠ 0 ↔ (s.proc p).pc.Between := by
    refine ⟨fun hne => ?_, hlocked p⟩
    rcases hinv.locked_cases hfree with ⟨-, q, hq⟩ | ⟨hzero, -⟩
    · by_cases hqp : q = p
      · exact hqp ▸ hq
      · exact absurd hq (hother q hqp)
    · exact absurd hzero hne
  refine ⟨hiff, fun hnot g => ?_⟩
  have hzero : s.locked = 0 := not_not.mp fun h => hnot (hiff.mp h)
  cases g with
  | bwrite | brelse | iderw => exact ⟨_, if_pos hzero⟩
  | iunlock ref => exact ⟨_, if_pos (.inl hzero)⟩

theorem reaches_critical : ∃ s : State 2, Reaches (State.step fun _ => 7) (fun _ _ => True) .init s ∧
    (s.proc 0).pc = .critical ∧ (s.proc 1).pc = .idle ∧ s.holdingsleep = some 1 := by
  have hrun : (runActs (State.step fun _ : Fin 2 => 7) (fun _ _ => True) [0, 0, 0, 0, 0, 0] .init).map
      (fun s => ((s.proc 0).pc, (s.proc 1).pc, s.holdingsleep)) = some (.critical, .idle, some 1) := by
    decide +kernel
  obtain ⟨s, hreach, heq⟩ := Reaches.of_map hrun
  exact ⟨s, hreach, by simpa using heq⟩

/-- Process 0 has the lock, and process 1 has not. -/
theorem holdingsleep_identifies_holder : ∃ s : State 2, (s.proc 0).pc = .critical ∧
    ∃ r, s.holdingsleep = some r ∧ (r ≠ 0 ↔ (s.proc 0).pc.Between) ∧
      (¬ (s.proc 0).pc.Between → ∀ g : Guard, ∃ msg, g.check r = .error msg) := by
  obtain ⟨s, hreach, hpc, hidle, hcall⟩ := reaches_critical
  refine ⟨s, hpc, 1, hcall, (holdingsleep_identifies (p := 0) hreach hcall).mpr fun q hq => ?_⟩
  obtain rfl : q = 1 := by omega
  rw [hidle]
  exact id

/-- While process 0 has the lock, `holdingsleep` answers process 1, which has not, with 1, and no check
stops it. -/
theorem holdingsleep_of_other : ∃ s : State 2,
    Reaches (State.step fun _ => 7) (fun _ _ => True) .init s ∧ (s.proc 0).pc = .critical ∧
      (s.proc 1).pc = .idle ∧ s.holdingsleep = some 1 ∧
      ∀ g ∈ [Guard.bwrite, .brelse, .iderw, .iunlock 1], g.check 1 = .ok () := by
  obtain ⟨s, hreach, hpc, hidle, hcall⟩ := reaches_critical
  exact ⟨s, hreach, hpc, hidle, hcall, by simp [Guard.check]⟩

end Xv6.Sleeplock
