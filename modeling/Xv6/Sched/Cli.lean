import Mathlib.Data.Multiset.ZeroCons
import Mathlib.Logic.Relation
import Mathlib.Algebra.Order.Ring.Int

/-!
# Interrupts while spin locks are held

`ncli` and `intena` belong to a CPU, the nesting of `pushcli` to a kernel thread, which may move to
another one. `acquire` and `release` count as their `pushcli` and `popcli`.
-/

namespace Xv6.Cli

structure Thread where
  /-- Its `pushcli` without `popcli`. -/
  depth : Nat
  /-- Whether interrupts were on at the outermost, if the thread made it. -/
  enabled : Option Bool

structure Cpu extends Thread where
  ncli : Int
  intena : Bool
  /-- `FL_IF` -/
  flag : Bool
  /-- A process runs, not `scheduler`. -/
  proc : Bool

def Cpu.pushcli (x : Cpu) : Cpu :=
  { x with
    flag := false
    intena := if x.ncli = 0 then x.flag else x.intena
    ncli := x.ncli + 1
    depth := x.depth + 1
    enabled := if x.depth = 0 then some x.flag else x.enabled }

def Cpu.popcli (x : Cpu) : Except String Cpu :=
  if x.flag then
    .error "popcli - interruptible"
  else if x.ncli - 1 < 0 then
    .error "popcli"
  else
    .ok { x with
      ncli := x.ncli - 1
      flag := if x.ncli - 1 = 0 ∧ x.intena then true else x.flag
      depth := x.depth - 1 }

/-- `sched` up to `swtch`; `holding` is of `ptable.lock`, and `running` that `p->state` is `RUNNING`. -/
def Cpu.sched (x : Cpu) (holding running : Bool) : Except String Bool :=
  if !holding then
    .error "sched ptable.lock"
  else if x.ncli ≠ 1 then
    .error "sched locks"
  else if running then
    .error "sched running"
  else if x.flag then
    .error "sched interruptible"
  else
    .ok x.intena

structure State (m : Nat) where
  cpu : Fin m → Cpu
  /-- The threads that do not run, with the `intena` of their `sched`, none before the first run. -/
  parked : Multiset (Thread × Option Bool)

namespace State

variable {m : Nat}

def init : State m where
  cpu _ := { depth := 0, enabled := none, ncli := 0, intena := false, flag := false, proc := false }
  parked := 0

def setCpu (s : State m) (c : Fin m) (x : Cpu) : State m :=
  { s with cpu := Function.update s.cpu c x }

/-- `setFlag` is `sti`, `cli`, a trap or the return from one. A new thread begins in `forkret`, with
`ptable.lock` to release. -/
inductive Step (s : State m) : State m → Prop
  | pushcli (c : Fin m) : Step s (s.setCpu c (s.cpu c).pushcli)
  | popcli (c : Fin m) {x : Cpu} (hdepth : 0 < (s.cpu c).depth) (hx : (s.cpu c).popcli = .ok x) :
      Step s (s.setCpu c x)
  | setFlag (c : Fin m) (b : Bool) (hdepth : (s.cpu c).depth = 0) :
      Step s (s.setCpu c { s.cpu c with flag := b })
  | allocproc : Step s { s with parked := (⟨1, none⟩, none) ::ₘ s.parked }
  | sched (c : Fin m) {intena : Bool} (hproc : (s.cpu c).proc = true)
      (hsched : (s.cpu c).sched true false = .ok intena) :
      Step s { s.setCpu c { s.cpu c with proc := false, depth := 1, enabled := none } with
        parked := ((s.cpu c).toThread, some intena) ::ₘ s.parked }
  | scheduler (c : Fin m) (t : Thread) (intena : Option Bool) (rest : Multiset (Thread × Option Bool))
      (hproc : (s.cpu c).proc = false) (hdepth : (s.cpu c).depth = 1)
      (ht : s.parked = (t, intena) ::ₘ rest) : Step s { s.setCpu c { s.cpu c with
        toThread := t, proc := true, intena := intena.getD (s.cpu c).intena } with parked := rest }

end State

/-! ### What every step keeps -/

def Cpu.Inv (x : Cpu) : Prop :=
  x.ncli = x.depth ∧ (0 < x.depth → x.flag = false ∧ ∀ b, x.enabled = some b → x.intena = b)

structure State.Inv {m : Nat} (s : State m) : Prop where
  cpu : ∀ c, (s.cpu c).Inv
  parked : ∀ y ∈ s.parked, y.1.depth = 1 ∧ ∀ b, y.1.enabled = some b → y.2 = some b

theorem Cpu.Inv.pushcli {x : Cpu} (hx : x.Inv) : x.pushcli.Inv := by
  unfold Cpu.Inv Cpu.pushcli at *
  grind

/-- Neither panic happens, and the last `popcli` gives the thread its interrupts back. -/
theorem Cpu.Inv.popcli {x : Cpu} (hx : x.Inv) (hdepth : 0 < x.depth) :
    ∃ y, x.popcli = .ok y ∧ y.Inv ∧ (y.ncli = 0 → ∀ b, x.enabled = some b → y.flag = b) := by
  have hncli := hx.1
  obtain ⟨hflag, hintena⟩ := hx.2 hdepth
  unfold Cpu.popcli Cpu.Inv
  rw [hflag, if_neg Bool.false_ne_true, if_neg (by omega)]
  exact ⟨_, rfl, by grind, by grind⟩

namespace State

variable {m : Nat} {s s' : State m}

theorem Inv.setCpu (hinv : s.Inv) {c : Fin m} {x : Cpu} (hx : x.Inv) : ∀ c', ((s.setCpu c x).cpu c').Inv :=
  (Function.forall_update_iff s.cpu fun _ x => x.Inv).mpr ⟨hx, fun c' _ => hinv.cpu c'⟩

theorem Inv.step (hinv : s.Inv) (hstep : s.Step s') : s'.Inv := by
  cases hstep with
  | pushcli c => exact ⟨hinv.setCpu (hinv.cpu c).pushcli, hinv.parked⟩
  | popcli c hdepth hx =>
    obtain ⟨y, hy, hyinv, -⟩ := (hinv.cpu c).popcli hdepth
    cases hy.symm.trans hx
    exact ⟨hinv.setCpu hyinv, hinv.parked⟩
  | setFlag c b hdepth =>
    exact ⟨hinv.setCpu ⟨(hinv.cpu c).1, fun hpos => absurd hdepth hpos.ne'⟩, hinv.parked⟩
  | allocproc => exact ⟨hinv.cpu, Multiset.forall_mem_cons.mpr ⟨⟨rfl, nofun⟩, hinv.parked⟩⟩
  | sched c hproc hsched =>
    obtain ⟨hncli, hin⟩ := hinv.cpu c
    unfold Cpu.sched at hsched
    split_ifs at hsched with _ hone _ hflag
    cases hsched
    refine ⟨hinv.setCpu ⟨not_not.mp hone, fun _ => ⟨Bool.eq_false_iff.mpr hflag, nofun⟩⟩,
      Multiset.forall_mem_cons.mpr ⟨⟨?_, fun b hb => ?_⟩, hinv.parked⟩⟩
    · dsimp only
      omega
    · exact congrArg some ((hin (by omega)).2 b hb)
  | scheduler c t intena rest hproc hdepth ht =>
    obtain ⟨hncli, hin⟩ := hinv.cpu c
    have hparked := hinv.parked
    rw [ht] at hparked
    obtain ⟨⟨hone, hsaved⟩, hrest⟩ := Multiset.forall_mem_cons.mp hparked
    refine ⟨hinv.setCpu ⟨?_, fun _ => ⟨(hin (by omega)).1, fun b hb => ?_⟩⟩, hrest⟩
    · exact hncli.trans (congrArg Nat.cast (hdepth.trans hone.symm))
    · exact congrArg (Option.getD · _) (hsaved b hb)

end State

end Xv6.Cli
