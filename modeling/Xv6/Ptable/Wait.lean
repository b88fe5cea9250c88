import Xv6.Ptable.Inv

/-!
# Exit and wait

A child that exits is returned once, to its parent; `wait` and `thread_join` fail only for a caller
without such a child or one that is killed; and nobody sleeps there over a child it could return.
-/

namespace Xv6.Ptable.State

/-- The action is a pass over the table in a call of `wait` or `thread_join` by `p`: the first one, or
one after a wakeup. -/
def Pass (s : State) (call : Reaper) (p : Slot) : Act → Prop
  | .wait r => r = p ∧ call = .wait
  | .threadJoin r => r = p ∧ call = .threadJoin
  | .schedule r => r = p ∧ (s.proc p).pc = .reap call
  | _ => False

variable {s : State}

theorem pass_eq {call : Reaper} {p : Slot} {a : Act} {s' : State} (hpass : s.Pass call p a)
    (hstep : s.step a = some s') : ∃ t : State, s' = t.reap call p ∧ t.family = s.family ∧
      (t.proc p).killed = (s.proc p).killed := by
  cases a with
  | schedule r =>
    obtain ⟨rfl, hpc⟩ := hpass
    obtain ⟨hstate, ⟨⟩⟩ := Option.ite_none_right_eq_some.mp hstep
    refine ⟨(s.setProc r { s.proc r with state := .running }).setProc r
      { s.proc r with state := .running, chan := none }, ?_, ?_, ?_⟩
    · simp only [resume, goOn, setProc_self, hpc]
    · rw [family_setProc_of_member (by rw [setProc_self]; rfl), family_setProc_of_member]
      simp [Proc.member, hstate, ProcState.kind]
    · rw [setProc_self]
  | wait r | threadJoin r =>
    obtain ⟨rfl, rfl⟩ := hpass
    obtain ⟨-, ⟨⟩⟩ := Option.ite_none_right_eq_some.mp hstep
    exact ⟨s, rfl, rfl, rfl⟩
  | _ => exact hpass.elim

theorem pass_fails {call : Reaper} {p : Slot} {a : Act} {s' : State} (hpass : s.Pass call p a)
    (hstep : s.step a = some s') (hreturn : (s'.proc p).pc = .user) (hreaped : s'.reaped = s.reaped) :
    (∀ q, ¬ s.Child call p q) ∨ (s.proc p).killed = true := by
  obtain ⟨t, rfl, hfamily, hkilled⟩ := pass_eq hpass hstep
  unfold reap at hreturn hreaped
  cases hscan : t.scan call p with
  | found q =>
    rw [hscan] at hreaped
    have hlog : t.reaped = s.reaped := congrArg Family.reaped hfamily
    have hlength := congrArg List.length (hreaped.trans hlog.symm)
    simp [setProc, clear] at hlength
  | fails =>
    rw [← hkilled]
    exact (scan_fails hscan).imp_left fun h q hq => h q (child_of_family hfamily.symm hq)
  | sleeps =>
    rw [hscan] at hreturn
    simp [sleep] at hreturn

/-- Exit and wait, in every state that a run reaches. -/
theorem exit_wait (hrun : Reaches step (fun _ _ => True) State.init s) :
    (s.reaped.map Reaped.child).Nodup ∧ (∀ e ∈ s.reaped, e.parent = some e.caller) ∧
    (∀ p a s', s.Pass .wait p a → s.step a = some s' → (s'.proc p).pc = .user →
      s'.reaped = s.reaped → (∀ q, (s.proc q).parent ≠ some p) ∨ (s.proc p).killed = true) ∧
    (∀ p q, (s.proc p).state = .sleeping → (s.proc p).pc = .reap .wait →
      (s.proc q).parent = some p → (s.proc q).state ≠ .zombie) ∧
    (∀ p q, (s.proc p).state = .sleeping → (s.proc p).pc = .reap .threadJoin →
      (s.proc q).parent = some p → (s.proc q).isThread = true → (s.proc q).state ≠ .zombie) := by
  have hs := inv_of_reaches hrun
  refine ⟨hs.family.serials.once, fun e he => (hs.family.tree.caller e he).1, ?_, ?_, ?_⟩
  · intro p a s' hpass hstep hreturn hreaped
    refine (pass_fails hpass hstep hreturn hreaped).imp_left fun hnone q hq => hnone q ⟨hq, nofun⟩
  · intro p q hstate hpc hparent
    exact hs.awake p q .wait ⟨hstate, hpc⟩ ⟨hparent, nofun⟩
  · intro p q hstate hpc hparent hthread
    exact hs.awake p q .threadJoin ⟨hstate, hpc⟩ ⟨hparent, fun _ => hthread⟩

/-- `init` sleeps in `wait`, its child dies before the grandchild, and `init` is woken for both. -/
theorem exit_wait_orphan : ∃ s : State, Reaches step (fun _ _ => True) State.init s ∧
      s.reaped.map Reaped.child = [2, 1] ∧ (s.reaped.map Reaped.child).Nodup ∧
      ∀ e ∈ s.reaped, e.parent = some e.caller := by
  have hrun : (runActs step (fun _ _ => True)
      (.schedule 0 :: creates 0 .fork ++ .wait 0 :: .schedule 1 :: creates 1 .fork ++
        [.exit 1, .schedule 0, .wait 0, .schedule 2, .threadExit 2, .schedule 0])
      State.init).map (fun s => s.reaped.map Reaped.child) = some [2, 1] := by
    decide +kernel
  obtain ⟨s, hreach, heq⟩ := Reaches.of_map hrun
  obtain ⟨honce, hparent, -⟩ := exit_wait hreach
  exact ⟨s, hreach, heq, honce, hparent⟩

end Xv6.Ptable.State
