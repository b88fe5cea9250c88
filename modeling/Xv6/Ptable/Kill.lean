import Xv6.Ptable.Entries

/-!
# Kill

`kill` looks for a pid without looking at the state, and an entry that `fork` gives up keeps its pid and
its flag `killed`. So `kill` can set the flag of an entry that nobody uses, and the next process in it is
born killed. When the first entry with the pid is always in use, and no killed entry is given up, `kill`
marks the process it names and no other.
-/

namespace Xv6.Ptable.State

/-- `kill` does not find an unused entry, and no killed entry is given up. -/
def Aimed (s : State) : Act → Prop
  | .kill _ pid => ∀ q, (s.proc q).state = .unused → (s.proc q).pid = pid →
      ∃ r < q, (s.proc r).state ≠ .unused ∧ (s.proc r).pid = pid
  | .kstack p false =>
    match (s.proc p).pc with
    | .kstack _ np => (s.proc np).killed = false
    | _ => True
  | .copy p false =>
    match (s.proc p).pc with
    | .copy .fork np => (s.proc np).killed = false
    | _ => True
  | _ => True

instance (s : State) (a : Act) : Decidable (s.Aimed a) :=
  match a with
  | .kill _ pid => inferInstanceAs (Decidable (∀ q, (s.proc q).state = .unused →
      (s.proc q).pid = pid → ∃ r < q, (s.proc r).state ≠ .unused ∧ (s.proc r).pid = pid))
  | .kstack p false =>
    match h : (s.proc p).pc with
    | .kstack _ np => decidable_of_iff ((s.proc np).killed = false) (by simp only [Aimed, h])
    | .user | .copy _ _ | .ready _ _ | .reap _ | .asleep => .isTrue (by simp only [Aimed, h])
  | .copy p false =>
    match h : (s.proc p).pc with
    | .copy .fork np => decidable_of_iff ((s.proc np).killed = false) (by simp only [Aimed, h])
    | .copy .threadCreate _ | .user | .kstack _ _ | .ready _ _ | .reap _ | .asleep =>
      .isTrue (by simp only [Aimed, h])
  | .kstack _ true | .copy _ true | .schedule _ | .yield _ | .alloc _ _ | .ready _ | .exit _
  | .threadExit _ | .wait _ | .threadJoin _ | .sleep _ _ | .wakeup _ => .isTrue trivial

/-- An unused entry is not killed, and a killed process has been named. -/
def Spared (x : Proc) : Prop :=
  (x.state = .unused → x.killed = false) ∧ (x.killed = true → x.named = true)

theorem local_spared : Local Spared where
  live st chan pc _ hst hx := by
    refine ⟨fun h => ?_, hx.2⟩
    rw [show st = .unused from h] at hst
    rcases hst with h | h <;> cases h
  adopt _ _ hx := hx
  clear _ := ⟨fun _ => rfl, nofun⟩

variable {s : State}

variable {pid : Int}

theorem target?_eq_some {q : Slot} (hfind : s.target? pid = some q) :
    (s.proc q).pid = pid ∧ ∀ r < q, (s.proc r).pid ≠ pid := by
  simpa only [decide_eq_true_eq] using find?_finRange hfind

theorem target?_eq_none (hfind : s.target? pid = none) (q : Slot) : (s.proc q).pid ≠ pid := by
  simpa using List.find?_eq_none.mp hfind q (List.mem_finRange q)

theorem target_used {p : Slot} (haimed : s.Aimed (.kill p pid)) {q : Slot}
    (hfind : s.target? pid = some q) : (s.proc q).state ≠ .unused := by
  obtain ⟨hpid, hfirst⟩ := target?_eq_some hfind
  intro hunused
  obtain ⟨r, hr, -, hpid'⟩ := haimed q hunused hpid
  exact hfirst r hr hpid'

theorem kill_none (hfind : s.target? pid = none) :
    (s.kill pid).1 = -1 ∧ ∀ r, ((s.kill pid).2.proc r).killed = (s.proc r).killed := by
  simp [kill, hfind]

theorem kill_some {q : Slot} (hfind : s.target? pid = some q) :
    (s.kill pid).1 = 0 ∧ ((s.kill pid).2.proc q).killed = true ∧
      ∀ r, r ≠ q → ((s.kill pid).2.proc r).killed = (s.proc r).killed := by
  simp only [kill, hfind, setProc_self]
  exact ⟨trivial, trivial, fun r hr => by rw [setProc_of_ne hr]⟩

theorem all_spared_kill (hs : s.All Spared) {p : Slot}
    (haimed : s.Aimed (.kill p pid)) : (s.kill pid).2.All Spared := by
  have hmark : State.All Spared { s with proc := fun q =>
      { s.proc q with named := (s.proc q).named || (s.proc q).pid = pid } } := by
    intro q
    refine ⟨(hs q).1, fun h => ?_⟩
    simp only [(hs q).2 h, Bool.true_or]
  unfold kill
  cases hfind : s.target? pid with
  | none => exact hmark
  | some q =>
    refine hmark.setProc ⟨fun h => ?_, fun _ => ?_⟩
    · have hused := target_used haimed hfind
      simp only at h
      split_ifs at h
      exact absurd h hused
    · simp [(target?_eq_some hfind).1]

theorem all_spared_step (hinv : s.Inv) (hs : s.All Spared) {a : Act} {s' : State}
    (haimed : s.Aimed a) (hstep : s.step a = some s') : s'.All Spared := by
  refine hs.step local_spared hinv hstep ?_ ?_ ?_ ?_ ?_
  · intro p np call _ hfind
    have hfree : (s.proc np).killed = false := (hs np).1 (unused?_eq_some hfind)
    refine ⟨nofun, fun h => ?_⟩
    rw [show (s.proc np).killed = true from h] at hfree
    cases hfree
  · intro p np call hgiveUp
    have hfree : (s.proc np).killed = false := by
      rcases hgiveUp with ⟨rfl, hpc⟩ | ⟨rfl, hpc⟩
      · simpa only [Aimed, hpc] using haimed
      · simpa only [Aimed, hpc] using haimed
    exact ⟨fun _ => hfree, (hs np).2⟩
  · intro p np call ok _ _
    exact hs np
  · intro p np call _ _
    exact ⟨nofun, (hs np).2⟩
  · rintro p pid rfl
    exact all_spared_kill hs haimed

theorem all_spared (hrun : Reaches step Aimed State.init s) : s.All Spared := by
  have hboth : s.Inv ∧ s.All Spared :=
    hrun.invariant (I := fun s => s.Inv ∧ s.All Spared) ⟨.init, fun q => ⟨fun _ => rfl, nofun⟩⟩
      fun s a s' hs haimed hstep => ⟨hs.1.step hstep, all_spared_step hs.1 hs.2 haimed hstep⟩
  exact hboth.2

/-- In a run whose steps all meet the condition, `kill` marks the process it names and no other, and a
process is born killed only if it has been named. -/
theorem kill_exact (hrun : Reaches step Aimed State.init s) : (∀ p pid, s.Aimed (.kill p pid) →
      ((s.kill pid).1 = 0 ↔ ∃ q, (s.proc q).state ≠ .unused ∧ (s.proc q).pid = pid) ∧
      ((s.kill pid).1 = 0 → ∃ q, (s.proc q).state ≠ .unused ∧ (s.proc q).pid = pid ∧
        ((s.kill pid).2.proc q).killed = true ∧
        ∀ r, r ≠ q → ((s.kill pid).2.proc r).killed = (s.proc r).killed) ∧
      ((s.kill pid).1 ≠ 0 → ∀ r, ((s.kill pid).2.proc r).killed = (s.proc r).killed)) ∧
    (∀ a s' q, s.Aimed a → s.step a = some s' → (s.proc q).state = .embryo →
      (s'.proc q).state = .runnable → (s'.proc q).killed = true → (s'.proc q).named = true) := by
  have hs := all_spared hrun
  refine ⟨fun p pid haimed => ?_, fun a s' q haimed hstep _ _ hkilled =>
    (all_spared_step (inv_of_reaches hrun) hs haimed hstep q).2 hkilled⟩
  cases hfind : s.target? pid with
  | none =>
    obtain ⟨hret, hsame⟩ := kill_none hfind
    refine ⟨⟨fun h => ?_, fun ⟨q, _, hpid⟩ => absurd hpid (target?_eq_none hfind q)⟩,
      fun h => ?_, fun _ => hsame⟩
    · rw [hret] at h
      cases h
    · rw [hret] at h
      cases h
  | some q =>
    obtain ⟨hret, hkilled, hsame⟩ := kill_some hfind
    have hq : (s.proc q).state ≠ .unused ∧ (s.proc q).pid = pid :=
      ⟨target_used haimed hfind, (target?_eq_some hfind).1⟩
    exact ⟨⟨fun _ => ⟨q, hq⟩, fun _ => hret⟩, fun _ => ⟨q, hq.1, hq.2, hkilled, hsame⟩,
      fun h => absurd hret h⟩

/-- A sleeping child of `init` is the one that `kill(2)` names. -/
theorem kill_exact_child : ∃ s : State, Reaches step Aimed State.init s ∧ s.Aimed (.kill 0 2) ∧
      ((s.kill 2).1 = 0 ↔ ∃ q, (s.proc q).state ≠ .unused ∧ (s.proc q).pid = 2) ∧
      (s.proc 1).state = .sleeping ∧ (s.proc 1).pid = 2 := by
  have hrun : (runActs step Aimed
      (.schedule 0 :: creates 0 .fork ++ [.schedule 1, .sleep 1 (some (.other 0))]) .init).map
        (fun s => (decide (s.Aimed (.kill 0 2)), (s.proc 1).state, (s.proc 1).pid)) =
          some (true, .sleeping, 2) := by
    decide +kernel
  obtain ⟨s, hreach, heq⟩ := Reaches.of_map hrun
  obtain ⟨haimed, hstate, hpid⟩ : s.Aimed (.kill 0 2) ∧ (s.proc 1).state = .sleeping ∧
      (s.proc 1).pid = 2 := by
    simpa using heq
  exact ⟨s, hreach, haimed, ((kill_exact hreach).1 0 2 haimed).1, hstate, hpid⟩

/-- `kill(0)` finds an entry that nobody uses, and the next child is born killed; and so is a child whose
entry was given up by a `fork` that failed after its pid had been named. -/
theorem kill_misses :
    (∃ s : State, Reaches step (fun _ _ => True) State.init s ∧ s.InUser 0 ∧ (s.kill 0).1 = 0 ∧
      ∀ q, ¬ ((s.proc q).state ≠ .unused ∧ (s.proc q).pid = 0)) ∧
    (∃ s : State, Reaches step (fun _ _ => True) State.init s ∧ (s.proc 1).state = .runnable ∧
      (s.proc 1).killed = true ∧ (s.proc 1).named = false) ∧
    (∃ s : State, Reaches step (fun _ _ => True) State.init s ∧ (s.proc 2).state = .runnable ∧
      (s.proc 2).killed = true ∧ (s.proc 2).named = false) := by
  have hfirst : (runActs step (fun _ _ => True) [.schedule 0] .init).map
      (fun s => decide (s.InUser 0 ∧ (s.kill 0).1 = 0 ∧
        ∀ q, ¬ ((s.proc q).state ≠ .unused ∧ (s.proc q).pid = 0))) = some true := by
    decide +kernel
  have hsecond : (runActs step (fun _ _ => True) (.schedule 0 :: .kill 0 0 :: creates 0 .fork)
      .init).map (fun s => ((s.proc 1).state, (s.proc 1).killed, (s.proc 1).named)) =
        some (.runnable, true, false) := by
    decide +kernel
  have hthird : (runActs step (fun _ _ => True)
      (.schedule 0 :: creates 0 .fork ++ [.alloc 0 .fork, .schedule 1, .kill 1 3, .kstack 0 false] ++
        creates 0 .fork) .init).map (fun s => ((s.proc 2).state, (s.proc 2).killed, (s.proc 2).named)) =
            some (.runnable, true, false) := by
    decide +kernel
  refine ⟨?_, ?_, ?_⟩
  · obtain ⟨s, hs, heq⟩ := Option.map_eq_some_iff.mp hfirst
    exact ⟨s, Reaches.of_runActs _ .refl hs, of_decide_eq_true heq⟩
  · obtain ⟨s, hs, heq⟩ := Reaches.of_map hsecond
    exact ⟨s, hs, by simpa using heq⟩
  · obtain ⟨s, hreach, heq⟩ := Reaches.of_map hthird
    exact ⟨s, hreach, by simpa using heq⟩

end Xv6.Ptable.State
