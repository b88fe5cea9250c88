import Xv6.Ptable.Entries
import Xv6.Ptable.Wait
import Xv6.Ptable.Forest

/-!
# Threads and processes

`thread_create` sets `isThread` and nothing clears it, `wait` does not look at it, and a thread whose
parent exits passes to `init` with it. So `thread_join` can return a process that was forked, or a thread
of another process, and `wait` a thread. Where none of the three happens, every call returns its own.
-/

namespace Xv6.Ptable.State

/-- The first entry of the table with `A`, if there is one, has `B`. -/
def FirstIs (A B : Slot → Prop) : Prop := ∀ q, A q → (∀ r < q, ¬ A r) → B q

instance (A B : Slot → Prop) [DecidablePred A] [DecidablePred B] : Decidable (FirstIs A B) :=
  inferInstanceAs (Decidable (∀ _, _))

/-- The child that the call finds suits it: `wait` no thread, `thread_join` by `init` no thread that was
passed to `init`. -/
def Suits (s : State) (p : Slot) : Reaper → Prop
  | .wait => FirstIs (fun q => s.Child .wait p q ∧ (s.proc q).state = .zombie)
      fun q => (s.proc q).isThread = false
  | .threadJoin => p = initproc → FirstIs (fun q => s.Child .threadJoin p q ∧ (s.proc q).state = .zombie)
        fun q => (s.proc q).creator = (s.proc initproc).serial

/-- `fork` takes an entry without the flag, and the calls find children that suit them. -/
def Sorted (s : State) : Act → Prop
  | .alloc _ .fork =>
    FirstIs (fun q => (s.proc q).state = .unused) fun q => (s.proc q).isThread = false
  | .wait p => s.Suits p .wait
  | .threadJoin p => s.Suits p .threadJoin
  | .schedule p => ∀ call, (s.proc p).pc = .reap call → s.Suits p call
  | _ => True

/-- A forked process does not have the flag, and a thread has it once it has a parent. -/
def Marked (x : Proc) : Prop :=
  (x.isThread = true → x.state = .unused ∨ x.made = .threadCreate) ∧
    (x.made = .threadCreate → x.state = .unused ∨ x.parent = none ∨ x.isThread = true)

theorem local_marked : Local Marked where
  live {x} st chan pc hlive _ hx := by
    have hused : x.state ≠ .unused := by
      intro h
      rw [h] at hlive
      cases hlive
    exact ⟨fun h => .inr ((hx.1 h).resolve_left hused), fun h => .inr ((hx.2 h).resolve_left hused)⟩
  adopt r hparent hx := by
    refine ⟨hx.1, fun h => (hx.2 h).imp_right fun h' => .inr (h'.resolve_left fun hnone => ?_)⟩
    rw [hnone] at hparent
    cases hparent
  clear _ := ⟨fun _ => .inl rfl, fun _ => .inl rfl⟩

variable {s : State}

theorem all_marked_kill (hs : s.All Marked) (pid : Int) : (s.kill pid).2.All Marked := by
  have hmark : State.All Marked { s with proc := fun q =>
      { s.proc q with named := (s.proc q).named || (s.proc q).pid = pid } } := hs
  unfold kill
  cases hfind : s.target? pid with
  | none => exact hmark
  | some q =>
    refine hmark.setProc ?_
    by_cases hsleep : (s.proc q).state = .sleeping
    · have hq := hs q
      simp only [Marked, hsleep, if_true, reduceCtorEq, false_or] at hq ⊢
      exact hq
    · simp only [hsleep, if_false]
      exact hs q

theorem all_marked_step (hinv : s.Inv) (hs : s.All Marked) {a : Act} {s' : State}
    (hsorted : s.Sorted a) (hstep : s.step a = some s') : s'.All Marked := by
  refine hs.step local_marked hinv hstep ?_ ?_ ?_ ?_ ?_
  · rintro p np call rfl hfind
    obtain ⟨hunused, hfirst⟩ := unused?_first hfind
    have hparent : (s.proc np).parent = none :=
      hinv.family.tree.parent_of_free (congrArg ProcState.kind hunused)
    refine ⟨fun h => ?_, fun _ => .inr (.inl hparent)⟩
    cases call with
    | threadCreate => exact .inr rfl
    | fork =>
      rw [show (s.proc np).isThread = false from hsorted np hunused hfirst] at h
      cases h
  · intro p np call _
    exact ⟨fun _ => .inl rfl, fun _ => .inl rfl⟩
  · intro p np call ok _ hpc
    have hmade := hinv.wf.made (b := (call, false)) (by rw [hpc]; rfl)
    have hcall : (s.proc np).made = call := hmade.made
    refine ⟨fun h => ?_, fun h => .inr (.inr ?_)⟩
    · rcases Bool.or_eq_true_iff.mp h with h | h
      · exact (hs np).1 h
      · exact .inr (hcall.trans (of_decide_eq_true h))
    · rw [show call = .threadCreate from hcall.symm.trans h]
      exact Bool.or_true _
  · intro p np call _ hpc
    have hmade := hinv.wf.made (b := (call, true)) (by rw [hpc]; rfl)
    have hused : (s.proc np).state ≠ .unused := by
      rw [hmade.embryo]
      decide
    have hparent : (s.proc np).parent ≠ none := by
      rw [← Option.isSome_iff_ne_none, hmade.parent]
    exact ⟨fun h => .inr (((hs np).1 h).resolve_left hused),
      fun h => .inr (.inr ((((hs np).2 h).resolve_left hused).resolve_left hparent))⟩
  · intro p pid _
    exact all_marked_kill hs pid

theorem foldl_adopt_reaped (p : Slot) (l : List Slot) (s : State) :
    (l.foldl (adopt p) s).reaped = s.reaped := by
  induction l generalizing s with
  | nil => rfl
  | cons q l ih =>
    rw [List.foldl_cons, ih]
    unfold adopt
    split
    · dsimp only
      split <;> rfl
    · rfl

theorem exitSection_reaped (p : Slot) : (s.exitSection p).reaped = s.reaped := by
  simp only [exitSection, setProc, foldl_adopt_reaped, wakeup1]

theorem record_of_family {t : State} (hfamily : t.family = s.family) (call : Reaper) (p q : Slot) :
    t.record call p q = s.record call p q := by
  have hserial : ∀ r, (t.proc r).serial = (s.proc r).serial :=
    fun r => congrArg Member.serial (member_of_family hfamily r)
  have hparent : (t.proc q).parent = (s.proc q).parent :=
    congrArg Member.parent (member_of_family hfamily q)
  have hmade : (t.proc q).made = (s.proc q).made :=
    congrArg Member.made (member_of_family hfamily q)
  have hcreator : (t.proc q).creator = (s.proc q).creator :=
    congrArg Member.creator (member_of_family hfamily q)
  simp only [record, hserial, hparent, hmade, hcreator]

theorem reaped_step {a : Act} {s' : State} (hstep : s.step a = some s') :
    s'.reaped = s.reaped ∨ ∃ call p q, s.Pass call p a ∧ ((s.Child call p q ∧ (s.proc q).state = .zombie) ∧
        ∀ r < q, ¬ (s.Child call p r ∧ (s.proc r).state = .zombie)) ∧
      s'.reaped = s.record call p q :: s.reaped := by
  by_cases hpass : ∃ call p, s.Pass call p a
  · obtain ⟨call, p, hpass⟩ := hpass
    obtain ⟨t, rfl, hfamily, -⟩ := pass_eq hpass hstep
    have hlog : t.reaped = s.reaped := congrArg Family.reaped hfamily
    cases hscan : t.scan call p with
    | found q =>
      obtain ⟨⟨hchild, hzombie⟩, hfirst⟩ := scan_found_first hscan
      refine .inr ⟨call, p, q, hpass, ⟨⟨child_of_family hfamily hchild,
        zombie_of_family hfamily hzombie⟩, fun r hr h => hfirst r hr
          ⟨child_of_family hfamily.symm h.1, zombie_of_family hfamily.symm h.2⟩⟩, ?_⟩
      simp only [reap, hscan, setProc, clear]
      rw [record_of_family hfamily, hlog]
    | fails => exact .inl (by simp only [reap, hscan, setProc, hlog])
    | sleeps => exact .inl (by simp only [reap, hscan, sleep, setProc, hlog])
  · left
    cases Took.of_step hstep with
    | schedule p =>
      have hpc : ∀ call, (s.proc p).pc ≠ .reap call :=
        fun call h => hpass ⟨call, p, rfl, h⟩
      simp only [resume, goOn, setProc_self]
      split <;> first | rfl | exact absurd ‹_› (hpc _)
    | wait p => exact absurd ⟨.wait, p, rfl, rfl⟩ hpass
    | threadJoin p => exact absurd ⟨.threadJoin, p, rfl, rfl⟩ hpass
    | alloc p call =>
      unfold allocproc
      split <;> rfl
    | exit p | threadExit p => exact exitSection_reaped p
    | kill p pid =>
      unfold kill
      split <;> rfl
    | yield | sleep | stack | stackless | copy | copyless | ready | wakeup => rfl

/-- A record of the history in which the call returned one of its own. -/
def Own (e : Reaped) : Prop :=
  (e.call = .threadJoin → e.made = .threadCreate ∧ e.creator = e.caller) ∧ (e.call = .wait → e.made = .fork)

theorem suits_of_pass {a : Act} {call : Reaper} {p : Slot} (hsorted : s.Sorted a)
    (hpass : s.Pass call p a) : s.Suits p call := by
  cases a with
  | schedule r =>
    obtain ⟨rfl, hpc⟩ := hpass
    exact hsorted call hpc
  | wait r | threadJoin r =>
    obtain ⟨rfl, rfl⟩ := hpass
    exact hsorted
  | _ => exact hpass.elim

theorem Marked.iff_of_parent {x : Proc} (hx : Marked x) (hused : x.state ≠ .unused)
    (hparent : x.parent ≠ none) : x.isThread = true ↔ x.made = .threadCreate :=
  ⟨fun h => (hx.1 h).resolve_left hused, fun h => ((hx.2 h).resolve_left hused).resolve_left hparent⟩

theorem own_record (hinv : s.Inv) (hs : s.All Marked) {call : Reaper} {p q : Slot}
    (hsuits : s.Suits p call) (hq : s.Child call p q ∧ (s.proc q).state = .zombie)
    (hfirst : ∀ r < q, ¬ (s.Child call p r ∧ (s.proc r).state = .zombie)) : Own (s.record call p q) := by
  have hparent : (s.proc q).parent = some p := hq.1.1
  have hthread := (hs q).iff_of_parent (by rw [hq.2]; decide) (by rw [hparent]; exact nofun)
  constructor
  · rintro rfl
    refine ⟨hthread.mp (hq.1.2 rfl), ?_⟩
    rcases (hinv.family.tree.parent hparent).2.2.2 with h | rfl
    · exact h.symm
    · exact hsuits rfl q hq hfirst
  · rintro rfl
    have hnot : (s.proc q).isThread = false := hsuits q hq hfirst
    change (s.proc q).made = .fork
    cases hmade : (s.proc q).made with
    | fork => rfl
    | threadCreate =>
      rw [hthread.mpr hmade] at hnot
      cases hnot

theorem own_of_reaches (hrun : Reaches step Sorted State.init s) :
    s.All Marked ∧ ∀ e ∈ s.reaped, Own e := by
  have hall : s.Inv ∧ s.All Marked ∧ ∀ e ∈ s.reaped, Own e := by
    refine hrun.invariant (I := fun s => s.Inv ∧ s.All Marked ∧ ∀ e ∈ s.reaped, Own e)
      ⟨.init, fun q => ⟨nofun, nofun⟩, fun e he => absurd he List.not_mem_nil⟩ ?_
    rintro s a s' ⟨hinv, hs, hown⟩ hsorted hstep
    refine ⟨hinv.step hstep, all_marked_step hinv hs hsorted hstep, ?_⟩
    rcases reaped_step hstep with hsame | ⟨call, p, q, hpass, ⟨hq, hfirst⟩, hlog⟩
    · rwa [hsame]
    · rw [hlog]
      exact List.forall_mem_cons.mpr ⟨own_record hinv hs (suits_of_pass hsorted hpass) hq hfirst, hown⟩
  exact hall.2

/-- In a run whose steps all meet the condition, the flag tells threads from processes, `thread_join`
returns threads that its caller made, and `wait` returns processes. -/
theorem reaped_by_own_call (hrun : Reaches step Sorted State.init s) :
    (∀ e ∈ s.reaped, (e.call = .threadJoin → e.made = .threadCreate ∧ e.creator = e.caller) ∧
      (e.call = .wait → e.made = .fork)) ∧
    (∀ q, (s.proc q).Started → ((s.proc q).isThread = true ↔ (s.proc q).made = .threadCreate)) := by
  obtain ⟨hs, hown⟩ := own_of_reaches hrun
  have hinv := inv_of_reaches hrun
  refine ⟨hown, fun q hq => ?_⟩
  have hused : (s.proc q).state ≠ .unused := by
    rcases hq with h | h | h | h <;> rw [h] <;> decide
  by_cases hinit : q = initproc
  · subst hinit
    have hmade : (s.proc initproc).made = .fork := hinv.family.tree.root.2.2.2
    rw [hmade]
    refine ⟨fun h => ?_, nofun⟩
    rw [((hs initproc).1 h).resolve_left hused] at hmade
    cases hmade
  · obtain ⟨r, hparent, -⟩ := hinv.live_parent hinit hq
    exact (hs q).iff_of_parent hused (by rw [hparent]; exact nofun)

instance (s : State) (p : Slot) (call : Reaper) : Decidable (s.Suits p call) :=
  match call with
  | .wait => inferInstanceAs (Decidable (FirstIs _ _))
  | .threadJoin => inferInstanceAs (Decidable (_ → FirstIs _ _))

instance (s : State) (a : Act) : Decidable (s.Sorted a) :=
  match a with
  | .alloc _ .fork => inferInstanceAs (Decidable (FirstIs _ _))
  | .wait p => inferInstanceAs (Decidable (s.Suits p .wait))
  | .threadJoin p => inferInstanceAs (Decidable (s.Suits p .threadJoin))
  | .schedule p =>
    match h : (s.proc p).pc with
    | .reap call => decidable_of_iff (s.Suits p call) (by simp [Sorted, h])
    | .user | .kstack _ _ | .copy _ _ | .ready _ _ | .asleep => .isTrue (by simp [Sorted, h])
  | .alloc _ .threadCreate | .yield _ | .kstack _ _ | .copy _ _ | .ready _ | .exit _ | .threadExit _
  | .kill _ _ | .sleep _ _ | .wakeup _ => .isTrue trivial

/-- `init` makes a thread and a child, joins the one and waits for the other. -/
theorem reaped_by_own_call_both : ∃ s : State, Reaches step Sorted State.init s ∧
      s.reaped.map (fun e => (e.call, e.made)) = [(.wait, .fork), (.threadJoin, .threadCreate)] ∧
      ∀ e ∈ s.reaped, (e.call = .threadJoin → e.made = .threadCreate ∧ e.creator = e.caller) ∧
        (e.call = .wait → e.made = .fork) := by
  have hrun : (runActs step Sorted (.schedule 0 :: creates 0 .threadCreate ++ creates 0 .fork ++
        [.schedule 1, .threadExit 1, .schedule 2, .exit 2, .threadJoin 0, .wait 0]) .init).map
          (fun s => s.reaped.map fun e => (e.call, e.made)) =
            some [(.wait, .fork), (.threadJoin, .threadCreate)] := by
    decide +kernel
  obtain ⟨s, hreach, heq⟩ := Reaches.of_map hrun
  exact ⟨s, hreach, heq, (reaped_by_own_call hreach).1⟩

/-- `thread_join` returns a forked process in the entry of an earlier thread; `wait` returns a thread; and
`thread_join` returns to `init` a thread of a process that has exited. -/
theorem reaped_by_other_call : (∃ s : State, Reaches step (fun _ _ => True) State.init s ∧
      ∃ e ∈ s.reaped, e.call = .threadJoin ∧ e.made = .fork) ∧
    (∃ s : State, Reaches step (fun _ _ => True) State.init s ∧
      ∃ e ∈ s.reaped, e.call = .wait ∧ e.made = .threadCreate) ∧
    (∃ s : State, Reaches step (fun _ _ => True) State.init s ∧
      ∃ e ∈ s.reaped, e.call = .threadJoin ∧ e.creator ≠ e.caller) := by
  have hstale : (runActs step (fun _ _ => True)
      (.schedule 0 :: creates 0 .threadCreate ++ [.schedule 1, .threadExit 1, .threadJoin 0] ++
        creates 0 .fork ++ [.schedule 1, .exit 1, .threadJoin 0]) .init).map
          (fun s => decide (∃ e ∈ s.reaped, e.call = .threadJoin ∧ e.made = .fork)) = some true := by
    decide +kernel
  have hwait : (runActs step (fun _ _ => True)
      (.schedule 0 :: creates 0 .threadCreate ++ [.schedule 1, .threadExit 1, .wait 0]) .init).map
          (fun s => decide (∃ e ∈ s.reaped, e.call = .wait ∧ e.made = .threadCreate)) = some true := by
    decide +kernel
  have hadopted : (runActs step (fun _ _ => True)
      (.schedule 0 :: creates 0 .fork ++ .schedule 1 :: creates 1 .threadCreate ++
        [.exit 1, .schedule 2, .threadExit 2, .threadJoin 0]) .init).map
          (fun s => decide (∃ e ∈ s.reaped, e.call = .threadJoin ∧ e.creator ≠ e.caller)) =
            some true := by
    decide +kernel
  refine ⟨?_, ?_, ?_⟩
  · obtain ⟨s, hs, heq⟩ := Option.map_eq_some_iff.mp hstale
    exact ⟨s, Reaches.of_runActs _ .refl hs, of_decide_eq_true heq⟩
  · obtain ⟨s, hs, heq⟩ := Reaches.of_map hwait
    exact ⟨s, hs, of_decide_eq_true heq⟩
  · obtain ⟨s, hreach, heq⟩ := Reaches.of_map hadopted
    exact ⟨s, hreach, of_decide_eq_true heq⟩

end Xv6.Ptable.State
