import Xv6.Ptable.Inv

/-!
# The process forest

In every run from `userinit`, parents are alive and older than their children, so the parent pointers
lead to `init`, and pids are distinct until `nextpid` passes the largest `int`.
-/

namespace Xv6.Ptable

def Proc.Started (x : Proc) : Prop :=
  x.state = .sleeping ∨ x.state = .runnable ∨ x.state = .running ∨ x.state = .zombie

namespace State

variable {s : State}

theorem kind_eq_live {st : ProcState} : st.kind = .live ↔ st ≠ .unused ∧ st ≠ .embryo ∧ st ≠ .zombie := by
  cases st <;> simp [ProcState.kind]

theorem kind_ne_free {st : ProcState} : st.kind ≠ .free ↔ st ≠ .unused := by
  cases st <;> simp [ProcState.kind]

theorem kind_of_started {x : Proc} (hx : x.Started) : x.state.kind = .live ∨ x.state.kind = .zombie := by
  rcases hx with h | h | h | h <;> rw [h]
  · exact .inl rfl
  · exact .inl rfl
  · exact .inl rfl
  · exact .inr rfl

theorem started_of_live {x : Proc} (hx : x.state.kind = .live) : x.Started := by
  unfold Proc.Started
  cases h : x.state <;> simp_all [ProcState.kind]

namespace Inv

theorem live_parent (hs : s.Inv) {q : Slot} (hinit : q ≠ initproc) (hq : (s.proc q).Started) :
    ∃ r, (s.proc q).parent = some r ∧ (s.proc r).state.kind = .live := by
  have hparent := hs.family.tree.child hinit (kind_of_started hq)
  obtain ⟨r, hr⟩ := Option.ne_none_iff_exists'.mp hparent
  exact ⟨r, hr, (hs.family.tree.parent hr).2.1⟩

theorem parent_older (hs : s.Inv) (q r : Slot) (hparent : (s.proc q).parent = some r) :
    (s.proc r).serial < (s.proc q).serial :=
  (hs.family.tree.parent hparent).2.2.1

theorem reaches_init (hs : s.Inv) {q : Slot} (hq : (s.proc q).Started) :
    Relation.ReflTransGen (Forest.Up fun a => (s.proc a).parent) q initproc := by
  refine Forest.reaches_root hs.parent_older (P := fun a => (s.proc a).Started) ?_ hq
  intro a ha hinit
  obtain ⟨r, hparent, hlive⟩ := hs.live_parent hinit ha
  exact ⟨r, hparent, started_of_live hlive⟩

theorem pid_eq (hs : s.Inv) (hcreated : s.created < 2 ^ 31) {q : Slot}
    (hq : (s.proc q).state ≠ .unused) : (s.proc q).pid = (s.proc q).serial + 1 := by
  have hbound : (s.proc q).serial < s.created := hs.family.serials.bound q
  have hpid : (s.proc q).pid = int32 ((s.proc q).serial + 1) :=
    hs.family.serials.pid (kind_ne_free.mpr hq)
  rw [hpid, int32]
  exact Int.bmod_eq_of_le (by omega) (by omega)

end Inv

/-- The forest, in every run from `userinit`. -/
theorem process_forest (hrun : Reaches step (fun _ _ => True) State.init s) :
    (∀ q, q ≠ initproc → (s.proc q).Started → ∃ r, (s.proc q).parent = some r ∧
      (s.proc r).state ≠ .unused ∧ (s.proc r).state ≠ .embryo ∧ (s.proc r).state ≠ .zombie) ∧
    (∀ q, (s.proc q).Started → Relation.ReflTransGen (Forest.Up fun a => (s.proc a).parent) q initproc) ∧
    (∀ q, ¬ Relation.TransGen (Forest.Up fun a => (s.proc a).parent) q q) ∧
    (s.created < 2 ^ 31 → ∀ q, (s.proc q).state ≠ .unused → 0 < (s.proc q).pid ∧
      ∀ r, (s.proc r).state ≠ .unused → (s.proc r).pid = (s.proc q).pid → r = q) := by
  have hs := inv_of_reaches hrun
  refine ⟨fun q hinit hq => ?_, fun q => hs.reaches_init, Forest.not_transGen_self hs.parent_older,
    fun hcreated q hq => ⟨?_, fun r hr hpid => ?_⟩⟩
  · obtain ⟨r, hparent, hlive⟩ := hs.live_parent hinit hq
    exact ⟨r, hparent, kind_eq_live.mp hlive⟩
  · rw [hs.pid_eq hcreated hq]
    omega
  · rw [hs.pid_eq hcreated hr, hs.pid_eq hcreated hq] at hpid
    exact hs.family.serials.distinct (kind_ne_free.mpr hr) (kind_ne_free.mpr hq)
      (show (s.proc r).serial = (s.proc q).serial by omega)

/-- A child of `init` forks and exits, and its own child passes to `init`. -/
theorem process_forest_orphan : ∃ s : State, Reaches step (fun _ _ => True) State.init s ∧
      (s.proc 1).state = .zombie ∧ (s.proc 2).parent = some initproc ∧ 0 < (s.proc 2).pid ∧
      Relation.ReflTransGen (Forest.Up fun a => (s.proc a).parent) 2 initproc := by
  have hrun : (runActs step (fun _ _ => True)
      (.schedule 0 :: creates 0 .fork ++ .yield 0 :: .schedule 1 :: creates 1 .fork ++ [.exit 1])
      State.init).map (fun s => ((s.proc 1).state, (s.proc 2).state, (s.proc 2).parent, s.created)) =
        some (.zombie, .runnable, some initproc, 3) := by
    decide +kernel
  obtain ⟨s, hreach, heq⟩ := Reaches.of_map hrun
  obtain ⟨hone, htwo, hparent, hcreated⟩ : (s.proc 1).state = .zombie ∧
      (s.proc 2).state = .runnable ∧ (s.proc 2).parent = some initproc ∧ s.created = 3 := by
    simpa using heq
  obtain ⟨-, hroot, -, hpid⟩ := process_forest hreach
  have hused : (s.proc 2).state ≠ .unused := by
    rw [htwo]
    decide
  exact ⟨s, hreach, hone, hparent, (hpid (by omega) 2 hused).1, hroot 2 (.inr (.inl htwo))⟩

end State

end Xv6.Ptable
