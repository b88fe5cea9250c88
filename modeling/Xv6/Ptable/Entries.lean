import Xv6.Ptable.Inv

/-!
# Properties of single entries

A property that every entry has, and that the life of a process does not affect, can only be lost where
an entry is taken, filled, given up or marked by `kill`.
-/

namespace Xv6.Ptable

/-- A property of entries that running, sleeping, exiting and being reaped do not affect. -/
structure Local (P : Proc → Prop) : Prop where
  live : ∀ {x : Proc} (st : ProcState) (chan : Option Chan) (pc : Pc), x.state.kind = .live →
    st.kind = .live ∨ st.kind = .zombie → P x → P { x with state := st, chan := chan, pc := pc }
  adopt : ∀ {x : Proc} (r : Slot), x.parent.isSome → P x → P { x with parent := some r }
  clear : ∀ {x : Proc}, P x → P { x with pid := 0, parent := none, killed := false, state := .unused }

namespace State

def All (P : Proc → Prop) (s : State) : Prop := ∀ q, P (s.proc q)

variable {P : Proc → Prop} {s : State}

namespace All

theorem setProc (hs : s.All P) {q : Slot} {x : Proc} (hx : P x) : (s.setProc q x).All P := by
  intro r
  by_cases hr : r = q
  · subst hr
    rwa [setProc_self]
  · rw [setProc_of_ne hr]
    exact hs r

section

variable (hP : Local P) (hs : s.All P)
include hP hs

theorem setLive {p : Slot} (st : ProcState) (chan : Option Chan) (pc : Pc)
    (hp : (s.proc p).state.kind = .live) (hst : st.kind = .live ∨ st.kind = .zombie) :
    (s.setProc p { s.proc p with state := st, chan := chan, pc := pc }).All P :=
  hs.setProc (hP.live st chan pc hp hst (hs p))

theorem wakeup1 (chan : Option Chan) : (s.wakeup1 chan).All P := by
  intro q
  simp only [State.wakeup1, Proc.wake]
  split_ifs with h
  · exact hP.live .runnable _ _ (by rw [h.1]; rfl) (.inl rfl) (hs q)
  · exact hs q

theorem adopt (p q : Slot) : (State.adopt p s q).All P := by
  unfold State.adopt
  by_cases hparent : (s.proc q).parent = some p
  · rw [if_pos hparent]
    have hset : (s.setProc q { s.proc q with parent := some initproc }).All P :=
      hs.setProc (hP.adopt initproc (by rw [hparent]; rfl) (hs q))
    dsimp only
    split_ifs with hzombie
    · exact hset.wakeup1 hP _
    · exact hset
  · rw [if_neg hparent]
    exact hs

theorem foldl_adopt (p : Slot) (l : List Slot) : (l.foldl (State.adopt p) s).All P := by
  induction l generalizing s with
  | nil => exact hs
  | cons q l ih => exact ih (hs.adopt hP p q)

theorem exitSection {p : Slot} (hstate : (s.proc p).state = .running) (hidle : (s.proc p).pc.Idle)
    (hinit : p ≠ initproc) (hself : (s.proc p).parent ≠ some p) : (s.exitSection p).All P := by
  obtain ⟨-, hend⟩ :=
    (Leaving.start hstate hidle hself).foldl_adopt hinit (List.finRange nproc)
  exact ((hs.wakeup1 hP _).foldl_adopt hP p _).setLive hP .zombie _ _
    (congrArg ProcState.kind hend.state) (.inr rfl)

theorem reap {p : Slot} (call : Reaper) (hstate : (s.proc p).state = .running) : (s.reap call p).All P := by
  have hlive : (s.proc p).state.kind = .live := congrArg ProcState.kind hstate
  unfold State.reap
  cases hscan : s.scan call p with
  | found q =>
    obtain ⟨-, hzombie⟩ := scan_found hscan
    have hne : p ≠ q := by
      rintro rfl
      rw [hstate] at hzombie
      cases hzombie
    have hclear : (s.collect call p q).All P := hs.setProc (hP.clear (hs q))
    have hp : ((s.collect call p q).proc p).state.kind = .live := by
      rw [show (s.collect call p q).proc p = s.proc p from setProc_of_ne hne _, hlive]
    exact hclear.setLive hP _ _ .user hp (.inl hp)
  | fails => exact hs.setLive hP _ _ .user hlive (.inl hlive)
  | sleeps => exact hs.setLive hP .sleeping _ _ hlive (.inl rfl)

theorem goOn {p : Slot} (hstate : (s.proc p).state = .running) : (s.goOn p).All P := by
  have hlive : (s.proc p).state.kind = .live := congrArg ProcState.kind hstate
  unfold State.goOn
  cases (s.proc p).pc with
  | reap call =>
    exact (hs.setLive hP _ none _ hlive (.inl hlive)).reap hP call (by rw [setProc_self, hstate])
  | asleep => exact hs.setLive hP _ none .user hlive (.inl hlive)
  | user | kstack | copy | ready => exact hs

theorem pair {p np : Slot} {x : Proc} (pc : Pc) (hstate : (s.proc p).state = .running) (hne : p ≠ np)
    (hx : P x) : ((s.setProc np x).setProc p { (s.setProc np x).proc p with pc := pc }).All P := by
  have hp : ((s.setProc np x).proc p).state.kind = .live := by
    rw [setProc_of_ne hne, hstate]
    rfl
  exact (hs.setProc hx).setLive hP _ _ pc hp (.inl hp)

end

theorem step (hP : Local P) (hinv : s.Inv) (hs : s.All P) {a : Act} {s' : State}
    (hstep : s.step a = some s') (hclaim : ∀ p np call, a = .alloc p call → s.unused? = some np →
      P { s.proc np with
          state := .embryo
          pid := s.nextpid
          pc := .user
          serial := s.created
          made := call
          creator := (s.proc p).serial
          named := false })
    (hgiveUp : ∀ p np call, (a = .kstack p false ∧ (s.proc p).pc = .kstack call np) ∨
      (a = .copy p false ∧ (s.proc p).pc = .copy .fork np) → P { s.proc np with state := .unused })
    (hcopy : ∀ p np call ok, a = .copy p ok → (s.proc p).pc = .copy call np → P { s.proc np with
          parent := some p
          isThread := (s.proc np).isThread || call = .threadCreate })
    (hready : ∀ p np call, a = .ready p → (s.proc p).pc = .ready call np →
      P { s.proc np with state := .runnable })
    (hkill : ∀ p pid, a = .kill p pid → (s.kill pid).2.All P) : s'.All P := by
  cases Took.of_step hstep with
  | schedule p hstate =>
    exact (hs.setLive hP .running _ _ (congrArg ProcState.kind hstate) (.inl rfl)).goOn hP
      (by rw [setProc_self])
  | yield p hstate => exact hs.setLive hP .runnable _ _ (congrArg ProcState.kind hstate) (.inl rfl)
  | alloc p call huser =>
    unfold allocproc
    cases hfind : s.unused? with
    | none => exact hs
    | some np =>
      have hne : p ≠ np := by
        rintro rfl
        exact nomatch (unused?_eq_some hfind).symm.trans huser.1
      exact pair (s := { s with nextpid := int32 (s.nextpid + 1), created := s.created + 1 })
        hP hs (.kstack call np) huser.1 hne (hclaim p np call rfl hfind)
  | stack p np call hstate hpc =>
    exact hs.setLive hP _ _ (.copy call np) (congrArg ProcState.kind hstate)
      (.inl (congrArg ProcState.kind hstate))
  | stackless p np call hstate hpc =>
    have hmade := hinv.wf.made (b := (call, false)) (by rw [hpc]; rfl)
    exact hs.pair hP .user hstate hmade.ne (hgiveUp p np call (.inl ⟨rfl, hpc⟩))
  | copy p np call ok hstate hpc =>
    have hmade := hinv.wf.made (b := (call, false)) (by rw [hpc]; rfl)
    exact hs.pair hP (.ready call np) hstate hmade.ne (hcopy p np call ok rfl hpc)
  | copyless p np hstate hpc =>
    have hmade := hinv.wf.made (b := (.fork, false)) (by rw [hpc]; rfl)
    exact hs.pair hP .user hstate hmade.ne (hgiveUp p np .fork (.inr ⟨rfl, hpc⟩))
  | ready p np call hstate hpc =>
    have hmade := hinv.wf.made (b := (call, true)) (by rw [hpc]; rfl)
    exact hs.pair hP .user hstate hmade.ne (hready p np call rfl hpc)
  | exit p huser hinit | threadExit p huser hinit =>
    exact hs.exitSection hP huser.1 (huser.2 ▸ Pc.idle_user) hinit (hinv.parent_ne_self p)
  | wait p huser => exact hs.reap hP .wait huser.1
  | threadJoin p huser => exact hs.reap hP .threadJoin huser.1
  | kill p pid => exact hkill p pid rfl
  | sleep p chan huser =>
    exact hs.setLive hP .sleeping chan .asleep (congrArg ProcState.kind huser.1) (.inl rfl)
  | wakeup chan => exact hs.wakeup1 hP chan

end All

end State

end Xv6.Ptable
