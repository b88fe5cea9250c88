import Xv6.Ptable.Inv

/-!
# What an entry has got

An entry has a directory from the time `fork` or `thread_create` has filled it until it is reaped, and a
kernel stack from a little before. What a step does to the entries in use says when.
-/

namespace Xv6.Ptable

inductive Phase where
  /-- Free, or not filled yet. -/
  | vacant
  | live
  | dead
  deriving DecidableEq

def Proc.phase (x : Proc) : Phase :=
  match x.state with
  | .unused => .vacant
  | .embryo => if x.parent = none then .vacant else .live
  | .sleeping | .runnable | .running => .live
  | .zombie => .dead

/-- An entry stays what it is, or dies. -/
def Phase.Ages (a b : Phase) : Prop := a = b ∨ (a = .live ∧ b = .dead)

namespace Phase.Ages

variable {a b c : Phase}

theorem refl (a : Phase) : a.Ages a := .inl rfl

theorem trans (h : a.Ages b) (h' : b.Ages c) : a.Ages c := by
  obtain rfl | ⟨rfl, rfl⟩ := h
  · exact h'
  · obtain rfl | ⟨hlive, -⟩ := h'
    · exact .inr ⟨rfl, rfl⟩
    · cases hlive

end Phase.Ages

theorem Proc.phase_running {x : Proc} (hx : x.state = .running) : x.phase = .live := by
  rw [Proc.phase, hx]

theorem Proc.phase_zombie {x : Proc} (hx : x.state = .zombie) : x.phase = .dead := by
  rw [Proc.phase, hx]

namespace State

variable {s s' : State}

def Stackless (s : State) (q : Slot) : Prop :=
  (s.proc q).state = .unused ∨ ∃ p call, (s.proc p).pc = .kstack call q

variable {q : Slot}

theorem parent_of_unused (hs : s.Inv) (hq : (s.proc q).state = .unused) : (s.proc q).parent = none := by
  by_contra h
  obtain ⟨r, hr⟩ := Option.ne_none_iff_exists'.mp h
  refine (hs.family.tree.parent hr).1 ?_
  change (s.proc q).state.kind = .free
  rw [hq]
  rfl

theorem ages_setProc {x : Proc} (hx : (s.proc q).phase.Ages x.phase) (r : Slot) :
    (s.proc r).phase.Ages ((s.setProc q x).proc r).phase := by
  by_cases hr : r = q
  · subst hr
    rwa [setProc_self]
  · rw [setProc_of_ne hr]
    exact .refl _

theorem phase_setProc {x : Proc} (hstate : x.state = (s.proc q).state)
    (hparent : x.parent = (s.proc q).parent) (r : Slot) :
    ((s.setProc q x).proc r).phase = (s.proc r).phase := by
  by_cases hr : r = q
  · subst hr
    rw [setProc_self, Proc.phase, hstate, hparent]
    rfl
  · rw [setProc_of_ne hr]

theorem phase_pc (t : State) (p : Slot) (pc : Pc) (r : Slot) :
    ((t.setProc p { t.proc p with pc := pc }).proc r).phase = (t.proc r).phase := by
  refine phase_setProc ?_ ?_ r <;> rfl

theorem Quiet.ages (hs : s.Inv) (h : Quiet s s') (q : Slot) : (s.proc q).phase.Ages (s'.proc q).phase := by
  cases h with
  | run p hstate | yield p hstate | sleep p chan hstate hidle | block p call hstate hidle hnone
  | exit p hstate hidle hinit hchildren hparent =>
    exact ages_setProc (by simp [Proc.phase, hstate, Phase.Ages]) q
  | goto p chan pc hstate hidle hpc => exact ages_setProc (by exact .inl rfl) q
  | wake W =>
    simp only [State.wake]
    split_ifs with h
    · simp [Proc.phase, h.1, Phase.Ages]
    · exact .refl _
  | mark killed named => exact .refl _
  | claim p np call hstate hidle hunused =>
    have hparent := parent_of_unused hs hunused
    simp only [State.claim]
    rw [phase_pc]
    refine ages_setProc (s := { s with nextpid := _, created := _ }) ?_ q
    simp [Proc.phase, hunused, hparent, Phase.Ages]
  | stack p np call hstate hpc => exact .inl (phase_pc s p _ q).symm
  | ready p np call hstate hpc =>
    obtain ⟨-, hembryo, -, hparent, -, -⟩ := hs.wf.made (p := p) (by rw [hpc]; rfl)
    have hparent' : (s.proc np).parent ≠ none := Option.isSome_iff_ne_none.mp hparent
    simp only [State.makeReady]
    rw [phase_pc]
    exact ages_setProc (by simp [Proc.phase, hembryo, hparent', Phase.Ages]) q
  | adopt p r hstate hinit hparent hzombie =>
    refine ages_setProc (.inl ?_) q
    simp only [Proc.phase, hparent]
    rfl

theorem Quiets.ages (hs : s.Inv) (h : Quiets s s') (q : Slot) :
    s'.Inv ∧ (s.proc q).phase.Ages (s'.proc q).phase := by
  induction h with
  | refl => exact ⟨hs, .refl _⟩
  | tail _ hmove ih => exact ⟨ih.1.quiet hmove, ih.2.trans (hmove.ages ih.1 q)⟩

/-! ### Kernel stacks -/

theorem stackless_setProc {r : Slot} {x : Proc} (hr : (s.setProc q x).Stackless r)
    (hstate : r = q → x.state = .unused → (s.proc q).state = .unused)
    (hpc : ∀ call np, x.pc = .kstack call np → (s.proc q).pc = .kstack call np) :
    s.Stackless r := by
  obtain hunused | ⟨p, call, hp⟩ := hr
  · by_cases hrq : r = q
    · subst hrq
      rw [setProc_self] at hunused
      exact .inl (hstate rfl hunused)
    · rw [setProc_of_ne hrq] at hunused
      exact .inl hunused
  · by_cases hpq : p = q
    · subst hpq
      rw [setProc_self] at hp
      exact .inr ⟨p, call, hpc call r hp⟩
    · rw [setProc_of_ne hpq] at hp
      exact .inr ⟨p, call, hp⟩

theorem Quiet.stackless (h : Quiet s s') (hq : s'.Stackless q) : s.Stackless q := by
  cases h with
  | run p hstate | yield p hstate | exit p hstate hidle hinit hchildren hparent =>
    exact stackless_setProc hq (by rintro _ ⟨⟩) fun _ _ h => h
  | goto p chan pc hstate hidle hpc =>
    refine stackless_setProc hq (fun _ h => h) fun call np h => ?_
    rw [show pc = .kstack call np from h] at hpc
    cases hpc
  | sleep p chan hstate hidle | block p call hstate hidle hnone =>
    exact stackless_setProc hq (by rintro _ ⟨⟩) (by rintro _ _ ⟨⟩)
  | wake W =>
    have hsame : ∀ r, ((s.wake W).proc r).pc = (s.proc r).pc ∧
        (((s.wake W).proc r).state = .unused → (s.proc r).state = .unused) := by
      intro r
      simp only [State.wake]
      split_ifs
      · exact ⟨rfl, by rintro ⟨⟩⟩
      · exact ⟨rfl, id⟩
    obtain hunused | ⟨p, call, hp⟩ := hq
    · exact .inl ((hsame q).2 hunused)
    · exact .inr ⟨p, call, (hsame p).1.symm.trans hp⟩
  | mark killed named => exact hq
  | claim p np call hstate hidle hunused =>
    by_cases hnp : q = np
    · exact .inl (hnp ▸ hunused)
    -- the caller waits for a stack for `np`, and `np` itself for none
    have hclaim : s.claim p np call =
        ({ s with nextpid := int32 (s.nextpid + 1), created := s.created + 1 }.setProc np
          { s.proc np with
            state := .embryo
            pid := s.nextpid
            pc := .user
            serial := s.created
            made := call
            creator := (s.proc p).serial
            named := false }).setProc p { s.proc p with pc := .kstack call np } := by
      have hne : p ≠ np := by
        rintro rfl
        rw [hstate] at hunused
        cases hunused
      simp only [State.claim, setProc_of_ne hne]
    rw [hclaim] at hq
    obtain hunused' | ⟨r, call', hr⟩ := hq
    · by_cases hqp : q = p
      · rw [hqp, setProc_self] at hunused'
        exact .inl (hqp ▸ hunused')
      · rw [setProc_of_ne hqp, setProc_of_ne hnp] at hunused'
        exact .inl hunused'
    · by_cases hrp : r = p
      · rw [hrp, setProc_self] at hr
        cases hr
        exact absurd rfl hnp
      · by_cases hrnp : r = np
        · rw [setProc_of_ne hrp, hrnp, setProc_self] at hr
          cases hr
        · rw [setProc_of_ne hrp, setProc_of_ne hrnp] at hr
          exact .inr ⟨r, call', hr⟩
  | stack p np call hstate hpc => exact stackless_setProc hq (fun _ h => h) (by rintro _ _ ⟨⟩)
  | ready p np call hstate hpc =>
    exact stackless_setProc (stackless_setProc hq (fun _ h => h) (by rintro _ _ ⟨⟩))
      (by rintro _ ⟨⟩) fun _ _ h => h
  | adopt p r hstate hinit hparent hzombie => exact stackless_setProc hq (fun _ h => h) fun _ _ h => h

theorem Quiets.stackless (h : Quiets s s') (hq : s'.Stackless q) : s.Stackless q := by
  induction h with
  | refl => exact hq
  | tail _ hmove ih => exact ih (hmove.stackless hq)

end State

/-! ### All steps -/

/-- The entry that is filled, the one that is reaped, and the one that loses its stack. -/
def Change.fresh : Option Change → Option Slot
  | some (.fill _ _ np) => some np
  | _ => none

def Change.gone : Option Change → Option Slot
  | some (.collect _ _ q) => some q
  | _ => none

def Change.bare : Option Change → Option Slot
  | some (.collect _ _ q) => some q
  | some (.drop _ np) => some np
  | _ => none

namespace State

variable {s s' : State}

structure Shift (s s' : State) (c : Option Change) : Prop where
  others : ∀ q, Change.fresh c ≠ some q → Change.gone c ≠ some q → (s.proc q).phase.Ages (s'.proc q).phase
  fresh : ∀ q, Change.fresh c = some q → (s.proc q).phase = .vacant ∧ (s'.proc q).phase = .live
  gone : ∀ q, Change.gone c = some q → (s.proc q).phase = .dead ∧ (s'.proc q).phase = .vacant
  given : ∀ p np, c = some (.drop p np) → (s.proc np).phase = .vacant
  stackless : ∀ q, s'.Stackless q → s.Stackless q ∨ Change.bare c = some q

namespace Shift

variable {c : Option Change} {q : Slot}

theorem live (h : Shift s s' c) (hq : (s'.proc q).phase = .live) :
    Change.fresh c = some q ∨ (s.proc q).phase = .live := by
  by_cases hfresh : Change.fresh c = some q
  · exact .inl hfresh
  by_cases hgone : Change.gone c = some q
  · rw [(h.gone q hgone).2] at hq
    cases hq
  · obtain heq | ⟨hlive, -⟩ := h.others q hfresh hgone
    · exact .inr (heq.trans hq)
    · exact .inr hlive

theorem occupied (h : Shift s s' c) (hq : (s'.proc q).phase ≠ .vacant) :
    Change.fresh c = some q ∨ (s.proc q).phase ≠ .vacant := by
  by_cases hfresh : Change.fresh c = some q
  · exact .inl hfresh
  by_cases hgone : Change.gone c = some q
  · exact absurd (h.gone q hgone).2 hq
  · obtain heq | ⟨hlive, -⟩ := h.others q hfresh hgone
    · exact .inr (heq ▸ hq)
    · exact .inr (by rw [hlive]; nofun)

theorem stays (h : Shift s s' c) (hq : (s.proc q).phase ≠ .vacant) :
    Change.gone c = some q ∨ (s'.proc q).phase ≠ .vacant := by
  by_cases hgone : Change.gone c = some q
  · exact .inl hgone
  by_cases hfresh : Change.fresh c = some q
  · exact absurd (h.fresh q hfresh).1 hq
  · obtain heq | ⟨-, hdead⟩ := h.others q hfresh hgone
    · exact .inr (heq ▸ hq)
    · exact .inr (by rw [hdead]; nofun)

end Shift

variable {p np : Slot} {call : Create}

theorem Made.phase (h : s.Made p np (call, false)) : (s.proc np).phase = .vacant := by
  have hparent : (s.proc np).parent = none := by
    have hnone := h.parent
    rwa [Option.isSome_eq_false_iff, Option.isNone_iff_eq_none] at hnone
  rw [Proc.phase, h.embryo]
  exact if_pos hparent

theorem Shift.fill (hs : s.Inv) (hpc : (s.proc p).pc = .copy call np) :
    Shift s (s.copyProc p np call) (some (.fill call p np)) := by
  have hcreating : (s.proc p).pc.creating = some (np, (call, false)) := by rw [hpc]; rfl
  have hmade := hs.wf.made hcreating
  constructor
  · intro q hnp _
    have hq : q ≠ np := fun h => hnp (congrArg some h.symm)
    simp only [State.copyProc]
    rw [phase_pc, setProc_of_ne hq]
    exact .refl _
  · rintro _ ⟨⟩
    refine ⟨hmade.phase, ?_⟩
    simp only [State.copyProc]
    rw [phase_pc, setProc_self, Proc.phase, hmade.embryo]
    rfl
  · exact nofun
  · exact nofun
  · intro q hq
    refine .inl (stackless_setProc (stackless_setProc hq (fun _ h => h) fun _ _ h => nomatch h)
      (fun _ h => h) fun _ _ h => h)

theorem Shift.drop (hs : s.Inv) (hpc : (s.proc p).pc = .kstack call np ∨ (s.proc p).pc = .copy call np) :
    Shift s (s.giveUp p np) (some (.drop p np)) := by
  have hcreating : (s.proc p).pc.creating = some (np, (call, false)) := by
    rcases hpc with h | h <;> rw [h] <;> rfl
  have hmade := hs.wf.made hcreating
  constructor
  · intro q _ _
    simp only [State.giveUp]
    rw [phase_pc]
    refine ages_setProc (.inl ?_) q
    rw [hmade.phase]
    rfl
  · exact nofun
  · exact nofun
  · rintro _ _ ⟨⟩
    exact hmade.phase
  · intro q hq
    by_cases hnp : q = np
    · exact .inr (congrArg some hnp.symm)
    · exact .inl (stackless_setProc (stackless_setProc hq (fun _ h => h) fun _ _ h => nomatch h)
        (fun h => absurd h hnp) fun _ _ h => h)

theorem Shift.collect (hs : s.Inv) {t : State} {call : Reaper} {q : Slot}
    (hbefore : Quiets s t) (hstate : (t.proc p).state = .running) (hchild : t.Child call p q)
    (hzombie : (t.proc q).state = .zombie) (hsame : ∀ r, r ≠ p → t.proc r = s.proc r)
    (hafter : Quiets (t.collect call p q) s') : Shift s s' (some (.collect call p q)) := by
  have hqp : q ≠ p := by
    rintro rfl
    rw [hstate] at hzombie
    cases hzombie
  have hinv : (t.collect call p q).Inv := (hbefore.ages hs p).1.collect call hchild.1 hzombie
  constructor
  · intro r _ hr
    have hrq : r ≠ q := fun h => hr (congrArg some h.symm)
    have hcollect : (t.collect call p q).proc r = t.proc r := setProc_of_ne hrq _
    exact (hcollect ▸ (hbefore.ages hs r).2).trans (hafter.ages hinv r).2
  · rintro _ ⟨⟩
  · rintro _ ⟨⟩
    refine ⟨by rw [← hsame q hqp, Proc.phase_zombie hzombie], ?_⟩
    have hages := (hafter.ages hinv q).2
    have hvacant : ((t.collect call p q).proc q).phase = .vacant := by
      simp only [State.collect, clear, setProc_self]
      rfl
    rw [hvacant] at hages
    obtain h | ⟨h, -⟩ := hages
    · exact h.symm
    · cases h
  · rintro _ _ ⟨⟩
  · intro r hr
    by_cases hrq : r = q
    · exact .inr (congrArg some hrq.symm)
    · exact .inl (hbefore.stackless (stackless_setProc
        (s := { t with reaped := t.record call p q :: t.reaped })
        (hafter.stackless hr) (fun h => absurd h hrq) fun _ _ h => h))

theorem Did.shift (hs : s.Inv) {c : Option Change} (h : Did s s' c) : Shift s s' c := by
  cases h with
  | quiet h =>
    exact ⟨fun q _ _ => (h.ages hs q).2, nofun, nofun, nofun, fun q hq => .inl (h.stackless hq)⟩
  | fill call p np hstate hpc h => exact h ▸ .fill hs hpc
  | drop call p np hstate hpc h => exact h ▸ .drop hs hpc
  | collect call p q t hbefore hstate hidle hchild hzombie hsame hafter =>
    exact .collect hs hbefore hstate hchild hzombie hsame hafter

theorem not_stackless_of_step (hs : s.Inv)
    (hpc : (s.proc p).pc = .kstack call np) (hstep : s.step (.kstack p true) = some s') :
    ¬ s'.Stackless np := by
  have hcreating : (s.proc p).pc.creating = some (np, (call, false)) := by rw [hpc]; rfl
  have hmade := hs.wf.made hcreating
  simp only [step, hpc, if_true] at hstep
  split at hstep
  case h_2 => cases hstep
  rename_i call' np' _ heq
  cases heq
  cases hstep
  have hne : np ≠ p := by
    rintro rfl
    exact Nat.lt_irrefl _ hmade.serial
  rintro (hunused | ⟨r, call', hr⟩)
  · rw [setProc_of_ne hne, hmade.embryo] at hunused
    cases hunused
  · by_cases hrp : r = p
    · rw [hrp, setProc_self] at hr
      cases hr
    · rw [setProc_of_ne hrp] at hr
      exact hrp (hs.wf.unique (by rw [hr]; rfl : _ = some (np, (call', false))) hcreating)

end State

end Xv6.Ptable
