import Xv6.Ptable.Model
import Mathlib.Logic.Relation

/-!
# What a step does to the table

Every step is a sequence of moves, each of which changes one or two entries, or wakes sleepers. The
invariants of the table are proved move by move.
-/

namespace Xv6.Ptable

/-- The entry that a process in `fork` or `thread_create` has taken, and whether it has a parent. -/
def Pc.creating : Pc → Option (Slot × Create × Bool)
  | .kstack call np | .copy call np => some (np, call, false)
  | .ready call np => some (np, call, true)
  | _ => none

def Pc.Idle (pc : Pc) : Prop := pc.creating = none

@[simp] theorem Pc.idle_user : Pc.user.Idle := rfl

@[simp] theorem Pc.idle_reap (call : Reaper) : (Pc.reap call).Idle := rfl

@[simp] theorem Pc.idle_asleep : Pc.asleep.Idle := rfl

def Proc.Waits (x : Proc) (p : Slot) : Prop := x.state = .sleeping ∧ x.chan = some (.proc p)

namespace State

def wake (s : State) (W : Slot → Bool) : State :=
  { s with proc := fun q =>
      if (s.proc q).state = .sleeping ∧ W q then { s.proc q with state := .runnable } else s.proc q }

def mark (s : State) (killed named : Slot → Bool) : State :=
  { s with proc := fun q => { s.proc q with killed := killed q, named := named q } }

def collect (s : State) (call : Reaper) (p q : Slot) : State :=
  { s with reaped := s.record call p q :: s.reaped }.clear q

variable (s : State)

inductive Quiet : State → Prop
  | run (p : Slot) (hstate : (s.proc p).state = .runnable) :
      Quiet (s.setProc p { s.proc p with state := .running })
  | yield (p : Slot) (hstate : (s.proc p).state = .running) :
      Quiet (s.setProc p { s.proc p with state := .runnable })
  | goto (p : Slot) (chan : Option Chan) (pc : Pc) (hstate : (s.proc p).state = .running)
      (hidle : (s.proc p).pc.Idle) (hpc : pc.Idle) :
      Quiet (s.setProc p { s.proc p with chan := chan, pc := pc })
  | sleep (p : Slot) (chan : Option Chan) (hstate : (s.proc p).state = .running)
      (hidle : (s.proc p).pc.Idle) : Quiet (s.sleep p chan .asleep)
  | block (p : Slot) (call : Reaper) (hstate : (s.proc p).state = .running)
      (hidle : (s.proc p).pc.Idle) (hnone : ∀ q, s.Child call p q → (s.proc q).state ≠ .zombie) :
      Quiet (s.sleep p (some (.proc p)) (.reap call))
  | wake (W : Slot → Bool) : Quiet (s.wake W)
  | mark (killed named : Slot → Bool) : Quiet (s.mark killed named)
  | claim (p np : Slot) (call : Create) (hstate : (s.proc p).state = .running)
      (hidle : (s.proc p).pc.Idle) (hunused : (s.proc np).state = .unused) : Quiet (s.claim p np call)
  | stack (p np : Slot) (call : Create) (hstate : (s.proc p).state = .running)
      (hpc : (s.proc p).pc = .kstack call np) : Quiet (s.setProc p { s.proc p with pc := .copy call np })
  | ready (p np : Slot) (call : Create) (hstate : (s.proc p).state = .running)
      (hpc : (s.proc p).pc = .ready call np) : Quiet (s.makeReady p np)
  | adopt (p q : Slot) (hstate : (s.proc p).state = .running) (hinit : p ≠ initproc)
      (hparent : (s.proc q).parent = some p)
      (hzombie : (s.proc q).state = .zombie → ¬ (s.proc initproc).Waits initproc) :
      Quiet (s.setProc q { s.proc q with parent := some initproc })
  | exit (p : Slot) (hstate : (s.proc p).state = .running) (hidle : (s.proc p).pc.Idle)
      (hinit : p ≠ initproc) (hchildren : ∀ q, (s.proc q).parent ≠ some p)
      (hparent : ∀ r, (s.proc p).parent = some r → ¬ (s.proc r).Waits r) :
      Quiet (s.setProc p { s.proc p with state := .zombie })

inductive Move : State → Prop
  | quiet {s' : State} (h : Quiet s s') : Move s'
  | giveUp (p np : Slot) (call : Create) (hstate : (s.proc p).state = .running)
      (hpc : (s.proc p).pc = .kstack call np ∨ (s.proc p).pc = .copy call np) : Move (s.giveUp p np)
  | copy (p np : Slot) (call : Create) (hstate : (s.proc p).state = .running)
      (hpc : (s.proc p).pc = .copy call np) : Move (s.copyProc p np call)
  | collect (call : Reaper) (p q : Slot) (hstate : (s.proc p).state = .running)
      (hidle : (s.proc p).pc.Idle) (hchild : s.Child call p q)
      (hzombie : (s.proc q).state = .zombie) : Move (s.collect call p q)

abbrev Quiets : State → State → Prop := Relation.ReflTransGen Quiet

abbrev Moves : State → State → Prop := Relation.ReflTransGen Move

variable {s' : State} {q r p : Slot} {call : Reaper}

theorem Quiets.moves {s : State} (h : Quiets s s') : Moves s s' := by
  induction h with
  | refl => exact .refl
  | tail _ hmove ih => exact ih.tail (.quiet hmove)

/-! ### The functions as moves -/

variable {s}

@[simp] theorem setProc_self (q : Slot) (x : Proc) : (s.setProc q x).proc q = x :=
  Function.update_self ..

theorem setProc_of_ne (hne : r ≠ q) (x : Proc) : (s.setProc q x).proc r = s.proc r :=
  Function.update_of_ne hne ..

theorem wakeup1_eq (chan : Option Chan) : s.wakeup1 chan = s.wake fun q => (s.proc q).chan = chan := by
  simp only [wakeup1, Proc.wake, wake, decide_eq_true_eq]

theorem Quiets.wakeup1 (chan : Option Chan) : Quiets s (s.wakeup1 chan) := by
  rw [wakeup1_eq]
  exact .single (.wake _)

/-! The loop of `exit`. -/

theorem wake_parent (chan : Option Chan) (x : Proc) : (x.wake chan).parent = x.parent := by
  unfold Proc.wake
  split_ifs <;> rfl

theorem wake_of_ne {x : Proc} (hstate : x.state ≠ .sleeping) (chan : Option Chan) : x.wake chan = x :=
  if_neg fun h => hstate h.1

theorem not_waits_wake {x : Proc} (chan : Option Chan) (hx : ¬ x.Waits r) : ¬ (x.wake chan).Waits r := by
  unfold Proc.wake
  split_ifs with h
  · rintro ⟨hstate, -⟩
    cases hstate
  · exact hx

theorem not_waits_wake_self (x : Proc) (r : Slot) : ¬ (x.wake (some (.proc r))).Waits r := by
  unfold Proc.wake
  split_ifs with h
  · rintro ⟨hstate, -⟩
    cases hstate
  · exact h

theorem wake_setParent (chan : Option Chan) (x : Proc) (r : Option Slot) :
    ({ x with parent := r } : Proc).wake chan = { x.wake chan with parent := r } := by
  unfold Proc.wake
  split_ifs <;> rfl

theorem wakeup1_setParent (chan : Option Chan) (q : Slot) (r : Option Slot) :
    (s.setProc q { s.proc q with parent := r }).wakeup1 chan =
      (s.wakeup1 chan).setProc q { (s.wakeup1 chan).proc q with parent := r } := by
  unfold State.wakeup1 setProc
  congr 1
  funext a
  by_cases ha : a = q
  · subst ha
    simp only [Function.update_self, wake_setParent]
  · simp only [Function.update_of_ne ha]

structure Leaving (s : State) (p : Slot) : Prop where
  state : (s.proc p).state = .running
  idle : (s.proc p).pc.Idle
  parent_ne : (s.proc p).parent ≠ some p
  parent : ∀ r, (s.proc p).parent = some r → ¬ (s.proc r).Waits r

namespace Leaving

variable {p : Slot}

theorem wakeup1 (hs : s.Leaving p) (chan : Option Chan) : (s.wakeup1 chan).Leaving p := by
  have hp : (s.wakeup1 chan).proc p = s.proc p :=
    wake_of_ne (by rw [hs.state]; decide) chan
  exact
    { state := hp ▸ hs.state
      idle := hp ▸ hs.idle
      parent_ne := hp ▸ hs.parent_ne
      parent := fun r hr => not_waits_wake chan (hs.parent r (hp ▸ hr)) }

theorem setParent (hs : s.Leaving p) {q : Slot} (hq : (s.proc q).parent = some p) :
    (s.setProc q { s.proc q with parent := some initproc }).Leaving p := by
  have hne : p ≠ q := fun h => hs.parent_ne (h ▸ hq)
  have hp : (s.setProc q { s.proc q with parent := some initproc }).proc p = s.proc p :=
    setProc_of_ne hne _
  refine ⟨hp ▸ hs.state, hp ▸ hs.idle, hp ▸ hs.parent_ne, fun r hr => ?_⟩
  have hnot := hs.parent r (hp ▸ hr)
  by_cases hrq : r = q
  · subst hrq
    rwa [setProc_self]
  · rwa [setProc_of_ne hrq]

theorem adopt (hs : s.Leaving p) (hinit : p ≠ initproc) (q : Slot) :
    Quiets s (adopt p s q) ∧ (State.adopt p s q).Leaving p := by
  unfold State.adopt
  by_cases hparent : (s.proc q).parent = some p
  · simp only [if_pos hparent, setProc_self]
    by_cases hz : (s.proc q).state = .zombie
    · rw [if_pos hz]
      -- Waking `init` before the parent changes comes to the same.
      rw [wakeup1_setParent]
      have hwoken := hs.wakeup1 (some (.proc initproc))
      have hq : ((s.wakeup1 (some (.proc initproc))).proc q).parent = some p :=
        (wake_parent _ _).trans hparent
      exact ⟨(Quiets.wakeup1 _).tail (.adopt p q hwoken.state hinit hq
        fun _ => not_waits_wake_self _ _), hwoken.setParent hq⟩
    · rw [if_neg hz]
      exact ⟨.single (.adopt p q hs.state hinit hparent fun h => absurd h hz), hs.setParent hparent⟩
  · rw [if_neg hparent]
    exact ⟨.refl, hs⟩

theorem foldl_adopt (hs : s.Leaving p) (hinit : p ≠ initproc) (l : List Slot) :
    Quiets s (l.foldl (State.adopt p) s) ∧ (l.foldl (State.adopt p) s).Leaving p := by
  induction l generalizing s with
  | nil => exact ⟨.refl, hs⟩
  | cons q l ih =>
    obtain ⟨hmove, hafter⟩ := hs.adopt hinit q
    obtain ⟨hmoves, hend⟩ := ih hafter
    exact ⟨hmove.trans hmoves, hend⟩

end Leaving

theorem adopt_parent (hinit : p ≠ initproc)
    (hafter : ((adopt p s q).proc r).parent = some p) : r ≠ q ∧ (s.proc r).parent = some p := by
  have hset : ∀ t : State, ((t.setProc q { t.proc q with parent := some initproc }).proc r).parent =
      some p → r ≠ q ∧ (t.proc r).parent = some p := by
    intro t ht
    by_cases hr : r = q
    · subst hr
      rw [setProc_self] at ht
      exact absurd (Option.some.inj ht).symm hinit
    · exact ⟨hr, by rwa [setProc_of_ne hr] at ht⟩
  unfold adopt at hafter
  by_cases hparent : (s.proc q).parent = some p
  · simp only [if_pos hparent] at hafter
    split_ifs at hafter with hz
    · exact hset s ((wake_parent _ _).symm.trans hafter)
    · exact hset s hafter
  · rw [if_neg hparent] at hafter
    exact ⟨fun h => hparent (h ▸ hafter), hafter⟩

theorem foldl_adopt_parent (hinit : p ≠ initproc) (l : List Slot) (s : State)
    (hafter : ((l.foldl (adopt p) s).proc r).parent = some p) : r ∉ l ∧ (s.proc r).parent = some p := by
  induction l generalizing s with
  | nil => exact ⟨List.not_mem_nil, hafter⟩
  | cons q l ih =>
    obtain ⟨hl, hparent⟩ := ih _ hafter
    obtain ⟨hq, hbefore⟩ := adopt_parent hinit hparent
    exact ⟨by simp [hq, hl], hbefore⟩

theorem Leaving.start (hstate : (s.proc p).state = .running)
    (hidle : (s.proc p).pc.Idle) (hself : (s.proc p).parent ≠ some p) :
    (s.wakeup1 ((s.proc p).parent.map .proc)).Leaving p := by
  have hp : (s.wakeup1 ((s.proc p).parent.map .proc)).proc p = s.proc p :=
    wake_of_ne (by rw [hstate]; decide) _
  refine ⟨by rw [hp, hstate], by rwa [hp], by rwa [hp], fun r hr => ?_⟩
  rw [hp] at hr
  rw [hr]
  exact not_waits_wake_self _ r

theorem Quiets.exitSection (hstate : (s.proc p).state = .running)
    (hidle : (s.proc p).pc.Idle) (hinit : p ≠ initproc) (hself : (s.proc p).parent ≠ some p) :
    Quiets s (s.exitSection p) := by
  obtain ⟨hmoves, hend⟩ :=
    (Leaving.start hstate hidle hself).foldl_adopt hinit (List.finRange nproc)
  have hnone : ∀ q, (((List.finRange nproc).foldl (adopt p)
      (s.wakeup1 ((s.proc p).parent.map .proc))).proc q).parent ≠ some p :=
    fun q hq => (foldl_adopt_parent hinit _ _ hq).1 (List.mem_finRange q)
  exact ((Quiets.wakeup1 _).trans hmoves).tail (.exit p hend.state hend.idle hinit hnone hend.parent)

theorem find?_finRange {test : Slot → Bool} (hfind : (List.finRange nproc).find? test = some q) :
    test q = true ∧ ∀ r < q, ¬ test r = true := by
  obtain ⟨hq, i, hi, heq, hbefore⟩ := List.find?_eq_some_iff_getElem.mp hfind
  rw [List.getElem_finRange] at heq
  subst heq
  refine ⟨hq, fun r hr => ?_⟩
  have hr' := hbefore r.val hr
  simpa [List.getElem_finRange] using hr'

/-! The loops of `wait` and `thread_join`. -/

theorem scan_found_first (hscan : s.scan call p = .found q) :
    (s.Child call p q ∧ (s.proc q).state = .zombie) ∧
      ∀ r < q, ¬ (s.Child call p r ∧ (s.proc r).state = .zombie) := by
  unfold scan at hscan
  split at hscan
  · rename_i r hfind
    cases hscan
    simpa only [decide_eq_true_eq] using find?_finRange hfind
  · split at hscan <;> cases hscan

theorem scan_found (hscan : s.scan call p = .found q) : s.Child call p q ∧ (s.proc q).state = .zombie :=
  (scan_found_first hscan).1

theorem scan_fails (hscan : s.scan call p = .fails) :
    (∀ q, ¬ s.Child call p q) ∨ (s.proc p).killed = true := by
  unfold scan at hscan
  split at hscan
  · cases hscan
  · split at hscan
    · rename_i h
      simpa using h
    · cases hscan

theorem scan_sleeps (hscan : s.scan call p = .sleeps)
    (hchild : s.Child call p q) : (s.proc q).state ≠ .zombie := by
  unfold scan at hscan
  split at hscan
  · cases hscan
  · rename_i hnone
    have hq := List.find?_eq_none.mp hnone q (List.mem_finRange q)
    simpa [hchild] using hq

/-- What a step does: quiet moves, or a change of the entries in use. Before a child is collected, its
parent has gone on. -/
inductive Did (s s' : State) : Option Change → Prop
  | quiet (h : Quiets s s') : Did s s' none
  | fill (call : Create) (p np : Slot) (hstate : (s.proc p).state = .running)
      (hpc : (s.proc p).pc = .copy call np) (h : s' = s.copyProc p np call) :
      Did s s' (some (.fill call p np))
  | drop (call : Create) (p np : Slot) (hstate : (s.proc p).state = .running)
      (hpc : (s.proc p).pc = .kstack call np ∨ (s.proc p).pc = .copy call np)
      (h : s' = s.giveUp p np) : Did s s' (some (.drop p np))
  | collect (call : Reaper) (p q : Slot) (t : State) (hbefore : Quiets s t)
      (hstate : (t.proc p).state = .running) (hidle : (t.proc p).pc.Idle) (hchild : t.Child call p q)
      (hzombie : (t.proc q).state = .zombie) (hsame : ∀ r, r ≠ p → t.proc r = s.proc r)
      (hafter : Quiets (t.collect call p q) s') : Did s s' (some (.collect call p q))

theorem Did.moves {c : Option Change} (h : Did s s' c) : Moves s s' := by
  cases h with
  | quiet h => exact h.moves
  | fill call p np hstate hpc h => exact h ▸ .single (.copy p np call hstate hpc)
  | drop call p np hstate hpc h => exact h ▸ .single (.giveUp p np call hstate hpc)
  | collect call p q t hbefore hstate hidle hchild hzombie hsame hafter =>
    exact (hbefore.moves.tail (.collect call p q hstate hidle hchild hzombie)).trans hafter.moves

theorem Did.reap (hstate : (s.proc p).state = .running) (hidle : (s.proc p).pc.Idle) (call : Reaper) :
    Did s (s.reap call p) ((s.found? call p).map (.collect call p)) := by
  unfold State.reap found?
  cases hscan : s.scan call p with
  | found q =>
    obtain ⟨hchild, hzombie⟩ := scan_found hscan
    have hne : p ≠ q := by
      rintro rfl
      rw [hstate] at hzombie
      cases hzombie
    have hp : (s.collect call p q).proc p = s.proc p := setProc_of_ne hne _
    exact .collect call p q s .refl hstate hidle hchild hzombie (fun _ _ => rfl)
      (.single (.goto p ((s.collect call p q).proc p).chan .user (hp ▸ hstate) (hp ▸ hidle) Pc.idle_user))
  | fails => exact .quiet (.single (.goto p (s.proc p).chan .user hstate hidle Pc.idle_user))
  | sleeps => exact .quiet (.single (.block p call hstate hidle fun q => scan_sleeps hscan))

theorem Did.after {t : State} {g : Option (Reaper × Slot)} (hbefore : Quiets s t)
    (hother : ∀ r, r ≠ p → t.proc r = s.proc r) (h : Did t s' (g.map fun g => .collect g.1 p g.2)) :
    Did s s' (g.map fun g => .collect g.1 p g.2) := by
  cases g with
  | none =>
    cases h with
    | quiet h => exact .quiet (hbefore.trans h)
  | some g =>
    cases h with
    | collect _ _ _ u hbefore' hstate hidle hchild hzombie hsame hafter =>
      exact .collect g.1 p g.2 u (hbefore.trans hbefore') hstate hidle hchild hzombie
        (fun r hr => (hsame r hr).trans (hother r hr)) hafter

theorem found?_setProc {x : Proc} (hparent : x.parent = (s.proc p).parent)
    (hthread : x.isThread = (s.proc p).isThread) (hkilled : x.killed = (s.proc p).killed)
    (hzombie : x.state = .zombie ↔ (s.proc p).state = .zombie) (call : Reaper) :
    (s.setProc p x).found? call p = s.found? call p := by
  have hchild : ∀ q, (s.setProc p x).Child call p q ↔ s.Child call p q := by
    intro q
    unfold Child
    by_cases hq : q = p
    · subst hq
      rw [setProc_self, hparent, hthread]
    · rw [setProc_of_ne hq]
  have hstate : ∀ q, ((s.setProc p x).proc q).state = .zombie ↔ (s.proc q).state = .zombie := by
    intro q
    by_cases hq : q = p
    · subst hq
      rw [setProc_self, hzombie]
    · rw [setProc_of_ne hq]
  have hp : ((s.setProc p x).proc p).killed = (s.proc p).killed := by rw [setProc_self, hkilled]
  unfold found? scan
  simp only [hchild, hstate, hp]

theorem Did.goOn (hstate : (s.proc p).state = .running) :
    Did s (s.goOn p) ((s.goneOn? p).map fun g => .collect g.1 p g.2) := by
  unfold State.goOn
  cases hpc : (s.proc p).pc with
  | reap call =>
    have hidle : (s.proc p).pc.Idle := hpc ▸ Pc.idle_reap call
    have hfound : ∀ call', (s.setProc p { s.proc p with chan := none }).found? call' p =
        s.found? call' p := by
      refine found?_setProc ?_ ?_ ?_ ?_ <;> rfl
    have hreap := Did.reap (s := s.setProc p { s.proc p with chan := none }) (p := p)
      (by rwa [setProc_self]) (by rwa [setProc_self]) call
    have hgone : (s.goneOn? p).map (fun g => Change.collect g.1 p g.2) =
        (s.found? call p).map (Change.collect call p) := by
      simp only [goneOn?, hpc, Option.map_map, Function.comp_def]
    rw [hfound call, ← hgone] at hreap
    exact hreap.after (.single (.goto p none (s.proc p).pc hstate hidle hidle))
      fun r hr => setProc_of_ne hr _
  | asleep =>
    simp only [goneOn?, hpc, Option.map_none]
    exact .quiet (.single (.goto p none .user hstate (hpc ▸ Pc.idle_asleep) Pc.idle_user))
  | user | kstack | copy | ready =>
    simp only [goneOn?, hpc, Option.map_none]
    exact .quiet .refl

theorem Did.resume (hstate : (s.proc p).state = .runnable) :
    Did s (s.resume p) ((s.goneOn? p).map fun g => .collect g.1 p g.2) := by
  have hgoOn := Did.goOn (s := s.setProc p { s.proc p with state := .running }) (p := p)
    (by rw [setProc_self])
  have hfound : ∀ call, (s.setProc p { s.proc p with state := .running }).found? call p =
      s.found? call p := found?_setProc (by rfl) (by rfl) (by rfl) (by simp [hstate])
  have hgone : (s.setProc p { s.proc p with state := .running }).goneOn? p = s.goneOn? p := by
    simp only [goneOn?, setProc_self, hfound]
  rw [hgone] at hgoOn
  exact hgoOn.after (.single (.run p hstate)) fun r hr => setProc_of_ne hr _

theorem kill_of_target {pid : Int} (hfind : s.target? pid = some q) :
    (s.kill pid).2 = (s.mark (fun r => (s.proc r).killed || r = q)
      fun r => (s.proc r).named || (s.proc r).pid = pid).wake (fun r => r = q) := by
  simp only [kill, hfind, setProc, wake, mark, State.mk.injEq, and_true]
  funext r
  by_cases hr : r = q
  · subst hr
    by_cases hsleep : (s.proc r).state = .sleeping <;> simp [hsleep]
  · simp [hr]

theorem Quiets.kill (pid : Int) : Quiets s (s.kill pid).2 := by
  cases hfind : s.target? pid with
  | none =>
    simp only [State.kill, hfind]
    exact .single (.mark (fun q => (s.proc q).killed) _)
  | some q =>
    rw [kill_of_target hfind]
    exact (Relation.ReflTransGen.single (.mark _ _)).tail (.wake _)

theorem unused?_first {np : Slot} (hfind : s.unused? = some np) :
    (s.proc np).state = .unused ∧ ∀ r < np, ¬ (s.proc r).state = .unused := by
  simpa only [decide_eq_true_eq] using find?_finRange hfind

theorem unused?_eq_some {np : Slot} (hfind : s.unused? = some np) : (s.proc np).state = .unused :=
  (unused?_first hfind).1

theorem Quiets.allocproc (hstate : (s.proc p).state = .running)
    (hidle : (s.proc p).pc.Idle) (call : Create) : Quiets s (s.allocproc p call) := by
  unfold State.allocproc
  cases hfind : s.unused? with
  | none => exact .refl
  | some np => exact .single (.claim p np call hstate hidle (unused?_eq_some hfind))

/-- What each action does, and where the process is that takes it. -/
inductive Took (s : State) : Act → State → Prop
  | schedule (p : Slot) (hstate : (s.proc p).state = .runnable) : Took s (.schedule p) (s.resume p)
  | yield (p : Slot) (hstate : (s.proc p).state = .running) :
    Took s (.yield p) (s.setProc p { s.proc p with state := .runnable })
  | alloc (p : Slot) (call : Create) (huser : s.InUser p) : Took s (.alloc p call) (s.allocproc p call)
  | stack (p np : Slot) (call : Create) (hstate : (s.proc p).state = .running)
    (hpc : (s.proc p).pc = .kstack call np) :
    Took s (.kstack p true) (s.setProc p { s.proc p with pc := .copy call np })
  | stackless (p np : Slot) (call : Create) (hstate : (s.proc p).state = .running)
    (hpc : (s.proc p).pc = .kstack call np) : Took s (.kstack p false) (s.giveUp p np)
  | copy (p np : Slot) (call : Create) (ok : Bool) (hstate : (s.proc p).state = .running)
    (hpc : (s.proc p).pc = .copy call np) (hok : ¬ (call = .fork ∧ ok = false)) :
    Took s (.copy p ok) (s.copyProc p np call)
  | copyless (p np : Slot) (hstate : (s.proc p).state = .running) (hpc : (s.proc p).pc = .copy .fork np) :
    Took s (.copy p false) (s.giveUp p np)
  | ready (p np : Slot) (call : Create) (hstate : (s.proc p).state = .running)
    (hpc : (s.proc p).pc = .ready call np) : Took s (.ready p) (s.makeReady p np)
  | exit (p : Slot) (huser : s.InUser p) (hinit : p ≠ initproc) : Took s (.exit p) (s.exit p)
  | threadExit (p : Slot) (huser : s.InUser p) (hinit : p ≠ initproc) :
    Took s (.threadExit p) (s.threadExit p)
  | wait (p : Slot) (huser : s.InUser p) : Took s (.wait p) (s.wait p)
  | threadJoin (p : Slot) (huser : s.InUser p) : Took s (.threadJoin p) (s.threadJoin p)
  | kill (p : Slot) (pid : Int) : Took s (.kill p pid) (s.kill pid).2
  | sleep (p : Slot) (chan : Option Chan) (huser : s.InUser p) :
    Took s (.sleep p chan) (s.sleep p chan .asleep)
  | wakeup (chan : Option Chan) : Took s (.wakeup chan) (s.wakeup1 chan)

theorem Took.of_step {a : Act} (hstep : s.step a = some s') : Took s a s' := by
  cases a with
  | schedule | yield | alloc | wait | threadJoin | sleep =>
    obtain ⟨h, ⟨⟩⟩ := Option.ite_none_right_eq_some.mp hstep
    constructor
    exact h
  | exit p | threadExit p =>
    obtain ⟨⟨huser, hinit⟩, ⟨⟩⟩ := Option.ite_none_right_eq_some.mp hstep
    constructor <;> assumption
  | kill p pid =>
    obtain ⟨-, ⟨⟩⟩ := Option.ite_none_right_eq_some.mp hstep
    exact .kill p pid
  | kstack p ok =>
    simp only [State.step] at hstep
    split at hstep <;> cases hstep
    rename_i call np hstate hpc
    cases ok with
    | true => exact .stack p np call hstate hpc
    | false => exact .stackless p np call hstate hpc
  | copy p ok =>
    simp only [State.step] at hstep
    split at hstep <;> cases hstep
    rename_i call np hstate hpc
    split_ifs with hfail
    · obtain ⟨rfl, rfl⟩ := hfail
      exact .copyless p np hstate hpc
    · exact .copy p np call ok hstate hpc hfail
  | ready p =>
    simp only [State.step] at hstep
    split at hstep <;> cases hstep
    exact .ready p _ _ ‹_› ‹_›
  | wakeup chan =>
    cases hstep
    exact .wakeup chan

theorem Did.step {a : Act} (hself : ∀ p, (s.proc p).parent ≠ some p)
    (hstep : s.step a = some s') : Did s s' (s.change? a) := by
  cases Took.of_step hstep with
  | schedule p hstate => exact .resume hstate
  | yield p hstate => exact .quiet (.single (.yield p hstate))
  | alloc p call huser => exact .quiet (Quiets.allocproc huser.1 (huser.2 ▸ Pc.idle_user) call)
  | stack p np call hstate hpc => exact .quiet (.single (.stack p np call hstate hpc))
  | stackless p np call hstate hpc =>
    simp only [change?, hpc]
    exact .drop call p np hstate (.inl hpc) rfl
  | copy p np call ok hstate hpc hok =>
    simp only [change?, hpc, if_neg hok]
    exact .fill call p np hstate hpc rfl
  | copyless p np hstate hpc =>
    simp only [change?, hpc]
    exact .drop .fork p np hstate (.inr hpc) rfl
  | ready p np call hstate hpc => exact .quiet (.single (.ready p np call hstate hpc))
  | exit p huser hinit | threadExit p huser hinit =>
    exact .quiet (Quiets.exitSection huser.1 (huser.2 ▸ Pc.idle_user) hinit (hself p))
  | wait p huser => exact Did.reap huser.1 (huser.2 ▸ Pc.idle_user) .wait
  | threadJoin p huser => exact Did.reap huser.1 (huser.2 ▸ Pc.idle_user) .threadJoin
  | kill p pid => exact .quiet (.kill pid)
  | sleep p chan huser => exact .quiet (.single (.sleep p chan huser.1 (huser.2 ▸ Pc.idle_user)))
  | wakeup chan => exact .quiet (.wakeup1 chan)

end State

end Xv6.Ptable
