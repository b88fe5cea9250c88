import Xv6.Ipc.Fifo

/-!
# No lost wakeup on a pipe

A process that sleeps on `&p->nread` or `&p->nwrite` has seen the condition it waits for fail. When
another process makes the condition true it holds `p->lock`, and it calls `wakeup` before it releases
the lock, with one exception: `pipewrite` returns early from a full pipe without a `wakeup`.
-/

namespace Xv6.Ipc

/-- The channels on which the owner of `p->lock` still has to call `wakeup`. -/
def Stmt.Owes (c : Chan) : Stmt → Prop
  | .writeFor .. | .writeWhile .. | .writeTest .. | .writeWakeup .. | .writeStore .. | .writeDone _ =>
    c = .nread
  | .readFor .. | .readStore .. | .readDone _ => c = .nwrite
  | .closeWakeup w => c = if w then .nread else .nwrite
  | _ => False

def Pc.Owes (c : Chan) : Pc → Prop
  | .locked st => st.Owes c
  | _ => False

theorem Pc.Owes.holds {c : Chan} {pc : Pc} (howes : pc.Owes c) : pc.Holds := by
  cases pc with
  | locked st => trivial
  | idle | acquire _ | sleepRelease _ _ | sleepSwitch _ _ | sched _ | kfree => exact False.elim howes

/-- In `sleep`, between `release(lk)` and `p->state = SLEEPING`. -/
def Pc.SwitchesOn (c : Chan) : Pc → Prop
  | .sleepSwitch chan _ => chan = c
  | _ => False

instance (c : Chan) (pc : Pc) : Decidable (pc.SwitchesOn c) := by
  cases pc <;> unfold Pc.SwitchesOn <;> infer_instance

def Stmt.Aborts (p : Pipe) (killed : Bool) : Stmt → Prop
  | .writeTest .. => p.readopen = false ∨ killed
  | _ => False

instance (p : Pipe) (killed : Bool) (st : Stmt) : Decidable (st.Aborts p killed) := by
  cases st <;> unfold Stmt.Aborts <;> infer_instance

def Effect.Pays (p : Pipe) (killed : Bool) (st : Stmt) : Effect → Prop
  | .goto next => ∀ c, st.Owes c → next.Owes c
  | .store next => (∀ c, st.Owes c → c = .nread) ∧ next.Owes .nread
  | .take next => (∀ c, st.Owes c → c = .nwrite) ∧ next.Owes .nwrite
  | .shut w next => (∀ c, ¬ st.Owes c) ∧ next.Owes (if w then .nread else .nwrite)
  | .wakeup chan _ => ∀ c, st.Owes c → c = chan
  | .sleep .. | .leaveFree => ∀ c, ¬ st.Owes c
  | .leave _ => ∀ c, st.Owes c → c = .nread ∧ st.Aborts p killed

/-- Only the early return of `pipewrite` releases the lock with a wakeup owed. -/
theorem Stmt.effect_pays (p : Pipe) (killed : Bool) (st : Stmt) :
    (st.effect p killed).Pays p killed st := by
  cases st with
  | writeFor n i | writeWhile n i | readFor n i =>
    intro c howes
    split <;> exact howes
  | writeTest n i =>
    simp only [Stmt.effect]
    split
    · rename_i hearly
      exact fun c howes => ⟨howes, hearly⟩
    · exact fun c howes => howes
  | writeStore n i | readStore n i => exact ⟨fun c howes => howes, rfl⟩
  | writeWakeup n i | writeDone n | readDone i | closeWakeup w => exact fun c howes => howes
  | writeSleep n i | readSleep n => exact fun c => id
  | readWhile n | ret r => exact fun c howes => False.elim howes
  | readTest n =>
    simp only [Stmt.effect]
    split <;> exact fun c howes => False.elim howes
  | closeSet w => exact ⟨fun c => id, rfl⟩
  | closeTest =>
    simp only [Stmt.effect]
    split
    · exact fun c => id
    · exact fun c howes => False.elim howes

variable {n : Nat} {s s' : State n} {p q r : Fin n} {x : Proc} {c : Chan}

namespace State

/-- Asleep on the channel, or about to be: the process no longer holds `p->lock`. -/
def Waiting (s : State n) (q : Fin n) (c : Chan) : Prop := s.SleepsOn q c ∨ (s.pc q).SwitchesOn c

instance (s : State n) (q : Fin n) (c : Chan) : Decidable (s.Waiting q c) :=
  inferInstanceAs (Decidable (_ ∨ _))

/-- Whoever waits either waits with reason or will be woken by the owner of `p->lock`. -/
def Answered (s : State n) : Prop :=
  ∀ q c, s.Waiting q c → c.Waits s.pipe ∨ ∃ r, (s.pc r).Owes c

theorem init_answered (data : Nat → UInt8) : (State.init data : State n).Answered := by
  rintro q c (hsleeps | hswitches)
  · cases hsleeps.1
  · exact hswitches.elim

theorem Moves.waiting_of_ne (hmoves : s.Moves p x s') (hq : q ≠ p) : s'.Waiting q c ↔ s.Waiting q c := by
  unfold Waiting SleepsOn
  rw [hmoves.pc_of_ne hq, hmoves, Function.update_of_ne hq]

/-- A step of one process. It may begin to wait only with reason, and it may end the reason of others,
or drop what it owes, only if it owes them a wakeup afterwards or no one waits. -/
theorem Answered.moves (hans : s.Answered) (hmoves : s.Moves p x s')
    (hself : ∀ c, s'.Waiting p c → s.Waiting p c ∨ c.Waits s'.pipe)
    (hpipe : ∀ q c, s.Waiting q c → c.Waits s.pipe → c.Waits s'.pipe ∨ x.pc.Owes c)
    (howes : ∀ q c, s.Waiting q c → (s.pc p).Owes c → x.pc.Owes c) : s'.Answered := by
  intro q c hwaiting'
  have hwaiting : s.Waiting q c ∨ c.Waits s'.pipe := by
    by_cases hq : q = p
    · rw [hq] at hwaiting' ⊢
      exact hself c hwaiting'
    · exact .inl ((hmoves.waiting_of_ne hq).mp hwaiting')
  obtain hwaiting | hwaits := hwaiting
  · obtain hwaits | ⟨r, hr⟩ := hans q c hwaiting
    · refine (hpipe q c hwaiting hwaits).imp_right fun hx => ⟨p, ?_⟩
      rw [hmoves.pc_self]
      exact hx
    · right
      by_cases hrp : r = p
      · rw [hrp] at hr
        refine ⟨p, ?_⟩
        rw [hmoves.pc_self]
        exact howes q c hwaiting hr
      · refine ⟨r, ?_⟩
        rw [hmoves.pc_of_ne hrp]
        exact hr
  · exact .inl hwaits

theorem waiting_wakeup {chan : Chan} (hwaiting : (s.wakeup chan).Waiting q c) : s.Waiting q c := by
  unfold Waiting at hwaiting ⊢
  rw [wakeup_pc] at hwaiting
  refine hwaiting.imp_left fun hsleeps => ?_
  unfold SleepsOn wakeup at hsleeps
  dsimp only at hsleeps
  split at hsleeps
  · cases hsleeps.1
  · exact hsleeps

/-- Nobody is between `release(lk)` and the switch while `ptable.lock` is free, so `wakeup` reaches
everyone who waits. -/
theorem Inv.not_waiting_wakeup (hinv : s.Inv) (hfree : s.ptable = none) : ¬ (s.wakeup c).Waiting q c := by
  rintro (hsleeps | hswitches)
  · unfold SleepsOn State.wakeup at hsleeps
    dsimp only at hsleeps
    split at hsleeps
    · cases hsleeps.1
    · rename_i hnot
      exact hnot hsleeps
  · rw [wakeup_pc] at hswitches
    have hholds : (s.pc q).HoldsPtable := by
      revert hswitches
      cases s.pc q <;> simp [Pc.SwitchesOn, Pc.HoldsPtable]
    have howner := (hinv.ptable q).mp hholds
    rw [hfree] at howner
    cases howner

theorem Answered.wakeup (hans : s.Answered) (chan : Chan) : (s.wakeup chan).Answered := by
  intro q c hwaiting
  refine (hans q c (waiting_wakeup hwaiting)).imp_right fun ⟨r, hr⟩ => ⟨r, ?_⟩
  rw [wakeup_pc]
  exact hr

theorem not_waiting_of_runs {pc : Pc} (hstate : (s'.proc p).state = .runnable)
    (hpc : s'.pc p = pc) (hswitch : ¬ pc.SwitchesOn c) : ¬ s'.Waiting p c := by
  rintro (hsleeps | hswitches)
  · rw [hsleeps.1] at hstate
    cases hstate
  · rw [hpc] at hswitches
    exact hswitch hswitches

theorem Moves.state_self (hmoves : s.Moves p x s') : (s'.proc p).state = x.state := by
  rw [hmoves, Function.update_self]

theorem Answered.runs (hans : s.Answered) (hmoves : s.Moves p x s') (hstate : x.state = .runnable)
    (hswitch : ∀ c, ¬ x.pc.SwitchesOn c)
    (hpipe : ∀ q c, s.Waiting q c → c.Waits s.pipe → c.Waits s'.pipe ∨ x.pc.Owes c)
    (howes : ∀ q c, s.Waiting q c → (s.pc p).Owes c → x.pc.Owes c) : s'.Answered :=
  hans.moves hmoves (fun c hwaiting => absurd hwaiting
      (not_waiting_of_runs (hmoves.state_self.trans hstate) hmoves.pc_self (hswitch c)))
    hpipe howes

theorem Inv.owes_owner (hinv : s.Inv) (hholds : (s.pc p).Holds) (howes : (s.pc r).Owes c) : r = p := by
  exact hinv.lock.unique hholds howes.holds

theorem Answered.waits (hans : s.Answered) (hinv : s.Inv) (hholds : (s.pc p).Holds)
    (hnot : ¬ (s.pc p).Owes c) (hwaiting : s.Waiting q c) : c.Waits s.pipe := by
  obtain hwaits | ⟨r, hr⟩ := hans q c hwaiting
  · exact hwaits
  · rw [hinv.owes_owner hholds hr] at hr
    exact absurd hr hnot

theorem Answered.apply (hans : s.Answered) (hinv : s.Inv) {st : Stmt} {b : UInt8}
    (hrun : (s.proc p).state = .runnable) (hpc : s.pc p = .locked st)
    (hquiet : st.Aborts s.pipe (s.proc p).killed → ∀ q, ¬ s.Waiting q .nread)
    (hstep : s.apply p b (st.effect s.pipe (s.proc p).killed) = some s') : s'.Answered := by
  have hholds : (s.pc p).Holds := by
    rw [hpc]
    trivial
  have hat : st.At s.pipe := by
    have hat := hinv.at_pc p
    rw [hpc] at hat
    exact hat
  have hsound := hat.effect (s.proc p).killed
  have hpays := st.effect_pays s.pipe (s.proc p).killed
  have howes : ∀ {c}, (s.pc p).Owes c → st.Owes c := by
    rw [hpc]
    exact id
  have hwaits : ∀ {q c}, s.Waiting q c → ¬ st.Owes c → c.Waits s.pipe := fun hwaiting hnot =>
    hans.waits hinv hholds (fun h => hnot (howes h)) hwaiting
  revert hstep hsound hpays
  cases st.effect s.pipe (s.proc p).killed with
  | goto next =>
    rintro ⟨⟩ - hpays
    exact hans.runs rfl hrun (fun _ => id) (fun _ _ _ h => .inl h) fun _ c _ h => hpays c (howes h)
  | store next =>
    rintro ⟨⟩ hsound hpays
    -- no writer waits: the pipe is not full and nobody else can owe a wakeup
    have hchan : ∀ q c, s.Waiting q c → c = .nread := by
      intro q c hwaiting
      cases c with
      | nread => rfl
      | nwrite => exact absurd (hwaits hwaiting fun h => nomatch hpays.1 _ h).1 hsound.1
    refine hans.runs (p := p) rfl hrun (fun _ => id) (fun q c hwaiting _ => .inr ?_)
      fun q c hwaiting _ => ?_ <;>
    · rw [hchan q c hwaiting]
      exact hpays.2
  | take next =>
    rintro ⟨⟩ hsound hpays
    have hchan : ∀ q c, s.Waiting q c → c = .nwrite := by
      intro q c hwaiting
      cases c with
      | nwrite => rfl
      | nread => exact absurd (hwaits hwaiting fun h => nomatch hpays.1 _ h).1 hsound.1
    refine hans.runs (p := p) rfl hrun (fun _ => id) (fun q c hwaiting _ => .inr ?_)
      fun q c hwaiting _ => ?_ <;>
    · rw [hchan q c hwaiting]
      exact hpays.2
  | shut w next =>
    rintro ⟨⟩ - hpays
    refine hans.runs (p := p) rfl hrun (fun _ => id) (fun q c _ hreason => ?_)
      fun _ c _ h => absurd (howes h) (hpays.1 c)
    have hnext := hpays.2
    cases w <;> cases c
    · exact .inl hreason
    · exact .inr hnext
    · exact .inr hnext
    · exact .inl hreason
  | wakeup chan next =>
    intro hstep _ hpays
    simp only [State.apply] at hstep
    split at hstep
    · rename_i hfree
      cases hstep
      have hrun' : ((s.wakeup chan).proc p).state = .runnable := by
        unfold State.wakeup
        dsimp only
        split
        · rfl
        · exact hrun
      refine (hans.wakeup chan).runs (p := p) rfl hrun' (fun _ => id) (fun _ _ _ h => .inl h) ?_
      intro q c hwaiting h
      rw [wakeup_pc] at h
      rw [hpays c (howes h)] at hwaiting
      exact absurd hwaiting (hinv.not_waiting_wakeup hfree)
    · cases hstep
  | sleep chan next =>
    intro hstep _ hpays
    simp only [State.apply] at hstep
    split at hstep
    · cases hstep
      exact hans.runs (p := p) rfl hrun (fun _ => id) (fun _ _ _ h => .inl h)
        fun _ c _ h => absurd (howes h) (hpays c)
    · cases hstep
  | leave r =>
    rintro ⟨⟩ - hpays
    refine hans.runs (p := p) rfl hrun (fun _ => id) (fun _ _ _ h => .inl h) fun q c hwaiting h => ?_
    obtain ⟨rfl, haborts⟩ := hpays c (howes h)
    exact absurd hwaiting (hquiet haborts q)
  | leaveFree =>
    rintro ⟨⟩ - hpays
    exact hans.runs (p := p) rfl hrun (fun _ => id) (fun _ _ _ h => .inl h)
      fun _ c _ h => absurd (howes h) (hpays c)

def Aborts (s : State n) (p : Fin n) : Prop :=
  match s.pc p with
  | .locked st => st.Aborts s.pipe (s.proc p).killed
  | _ => False

instance (s : State n) (p : Fin n) : Decidable (s.Aborts p) := by
  unfold Aborts
  split <;> infer_instance

theorem Answered.next (hans : s.Answered) (hinv : s.Inv) {b : UInt8}
    (hrun : (s.proc p).state = .runnable) (hquiet : s.Aborts p → ∀ q, ¬ s.Waiting q .nread)
    (hstep : s.next p b = some s') : s'.Answered := by
  unfold State.next at hstep
  cases hpc : s.pc p <;> simp only [hpc] at hstep
  case idle => cases hstep
  case acquire st | sched st =>
    split at hstep
    · cases hstep
      refine hans.runs (p := p) rfl hrun (fun _ => id) (fun _ _ _ h => .inl h) fun _ _ _ h => ?_
      rw [hpc] at h
      exact False.elim h
    · cases hstep
  case locked st =>
    refine hans.apply hinv hrun hpc (fun haborts => hquiet ?_) hstep
    unfold Aborts
    rw [hpc]
    exact haborts
  case sleepRelease chan st =>
    cases hstep
    have hat := hinv.at_pc p
    rw [hpc] at hat
    refine hans.moves (p := p) rfl (fun c hwaiting => .inr ?_) (fun _ _ _ h => .inl h) fun _ _ _ h => ?_
    · -- it has just seen that there is nothing to do
      obtain hsleeps | hswitches := hwaiting
      · have hstate : (s.proc p).state = .sleeping := by
          simpa [SleepsOn, setPc, setProc] using hsleeps.1
        rw [hrun] at hstate
        cases hstate
      · have hc : chan = c := by
          simpa [State.pc, setPc, setProc, Pc.SwitchesOn] using hswitches
        rw [← hc]
        exact hat.1
    · rw [hpc] at h
      exact False.elim h
  case sleepSwitch chan st =>
    cases hstep
    refine hans.moves (p := p) rfl (fun c hwaiting => .inl ?_) (fun _ _ _ h => .inl h) fun _ _ _ h => ?_
    · right
      rw [hpc]
      obtain hsleeps | hswitches := hwaiting
      · have hc : some chan = some c := by
          simpa [SleepsOn, setProc] using hsleeps.2
        exact Option.some.inj hc
      · simp [State.pc, setProc, Pc.SwitchesOn] at hswitches
    · rw [hpc] at h
      exact False.elim h
  case kfree =>
    cases hstep
    refine hans.runs (p := p) rfl hrun (fun _ => id) (fun _ _ _ h => .inl h) fun _ _ _ h => ?_
    rw [hpc] at h
    exact False.elim h

end State

/-- `pipewrite` returns early from a full pipe only if no process waits for bytes. -/
def NoneWaits (s : State n) : Act n → Prop
  | .step p _ => s.Aborts p → ∀ q, ¬ s.Waiting q .nread
  | _ => True

instance (s : State n) (a : Act n) : Decidable (NoneWaits s a) := by
  cases a <;> unfold NoneWaits <;> infer_instance

theorem State.Answered.step (hans : s.Answered) (hinv : s.Inv) {a : Act n} (hquiet : NoneWaits s a)
    (hstep : step s a = some s') : s'.Answered := by
  cases a with
  | call p c =>
    simp only [Ipc.step] at hstep
    split at hstep
    · rename_i hidle
      cases hstep
      refine hans.moves (p := p) rfl (fun c hwaiting => .inl ?_) (fun _ _ _ h => .inl h) fun _ _ _ h => ?_
      · refine hwaiting.imp (fun hsleeps => ?_) fun hswitches => ?_
        · simpa [SleepsOn, setPc, setProc] using hsleeps
        · simp [State.pc, setPc, setProc, Pc.SwitchesOn] at hswitches
      · rw [hidle.1] at h
        exact False.elim h
    · cases hstep
  | step p c =>
    simp only [Ipc.step] at hstep
    split at hstep
    · rename_i hrun
      exact hans.next hinv hrun.1 hquiet hstep
    · cases hstep
  | kill q =>
    simp only [Ipc.step] at hstep
    split at hstep
    · cases hstep
      refine hans.moves (p := q) rfl (fun c hwaiting => .inl ?_) (fun _ _ _ h => .inl h) fun _ _ _ h => h
      obtain hsleeps | hswitches := hwaiting
      · simp [SleepsOn, setProc] at hsleeps
      · right
        simpa [State.pc, setProc] using hswitches
    · cases hstep

/-- In every run in which `pipewrite` never returns early while a process waits for bytes: when
`p->lock` is free, whoever sleeps has a reason to. -/
theorem pipe_no_lost_wakeup {data : Nat → UInt8} {s : State n}
    (hrun : Reaches step NoneWaits (State.init data) s) (hfree : s.lock = none) (q : Fin n) :
    (s.SleepsOn q .nread → s.pipe.nread = s.pipe.nwrite ∧ s.pipe.writeopen = true) ∧
      (s.SleepsOn q .nwrite → s.pipe.nwrite = s.pipe.nread + 512 ∧ s.pipe.readopen = true) := by
  have hinv : s.Inv ∧ s.Answered :=
    hrun.invariant (I := fun s => s.Inv ∧ s.Answered) ⟨State.init_inv data, State.init_answered data⟩
      fun _ _ _ hinv hquiet hstep => ⟨hinv.1.step hstep, hinv.2.step hinv.1 hquiet hstep⟩
  have hreason : ∀ c, s.SleepsOn q c → c.Waits s.pipe := by
    intro c hsleeps
    obtain hwaits | ⟨r, hr⟩ := hinv.2 q c (.inl hsleeps)
    · exact hwaits
    · have howner := (hinv.1.lock r).mp hr.holds
      rw [hfree] at howner
      cases howner
  exact ⟨hreason .nread, hreason .nwrite⟩

/-- A reader takes a byte that a writer has brought and sleeps again on the empty pipe. -/
theorem pipe_no_lost_wakeup_reader : ∃ s : State 2, Reaches step NoneWaits (State.init fun _ => 0) s ∧
      (s.lock = none ∧ s.SleepsOn 0 .nread ∧ s.removed = [7]) ∧
      s.pipe.nread = s.pipe.nwrite ∧ s.pipe.writeopen = true := by
  have hacts : (runActs step NoneWaits ([.call 0 (.piperead 1)] ++ List.replicate 6 (.step 0 0) ++
        .call 1 (.pipewrite 1) :: List.replicate 7 (.step 1 7) ++ List.replicate 8 (.step 0 0) ++
        .call 0 (.piperead 1) :: List.replicate 6 (.step 0 0))
      (.init fun _ => 0 : State 2)).map (fun s => decide (s.lock = none ∧ s.SleepsOn 0 .nread ∧
        s.removed = [7])) = some true := by
    decide +kernel
  obtain ⟨s, hrun, hproj⟩ := Reaches.of_map hacts
  have hstate := of_decide_eq_true hproj
  exact ⟨s, hrun, hstate, (pipe_no_lost_wakeup hrun hstate.1 0).1 hstate.2.1⟩

/-! ### The early return -/

/-- A reader sleeps while a killed writer, which holds the lock before `st`, has stored `k` bytes. -/
structure Filling (s : State 2) (st : Stmt) (k : Nat) : Prop where
  reader : s.SleepsOn 0 .nread
  writer : s.pc 1 = .locked st
  runs : (s.proc 1).state = .runnable
  killed : (s.proc 1).killed = true
  nread : s.pipe.nread = 0
  nwrite : s.pipe.nwrite = UInt32.ofNat k
  freed : s.freed = false

namespace Filling

variable {s₀ s : State 2} {st next : Stmt} {k : Nat}

theorem step_eq (hfill : Filling s st k) : step s (.step 1 0) = s.apply 1 0 (st.effect s.pipe true) := by
  simp only [step, hfill.runs, hfill.freed, and_self, if_true, State.next, hfill.writer, hfill.killed]

theorem goto (hfill : Filling s st k) (heff : st.effect s.pipe true = .goto next)
    (hrun : Reaches step (fun _ _ => True) s₀ s) :
    ∃ s', Reaches step (fun _ _ => True) s₀ s' ∧ Filling s' next k := by
  have hstep := hfill.step_eq
  rw [heff] at hstep
  refine ⟨_, hrun.step _ trivial hstep, ?_, ?_, ?_, ?_, hfill.nread, hfill.nwrite, hfill.freed⟩
  · simpa [State.SleepsOn, State.setPc, State.setProc] using hfill.reader
  · simp [State.pc, State.setPc, State.setProc]
  · simpa [State.setPc, State.setProc] using hfill.runs
  · simpa [State.setPc, State.setProc] using hfill.killed

theorem store (hfill : Filling s st k) (heff : st.effect s.pipe true = .store next)
    (hrun : Reaches step (fun _ _ => True) s₀ s) :
    ∃ s', Reaches step (fun _ _ => True) s₀ s' ∧ Filling s' next (k + 1) := by
  have hstep := hfill.step_eq
  rw [heff] at hstep
  refine ⟨_, hrun.step _ trivial hstep, ?_, ?_, ?_, ?_, hfill.nread, ?_, hfill.freed⟩
  · simpa [State.SleepsOn, State.setPc, State.setProc] using hfill.reader
  · simp [State.pc, State.setPc, State.setProc]
  · simpa [State.setPc, State.setProc] using hfill.runs
  · simpa [State.setPc, State.setProc] using hfill.killed
  · change s.pipe.nwrite + 1 = _
    rw [hfill.nwrite]
    exact (UInt32.ofNat_add k 1).symm

theorem full_iff (hfill : Filling s st k) (hk : k ≤ 512) : s.pipe.Full ↔ k = 512 := by
  unfold Pipe.Full
  rw [hfill.nread, hfill.nwrite, ← UInt32.toNat_inj, UInt32.toNat_ofNat']
  change k % 2 ^ 32 = 512 ↔ _
  omega

theorem enter (hfill : Filling s (.writeFor 513 k) k) (hk : k ≤ 512)
    (hrun : Reaches step (fun _ _ => True) s₀ s) :
    ∃ s', Reaches step (fun _ _ => True) s₀ s' ∧ Filling s' (.writeWhile 513 k) k := by
  refine hfill.goto ?_ hrun
  simp only [Stmt.effect]
  rw [if_pos (by omega)]

theorem succ (hfill : Filling s (.writeFor 513 k) k) (hk : k < 512)
    (hrun : Reaches step (fun _ _ => True) s₀ s) :
    ∃ s', Reaches step (fun _ _ => True) s₀ s' ∧ Filling s' (.writeFor 513 (k + 1)) (k + 1) := by
  obtain ⟨s₁, hrun₁, hfill₁⟩ := hfill.enter hk.le hrun
  have hnot : ¬ s₁.pipe.Full := fun h => Nat.ne_of_lt hk ((hfill₁.full_iff hk.le).mp h)
  have heff : (Stmt.writeWhile 513 k).effect s₁.pipe true = .goto (.writeStore 513 k) := by
    simp only [Stmt.effect, if_neg hnot]
  obtain ⟨s₂, hrun₂, hfill₂⟩ := hfill₁.goto heff hrun₁
  exact hfill₂.store rfl hrun₂

end Filling

theorem filling_full :
    ∃ s, Reaches step (fun _ _ => True) (State.init fun _ => 0) s ∧ Filling s (.writeFor 513 512) 512 := by
  have hgrow : ∀ k, k ≤ 512 → ∃ s, Reaches step (fun _ _ => True) (.init fun _ => 0) s ∧
      Filling s (.writeFor 513 k) k := by
    intro k
    induction k with
    | zero =>
      intro _
      have hacts : (runActs step (fun _ _ => True)
          ([.call 0 (.piperead 1)] ++ List.replicate 6 (.step 0 0) ++
            [.call 1 (.pipewrite 513), .step 1 0, .kill 1])
          (.init fun _ => 0 : State 2)).map (fun s => decide (s.SleepsOn 0 .nread ∧
            s.pc 1 = .locked (.writeFor 513 0) ∧ (s.proc 1).state = .runnable ∧
            (s.proc 1).killed = true ∧ s.pipe.nread = 0 ∧ s.pipe.nwrite = 0 ∧ s.freed = false))
          = some true := by
        decide +kernel
      obtain ⟨s, hreach, hproj⟩ := Reaches.of_map hacts
      obtain ⟨hreader, hwriter, hruns, hkilled, hnread, hnwrite, hfreed⟩ := of_decide_eq_true hproj
      exact ⟨s, hreach, hreader, hwriter, hruns, hkilled, hnread, hnwrite, hfreed⟩
    | succ k ih =>
      intro hk
      obtain ⟨s, hrun, hfill⟩ := ih (Nat.le_of_succ_le hk)
      exact hfill.succ hk hrun
  exact hgrow 512 le_rfl

/-- The reader waits on the empty pipe. The writer fills the pipe in one call, finds itself killed and
returns without a `wakeup`: the reader sleeps on a pipe with 512 bytes, and the lock is free. -/
theorem killed_writer_loses_wakeup :
    ∃ s : State 2, Reaches step (fun _ _ => True) (State.init fun _ => 0) s ∧
      s.lock = none ∧ s.SleepsOn 0 .nread ∧ s.pipe.nread ≠ s.pipe.nwrite := by
  obtain ⟨s, hrun, hfill⟩ := filling_full
  obtain ⟨s₁, hrun₁, hfill₁⟩ := hfill.enter le_rfl hrun
  have hfull : s₁.pipe.Full := (hfill₁.full_iff le_rfl).mpr rfl
  have heff : (Stmt.writeWhile 513 512).effect s₁.pipe true = .goto (.writeTest 513 512) := by
    simp only [Stmt.effect, if_pos hfull]
  obtain ⟨s₂, hrun₂, hfill₂⟩ := hfill₁.goto heff hrun₁
  have hstep := hfill₂.step_eq
  simp only [Stmt.effect, or_true, if_true, State.apply] at hstep
  refine ⟨_, hrun₂.step _ trivial hstep, rfl, ?_, ?_⟩
  · simpa [State.SleepsOn, State.setProc] using hfill₂.reader
  · change s₂.pipe.nread ≠ s₂.pipe.nwrite
    rw [hfill₂.nread, hfill₂.nwrite]
    decide

end Xv6.Ipc
