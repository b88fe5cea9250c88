import Xv6.Log.LogSteps
import Xv6.Lib.Machine

/-!
# The redo log survives power failures

Whatever the processes do and whenever the power fails, a recovery leaves on the home blocks what
the cache held at the last commit that reached the disk, and that is the effect of whole operations.
-/

namespace Xv6.Log

open Function (update update_self update_of_ne)

variable {n : Nat} {s s' : State n} {T : Fin n → Local} {p : Fin n}

/-- Only a process that commits or recovers has overwritten a buffer with a copy. -/
def Local.Tidy (l : Local) : Prop :=
  ∀ b x, l.held b = some x → x.2 ≠ .header ∧ (∀ bn, x.2 ≠ .copied bn) ∨ l.Exclusive

variable {l : Local} {b : BufId} {disk : Disk}

theorem Local.Tidy.setHeld {y : Option (Blockno × Phase)} (htidy : l.Tidy)
    (hy : ∀ x, y = some x → (x.2 ≠ .header ∧ ∀ bn, x.2 ≠ .copied bn) ∨ l.Exclusive) :
    (l.setHeld b y).Tidy := by
  intro c x hx
  by_cases hc : c = b
  · rw [hc, setHeld_self] at hx
    exact hy x hx
  · rw [setHeld_of_ne hc] at hx
    exact htidy c x hx

theorem Local.Tidy.setPhase {ph : Phase} (htidy : l.Tidy)
    (hph : (ph ≠ .header ∧ ∀ bn, ph ≠ .copied bn) ∨ l.Exclusive) : (l.setPhase b ph).Tidy := by
  refine htidy.setHeld fun x hx => ?_
  obtain ⟨y, -, rfl⟩ := Option.map_eq_some_iff.mp hx
  exact hph

theorem Local.tidy_of_exclusive (hexcl : l.Exclusive) : l.Tidy :=
  fun _ _ _ => .inr hexcl

theorem Local.tidy_of_free (hfree : l.Free) : l.Tidy := fun b x hx => by
  rw [hfree b] at hx
  cases hx

theorem Local.written_exclusive (hexcl : l.Exclusive) : ∃ boot stage, l.written b = .excl boot stage := by
  obtain ⟨boot, stage, hrole⟩ := hexcl
  cases stage with
  | writeLog tail =>
    by_cases hb : (l.held b).map Prod.fst = some logStart
    · exact ⟨boot, _, written_head hrole hb⟩
    · exact ⟨boot, _, written_block hrole hb⟩
  | install tail => exact ⟨boot, _, written_install hrole⟩
  | cleared => exact ⟨boot, _, written_cleared hrole⟩
  | boot =>
    refine ⟨boot, .boot, ?_⟩
    unfold Local.written
    rw [hrole]
  | done =>
    refine ⟨boot, .done, ?_⟩
    unfold Local.written
    rw [hrole]

theorem tidy_next (o : Op) (r : o.Res) (hpre : logPre o l) (htidy : l.Tidy) : (logNext o l r).Tidy := by
  cases o with
  | bget bn => exact htidy.setHeld fun x hx => .inl (by cases hx; exact ⟨nofun, nofun⟩)
  | acquiresleep b | fill b | modify b f | releasesleep b | logAppend b =>
    exact htidy.setPhase (.inl ⟨nofun, nofun⟩)
  | memmove dst src =>
    obtain ⟨boot, tail, bn, -, ⟨hrole, -, -⟩ | ⟨hrole, -, -⟩⟩ := hpre
    · exact htidy.setPhase (.inr ⟨boot, _, hrole⟩)
    · exact htidy.setPhase (.inr ⟨boot, _, hrole⟩)
  | bwrite b =>
    have hexcl : l.Exclusive := by
      obtain ⟨boot, tail, c, hrole, -⟩ | ⟨tail, hrole, -⟩ | ⟨boot, tail, c, hrole, -⟩ |
        ⟨boot, hrole, -⟩ := hpre
      · exact ⟨boot, _, hrole⟩
      · exact ⟨false, _, hrole⟩
      · exact ⟨boot, _, hrole⟩
      · exact ⟨boot, _, hrole⟩
    exact Local.tidy_of_exclusive (Local.written_exclusive hexcl)
  | bput b => exact htidy.setHeld nofun
  | beginOp =>
    intro b x hx
    refine .inl ((htidy b x hx).resolve_right ?_)
    rintro ⟨boot, stage, hrole⟩
    have hout : l.role = .out := hpre
    rw [hout] at hrole
    cases hrole
  | endOp => cases r <;> exact Local.tidy_of_free fun _ => rfl
  | endCommit | lhClear | initDone => exact Local.tidy_of_free fun _ => rfl
  | logCheck | lhN | lhBlock i => exact htidy
  | setHead b => exact htidy.setPhase (.inr hpre.1)
  | getHead b => exact Local.tidy_of_exclusive ⟨true, _, rfl⟩

/-- The interleaving of the critical sections, as far as the log has room; an operation begins after
`initlog` has returned. -/
def sem (p : Fin n) (o : Op) (s : State n) (r : o.Res) (s' : State n) : Prop :=
  State.exec p o s = some (r, s') ∧ (o = .beginOp → s.ready = true) ∧
    ∀ b, o = .logAppend b → Machine.RoomFor s b

def GlobalInv (s : State n) (T : Fin n → Local) : Prop := Inv s T ∧ ∀ q, (T q).Tidy

theorem GlobalInv.exec (o : Op) (r : o.Res) (hinv : GlobalInv s T) (hpre : logPre o (T p))
    (hsem : sem p o s r s') : logRes o (T p) r ∧ GlobalInv s' (update T p (logNext o (T p) r)) := by
  obtain ⟨hinv, htidy⟩ := hinv
  obtain ⟨hexec, hready, hroom⟩ := hsem
  have htidy' : ∀ q, (update T p (logNext o (T p) r) q).Tidy := fun q => by
    by_cases hq : q = p
    · rw [hq, update_self]
      exact tidy_next o r hpre (htidy p)
    · rw [update_of_ne hq]
      exact htidy q
  refine and_assoc.mp ⟨?_, htidy'⟩
  cases o with
  | bget bn => exact hinv.bget hpre hexec
  | acquiresleep b => exact ⟨trivial, hinv.acquiresleep hpre hexec⟩
  | fill b => exact ⟨trivial, hinv.fill hpre hexec⟩
  | modify b f => exact ⟨trivial, hinv.modify hpre hexec⟩
  | memmove dst src => exact ⟨trivial, hinv.memmove hpre hexec⟩
  | bwrite b => exact ⟨trivial, hinv.bwrite hpre hexec⟩
  | releasesleep b => exact ⟨trivial, hinv.releasesleep hpre hexec⟩
  | bput b =>
    cases hexec
    exact ⟨trivial, hinv.bput hpre⟩
  | beginOp => exact ⟨trivial, hinv.beginOp hpre (hready rfl) hexec⟩
  | endOp => exact ⟨trivial, hinv.endOp hpre hexec⟩
  | endCommit =>
    cases hexec
    exact ⟨trivial, hinv.endCommit hpre⟩
  | logCheck =>
    simp only [State.exec] at hexec
    split at hexec
    · cases hexec
      refine ⟨trivial, ?_⟩
      change Inv s (update T p (T p))
      rw [Function.update_eq_self]
      exact hinv
    · cases hexec
  | logAppend b =>
    refine ⟨trivial, hinv.logAppend hpre (fun q c x hx => ?_) (hroom b rfl) hexec⟩
    exact (htidy q c x hx).resolve_right (hinv.log.no_excl hpre.1 q)
  | lhN =>
    cases hexec
    exact hinv.lhN hpre
  | lhBlock i =>
    cases hexec
    exact hinv.lhBlock hpre
  | lhClear =>
    cases hexec
    exact ⟨trivial, hinv.lhClear hpre⟩
  | setHead b => exact ⟨trivial, hinv.setHead hpre hexec⟩
  | getHead b =>
    cases hexec
    exact ⟨trivial, hinv.getHead hpre⟩
  | initDone =>
    cases hexec
    exact ⟨trivial, hinv.initDone hpre⟩

/-! ### Power failures -/

def bootLocals (p : Fin n) : Fin n → Local :=
  update (fun _ => .idle) p { Local.idle with role := .excl true .boot }

theorem inv_reset {A : List Blockno} (hredo : Redo s.reset A 0)
    (hcommitted : ∀ bn, Home bn → s.committed bn = replay s.initial s.commitHist bn)
    (hended : ∀ q, inOp q s.commitHist = false) : Inv s.reset (bootLocals p) where
  buf := by
    have hheld : (fun q => (bootLocals p q).held) = fun _ _ => none := held_same rfl
    rw [hheld]
    exact .unused ..
  log := by
    have hstage : StageInv s.reset .boot := ⟨A, hredo⟩
    exact .of_excl (fun _ _ => ⟨rfl, fun _ => rfl⟩) rfl wf_nil rfl nofun nofun rfl rfl hstage
  hist := by
    refine ⟨hcommitted, List.prefix_rfl, hended, fun q => ?_⟩
    have hout : (bootLocals p q).role ≠ .op := by
      unfold bootLocals
      by_cases hq : q = p
      · rw [hq, update_self]
        exact nofun
      · rw [update_of_ne hq]
        exact nofun
    refine ⟨fun hin => ?_, fun hop => absurd hop hout⟩
    exact absurd ((hended q).symm.trans hin) nofun

theorem not_dirty_reset (bn : Blockno) : ¬ s.reset.Dirty bn := by
  rintro ⟨b, hbn, -⟩
  cases hbn

/-- What is on disk is enough to recover, at every stage. -/
theorem Settled.reset (hsettled : Settled s)
    (hcommitted : ∀ bn, Home bn → s.committed bn = replay s.initial s.commitHist bn) :
    Redo s.reset [] 0 where
  wf := wf_nil
  header := by
    refine List.eq_nil_of_length_eq_zero ?_
    rw [decode_length]
    exact hsettled.empty
  logged _ _ := nofun
  view bn hbn := (hcommitted bn hbn).symm
  home bn hbn _ := hsettled.home bn hbn
  dirty bn hbn := absurd hbn (not_dirty_reset bn)

theorem Redo.reset {A : List Blockno} {tail : Nat} (hredo : Redo s A tail)
    (hcommitted : ∀ bn, Home bn → s.committed bn = replay s.initial s.commitHist bn) :
    Redo s.reset A 0 where
  wf := hredo.wf
  header := hredo.header
  logged j bn hj := by
    have hbn := hredo.wf.home bn (List.mem_of_getElem? hj)
    exact (hredo.logged j bn hj).trans ((hredo.view bn hbn).trans (hcommitted bn hbn))
  view bn hbn := (hcommitted bn hbn).symm
  home bn hbn hnot := hredo.home bn hbn fun hmem => hnot (List.mem_of_mem_drop hmem)
  dirty bn hbn := absurd hbn (not_dirty_reset bn)

theorem StageInv.reset {stage : Stage} (hstage : StageInv s stage)
    (hcommitted : ∀ bn, Home bn → s.committed bn = replay s.initial s.commitHist bn) :
    ∃ A, Redo s.reset A 0 := by
  cases stage with
  | boot =>
    obtain ⟨A, hredo⟩ := hstage
    exact ⟨A, hredo.reset hcommitted⟩
  | writeLog tail | done => exact ⟨[], hstage.1.reset hcommitted⟩
  | install tail => exact ⟨s.lh, .reset hstage hcommitted⟩
  | cleared =>
    obtain ⟨-, A, hredo⟩ := hstage
    exact ⟨A, hredo.reset hcommitted⟩

theorem Inv.crash (hinv : Inv s T) : Inv s.reset (bootLocals p) := by
  have hcommitted := hinv.hist.committed
  obtain ⟨A, hredo⟩ : ∃ A, Redo s.reset A 0 := by
    by_cases hnone : ∀ q, ¬ (T q).Exclusive
    · exact ⟨[], (hinv.log.normal hnone).2.2.reset hcommitted⟩
    · push Not at hnone
      obtain ⟨q, boot, stage, hrole⟩ := hnone
      exact (hinv.log.stage q boot stage hrole).2.2.reset hcommitted
  exact inv_reset hredo hcommitted hinv.hist.ended

theorem inv_init (hempty : disk logStart 0 = 0) : Inv (State.init disk : State n) (bootLocals p) := by
  have hredo : Redo (.init disk : State n) [] 0 :=
    ⟨wf_nil, List.eq_nil_of_length_eq_zero (by
      rw [decode_length]
      exact hempty), fun _ _ => nofun, fun _ _ => rfl, fun _ _ _ => rfl,
      fun bn hbn => absurd hbn (not_dirty_reset (s := .init disk) bn)⟩
  exact inv_reset (s := .init disk) hredo (fun _ _ => rfl) fun _ => rfl

theorem tidy_bootLocals (q : Fin n) : (bootLocals p q).Tidy := by
  unfold bootLocals
  by_cases hq : q = p
  · rw [hq, update_self]
    exact Local.tidy_of_free fun _ => rfl
  · rw [update_of_ne hq]
    exact Local.tidy_of_free fun _ => rfl

/-! ### Whole runs -/

/-- What a step keeps: the record of the first disk and, up to a power failure, that `initlog` has
returned. -/
def Keeps (s s' : State n) : Prop :=
  s'.initial = s.initial ∧ (s.ready = true → s'.ready = true)

theorem keeps_iderw (hexec : s.iderw b = some s') : Keeps s s' := by
  unfold State.iderw at hexec
  dsimp only at hexec
  split at hexec
  · cases hexec
  split at hexec
  · cases hexec
  · split at hexec
    · cases hexec
      unfold State.diskWrite
      split <;> exact ⟨rfl, id⟩
    · cases hexec
      exact ⟨rfl, id⟩

theorem keeps_exec (o : Op) (r : o.Res) (hexec : State.exec p o s = some (r, s')) : Keeps s s' := by
  cases o with
  | bget bn =>
    simp only [State.exec, State.bgetEntry] at hexec
    split at hexec
    · cases hexec
      exact ⟨rfl, id⟩
    · split at hexec
      · cases hexec
        exact ⟨rfl, id⟩
      · cases hexec
  | fill b =>
    simp only [State.exec] at hexec
    split at hexec
    · cases hexec
      exact ⟨rfl, id⟩
    · obtain ⟨s₁, hs₁, heq⟩ := Option.map_eq_some_iff.mp hexec
      cases heq
      exact keeps_iderw hs₁
  | bwrite b =>
    obtain ⟨s₁, hs₁, heq⟩ := Option.map_eq_some_iff.mp hexec
    cases heq
    have hkeeps := keeps_iderw hs₁
    exact ⟨hkeeps.1, hkeeps.2⟩
  | bput b =>
    cases hexec
    unfold State.bput
    dsimp only
    split <;> exact ⟨rfl, id⟩
  | endOp =>
    simp only [State.exec, State.endOp] at hexec
    split at hexec
    · cases hexec
    · split at hexec <;> cases hexec <;> exact ⟨rfl, id⟩
  | logAppend b =>
    obtain ⟨s₁, hs₁, heq⟩ := Option.map_eq_some_iff.mp hexec
    cases heq
    unfold State.logAppend at hs₁
    split at hs₁ <;> cases hs₁
    exact ⟨rfl, id⟩
  | initDone =>
    cases hexec
    exact ⟨rfl, fun _ => rfl⟩
  | acquiresleep b | releasesleep b | beginOp | logCheck =>
    simp only [State.exec] at hexec
    split at hexec <;> cases hexec
    exact ⟨rfl, id⟩
  | modify b f | memmove dst src | endCommit | lhN | lhBlock i | lhClear | setHead b | getHead b =>
    cases hexec
    exact ⟨rfl, id⟩

/-- The invariant of a machine. Until `initlog` has returned, one process runs alone. -/
structure MachineInv (disk : Disk) (m : Machine n) : Prop where
  initial : m.shared.initial = disk
  pool : m.Inv sem GlobalInv (fun _ => logPre) fun _ l => l = .idle
  booting : m.shared.ready = true ∨ ∃ p, ∀ q, q ≠ p → m.thread q = .pure ()

theorem safe_of_obeys {x : LogM Unit} (hx : x.Obeys logProtocol l fun _ l' => l' = .idle) (q : Fin n) :
    x.Safe sem GlobalInv (fun _ => logPre) q l fun _ l' => l' = .idle :=
  hx.safe fun _ o _ _ r _ hinv hpre hsem => hinv.exec o r hpre hsem

theorem machineInv_boot (hinitial : s.initial = disk) (hinv : Inv s (bootLocals p)) :
    MachineInv disk (⟨Machine.bootThreads p, s⟩ : Machine n) where
  initial := hinitial
  pool := by
    refine ⟨bootLocals p, ⟨hinv, tidy_bootLocals⟩, fun q => ?_⟩
    change (Machine.bootThreads p q).Safe _ _ _ q (bootLocals p q) _
    by_cases hq : q = p
    · rw [hq, Machine.bootThreads, bootLocals, update_self, update_self]
      exact safe_of_obeys initlog_obeys p
    · rw [Machine.bootThreads, bootLocals, update_of_ne hq, update_of_ne hq]
      rfl
  booting := .inr ⟨p, fun q hq => by
    change Machine.bootThreads p q = .pure ()
    rw [Machine.bootThreads, update_of_ne hq]⟩

theorem MachineInv.ready {m : Machine n} (hinv : MachineInv disk m) {next : Unit → LogM Unit}
    (hthread : m.thread p = .op .beginOp next) : m.shared.ready = true := by
  obtain ⟨T, ⟨hinv', -⟩, hsafe⟩ := hinv.pool
  have hsafep := hsafe p
  rw [hthread] at hsafep
  have hout : (T p).role = .out := hsafep.1
  by_contra hnot
  obtain ⟨p₀, hpure⟩ := hinv.booting.resolve_left hnot
  have hp : p = p₀ := by
    by_contra hne
    rw [hpure p hne] at hthread
    cases hthread
  refine hnot (hinv'.log.normal fun q hq => ?_).1
  obtain ⟨boot, stage, hrole⟩ := hq
  by_cases hqp : q = p
  · rw [hqp, hout] at hrole
    cases hrole
  · have hsafeq := hsafe q
    rw [hpure q (hp ▸ hqp)] at hsafeq
    have hidle : T q = .idle := hsafeq
    rw [hidle] at hrole
    cases hrole

theorem MachineInv.step {m m' : Machine n} {a : Machine.Act n}
    (hinv : MachineInv disk m) (hfits : Machine.Fits m a) (hstep : Machine.step m a = some m') :
    MachineInv disk m' := by
  cases a with
  | start q x hx =>
    simp only [Machine.step] at hstep
    split at hstep
    · rename_i hpure
      split at hstep
      · rename_i hready
        cases hstep
        have hstart : Pool.Step sem (fun _ _ y => y = x.prog) m
            ⟨update m.thread q x.prog, m.shared⟩ := .start q () x.prog hpure rfl
        refine ⟨hinv.initial, hinv.pool.step ?_ hstart, .inl hready⟩
        rintro r s _ l rfl rfl
        exact safe_of_obeys (x.prog_obeys hx) r
      · cases hstep
    · cases hstep
  | run q =>
    simp only [Machine.step] at hstep
    split at hstep
    · cases hstep
    rename_i o next hthread
    obtain ⟨⟨r, s'⟩, hexec, rfl⟩ := Option.map_eq_some_iff.mp hstep
    have hsem : sem q o m.shared r s' := by
      refine ⟨hexec, ?_, ?_⟩
      · rintro rfl
        exact hinv.ready hthread
      · rintro b rfl
        simp only [Machine.Fits, hthread] at hfits
        exact hfits
    have hop : Pool.Step sem (fun _ _ _ => False) m
        ⟨update m.thread q (next r), s'⟩ := .op q o next r s' hthread hsem
    have hkeeps := keeps_exec o r hexec
    refine ⟨hkeeps.1.trans hinv.initial, hinv.pool.step (by rintro _ _ _ _ ⟨⟩) hop, ?_⟩
    obtain hready | ⟨p₀, hpure⟩ := hinv.booting
    · exact .inl (hkeeps.2 hready)
    · refine .inr ⟨p₀, fun q' hq' => ?_⟩
      have hq : q' ≠ q := by
        rintro rfl
        rw [hpure q' hq'] at hthread
        cases hthread
      exact (update_of_ne hq ..).trans (hpure q' hq')
  | crash q =>
    cases hstep
    obtain ⟨T, ⟨hinv', -⟩, -⟩ := hinv.pool
    exact machineInv_boot hinv.initial hinv'.crash

/-- **Crash atomicity.** In every run with any number of power failures, the last commit that
reached the disk is the effect of whole operations, those that had ended before it; and whenever
recovery has completed and no commit is under way, the home blocks hold what the cache held then. -/
theorem crash_atomic {disk : Disk} (hempty : disk logStart 0 = 0) (p : Fin n) {m : Machine n}
    (hrun : Reaches Machine.step Machine.Fits (Machine.init disk p) m) :
    (m.shared.ready = true → m.shared.committing = false →
      ∀ bn, Home bn → m.shared.disk bn = m.shared.committed bn) ∧
    (∀ bn, Home bn → m.shared.committed bn = replay disk m.shared.commitHist bn) ∧
    m.shared.commitHist <+: m.shared.hist ∧ Ended m.shared.commitHist := by
  have hinv : MachineInv disk m := hrun.invariant (machineInv_boot rfl (inv_init hempty))
    fun _ _ _ hinv hfits hstep => hinv.step hfits hstep
  have hinitial := hinv.initial
  obtain ⟨T, ⟨hinv, -⟩, -⟩ := hinv.pool
  have hcommitted := hinv.hist.committed
  rw [hinitial] at hcommitted
  refine ⟨fun hready hcommitting => ?_, hcommitted, hinv.hist.before, ended_of_not_inOp hinv.hist.ended⟩
  refine (hinv.log.normal ?_).2.2.home
  rintro q ⟨boot, stage, hrole⟩
  obtain ⟨hready', hcommitting', -⟩ := hinv.log.stage q boot stage hrole
  rw [hready] at hready'
  rw [hcommitting] at hcommitting'
  cases boot with
  | false => cases hcommitting'
  | true => cases hready'

def oneWrite : FsOp := .update 40 (fun d => update d 0 7) fun _ => .done

theorem oneWrite_outside : oneWrite.Outside := ⟨.inr (by decide), fun _ => trivial⟩

/-- The power fails after the header has reached the disk and before the block is at home; the next
boot copies it. -/
theorem crash_atomic_oneWrite :
    ∃ m : Machine 1, Reaches Machine.step Machine.Fits (Machine.init (fun _ _ => 0) 0) m ∧
      (m.shared.ready = true ∧ m.shared.committing = false ∧ m.shared.disk 40 0 = 7 ∧
        m.shared.commitHist.length = 3) ∧
      ∀ bn, Home bn → m.shared.disk bn = m.shared.committed bn := by
  have hacts : (runActs Machine.step Machine.Fits
      (List.replicate 16 (.run 0) ++ .start 0 oneWrite oneWrite_outside ::
        (List.replicate 30 (.run 0) ++ .crash 0 :: List.replicate 29 (.run 0)))
      (Machine.init (fun _ _ => 0) (0 : Fin 1))).map
        (fun m => (m.shared.ready, m.shared.committing, m.shared.disk 40 0,
          m.shared.commitHist.length)) = some (true, false, 7, 3) := by
    decide +kernel
  obtain ⟨m, hrun, hproj⟩ := Reaches.of_map hacts
  simp only [Prod.mk.injEq] at hproj
  obtain ⟨hready, hcommitting, hdisk, hhist⟩ := hproj
  exact ⟨m, hrun, ⟨hready, hcommitting, hdisk, hhist⟩, (crash_atomic rfl 0 hrun).1 hready hcommitting⟩

end Xv6.Log
