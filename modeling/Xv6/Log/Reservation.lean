import Xv6.Log.AdmissionInv

/-!
# What the admission protocol guarantees

The protocol of `begin_op` and `end_op` keeps its reservations in terms of `LOGSIZE`. The log that
`mkfs` makes has `LOGSIZE` blocks with the header, so its data blocks are one fewer.
-/

namespace Xv6.Admission

variable {n : Nat} {s s' : State n} {lay : Layout}

theorem step_eq_some {a : Act n} : step lay s a = some s' ↔ outcome lay s a = .ok s' := by
  unfold step
  split
  · rename_i heq
    rw [heq]
    simp
  · rename_i hne
    simpa using fun h => hne _ h

theorem State.Inv.step {a : Act n} (hinv : s.Inv) (hfits : Fits s a)
    (hstep : step lay s a = some s') : s'.Inv := by
  rw [step_eq_some] at hstep
  cases a with
  | beginOp p | endOp p =>
    simp only [outcome] at hstep
    split at hstep
    · rename_i hpc
      cases hstep
      refine hinv.move ?_ ?_ ?_ id (fun _ => False.elim) <;> rw [hpc]
      · rfl
      · rfl
      · exact nofun
    · cases hstep
  | logWrite p b =>
    simp only [outcome] at hstep
    split at hstep
    · rename_i hpc
      cases hstep
      refine hinv.move ?_ ?_ ?_ id ?_
      · rw [hpc]
        rfl
      · rw [hpc]
        rfl
      · rw [hpc]
        exact nofun
      · rintro c rfl
        exact hfits
    · cases hstep
  | step p => exact hinv.next hstep
  | kill q =>
    simp only [outcome] at hstep
    split at hstep
    · cases hstep
      split
      · rename_i hpc
        refine hinv.move ?_ ?_ ?_ id (fun _ => False.elim) <;> rw [hpc]
        · rfl
        · rfl
        · exact nofun
      · exact hinv
    · cases hstep

theorem State.inv_of_reaches (hrun : Reaches (step lay) Fits State.init s) : s.Inv :=
  hrun.invariant State.init_inv fun _ _ _ hinv hfits hstep => hinv.step hfits hstep

def PanicsAt (lay : Layout) (s : State n) (p : Fin n) : Panic → Prop
  | .tooBig => ∃ b, s.pc p = .logSize b ∧ (logSize ≤ s.lh.length ∨ lay.size ≤ s.lh.length + 1)
  | .outsideTrans => ∃ b, s.pc p = .logOutstanding b ∧ s.outstanding < 1
  | .committing => s.pc p = .endOp ∧ s.committing = true

theorem outcome_panic {a : Act n} {m : Panic} (hpanic : outcome lay s a = .panic m) :
    ∃ p, a = .step p ∧ PanicsAt lay s p m := by
  cases a with
  | beginOp p | logWrite p b | endOp p | kill p =>
    simp only [outcome] at hpanic
    split at hpanic <;> cases hpanic
  | step p =>
    refine ⟨p, rfl, ?_⟩
    simp only [outcome, State.next] at hpanic
    cases hpc : s.pc p <;> simp only [hpc] at hpanic
    case logSize b =>
      split at hpanic <;> cases hpanic
      rename_i hbig
      exact ⟨b, hpc, hbig⟩
    case logOutstanding b =>
      split at hpanic <;> cases hpanic
      rename_i hnone
      exact ⟨b, hpc, hnone⟩
    case endOp =>
      split at hpanic
      · rename_i hcommitting
        cases hpanic
        exact ⟨hpc, hcommitting⟩
      · split at hpanic
        · cases hpanic
        · split at hpanic <;> cases hpanic
    case beginOp =>
      unfold State.sleep at hpanic
      split at hpanic
      · split at hpanic <;> cases hpanic
      · split at hpanic
        · split at hpanic <;> cases hpanic
        · cases hpanic
    case commitDone =>
      split at hpanic <;> cases hpanic
    all_goals cases hpanic

theorem State.Inv.no_committing_panic (hinv : s.Inv) (a : Act n) :
    outcome lay s a ≠ .panic .committing := by
  intro hpanic
  obtain ⟨p, -, hpc, hcommitting⟩ := outcome_panic hpanic
  have hnot := hinv.not_committing (p := p) (by rw [hpc]; trivial)
  rw [hcommitting] at hnot
  cases hnot

/-- The admission protocol, in every reachable state: a commit excludes operations, so `end_op` does
not panic and nobody is inside `log_write` meanwhile; the header has no duplicates; what the open
operations have not used yet is free; and nobody sleeps while an operation could be admitted. -/
theorem log_admission (hrun : Reaches (step lay) Fits (State.init : State n) s) :
    (s.committing = true → s.outstanding = 0 ∧ ∀ q b, ¬ (s.pc q).Logs b) ∧
      (∀ a, outcome lay s a ≠ .panic .committing) ∧ s.lh.Nodup ∧
      s.lh.length + ∑ q, (s.proc q).slack ≤ logSize ∧ ∀ q, s.pc q = .asleep →
        ¬ (s.committing = false ∧ s.lh.length + (s.outstanding + 1) * maxOpBlocks ≤ logSize) := by
  have hinv := State.inv_of_reaches hrun
  refine ⟨fun hc => ⟨hinv.excl hc, fun q b hlogs => ?_⟩, hinv.no_committing_panic, hinv.nodup,
    hinv.reserve, fun q hq ⟨hnot, hroom⟩ => ?_⟩
  · have hop : (s.pc q).InOp := by
      revert hlogs
      cases s.pc q <;> simp [Pc.Logs, Pc.InOp]
    rw [hinv.not_committing hop] at hc
    cases hc
  · obtain hc | hfull := hinv.waits q (by rw [hq]; trivial)
    · rw [hnot] at hc
      cases hc
    · exact hfull hroom

/-- Three operations are open and a fourth process sleeps; there is no room. -/
theorem log_admission_fourth : ∃ s : State 4, Reaches (step ⟨2, logSize⟩) Fits State.init s ∧
      (s.pc 3 = .asleep ∧ s.outstanding = 3 ∧ s.committing = false ∧ s.lh = [40]) ∧
      s.lh.length + ∑ q, (s.proc q).slack ≤ logSize := by
  have hacts : (runActs (step ⟨2, logSize⟩) Fits
      [.beginOp 0, .step 0, .beginOp 1, .step 1, .beginOp 2, .step 2, .beginOp 3, .step 3, .step 3,
        .logWrite 1 40, .step 1, .step 1, .step 1]
      (.init : State 4)).map (fun s => decide (s.pc 3 = .asleep ∧ s.outstanding = 3 ∧
        s.committing = false ∧ s.lh = [40])) = some true := by
    decide +kernel
  obtain ⟨s, hrun, hproj⟩ := Reaches.of_map hacts
  exact ⟨s, hrun, of_decide_eq_true hproj, (log_admission hrun).2.2.2.1⟩

/-! ### The log of `mkfs` -/

def mkfs : Layout := { start := 2, size := logSize }

def Pc.Few (lay : Layout) (recorded : List Nat) : Pc → Prop
  | .logSize _ => recorded.toFinset.card < lay.size - 1
  | .logRecord b => b ∈ recorded ∨ recorded.toFinset.card < lay.size - 1
  | _ => True

instance (lay : Layout) (recorded : List Nat) (pc : Pc) : Decidable (pc.Few lay recorded) :=
  match pc with
  | .logSize _ => (inferInstance : Decidable (recorded.toFinset.card < lay.size - 1))
  | .logRecord b => (inferInstance : Decidable (b ∈ recorded ∨ recorded.toFinset.card < lay.size - 1))
  | .idle | .beginOp | .switch | .asleep | .op | .logOutstanding _ | .endOp | .commit | .writeLog _
  | .writeHead | .installTrans _ | .clear | .writeHeadAgain | .commitDone => .isTrue trivial

/-- The operations log few enough blocks: when `log_write` makes its size check, and when it records a
block that is not in the header yet, fewer than `log.size - 1` distinct blocks have been recorded since
the last commit. -/
def FewBlocks (lay : Layout) (s : State n) : Act n → Prop
  | .step p => (s.pc p).Few lay s.recorded
  | _ => True

instance (lay : Layout) (s : State n) (a : Act n) : Decidable (FewBlocks lay s a) :=
  match a with
  | .step p => (inferInstance : Decidable ((s.pc p).Few lay s.recorded))
  | .beginOp _ | .logWrite .. | .endOp _ | .kill _ => .isTrue trivial

theorem State.Inv.length_eq (hinv : s.Inv) : s.lh.length = s.recorded.toFinset.card := by
  rw [hinv.recorded, List.toFinset_card_of_nodup hinv.nodup]

/-- Only the locked part of `log_write` adds to the record, and only `commit` empties it. -/
theorem State.next_recorded {p : Fin n} (hstep : s.next lay p = .ok s') :
    s'.recorded = s.recorded ∨ (∃ b, s.pc p = .logRecord b ∧ s'.recorded = b :: s.recorded) ∨
      s'.recorded = [] := by
  unfold State.next at hstep
  cases hpc : s.pc p <;> simp only [hpc] at hstep
  case idle | asleep | op => cases hstep
  case beginOp =>
    unfold State.sleep at hstep
    left
    split at hstep
    · split at hstep <;> cases hstep
      rfl
    · split at hstep
      · split at hstep <;> cases hstep
        rfl
      · cases hstep
        rfl
  case logRecord b =>
    cases hstep
    exact .inr (.inl ⟨b, rfl, rfl⟩)
  case clear =>
    cases hstep
    exact .inr (.inr rfl)
  case logSize b | logOutstanding b | commitDone =>
    split at hstep <;> cases hstep
    exact .inl rfl
  case endOp =>
    left
    split at hstep
    · cases hstep
    · split at hstep
      · cases hstep
        rfl
      · split at hstep <;> cases hstep
        rfl
  case switch | commit | writeLog tail | writeHead | installTrans tail | writeHeadAgain =>
    cases hstep
    exact .inl rfl

theorem recorded_card_step {a : Act n} (hle : s.recorded.toFinset.card ≤ lay.size - 1)
    (hfew : FewBlocks lay s a) (hstep : step lay s a = some s') :
    s'.recorded.toFinset.card ≤ lay.size - 1 := by
  rw [step_eq_some] at hstep
  cases a with
  | step p =>
    obtain hsame | ⟨b, hpc, hadd⟩ | hnil := State.next_recorded hstep
    · rw [hsame]
      exact hle
    · simp only [FewBlocks, hpc, Pc.Few] at hfew
      rw [hadd, List.toFinset_cons]
      obtain hmem | hlt := hfew
      · rw [Finset.insert_eq_of_mem (List.mem_toFinset.mpr hmem)]
        exact hle
      · exact (Finset.card_insert_le _ _).trans hlt
    · rw [hnil]
      exact Nat.zero_le _
  | beginOp p | logWrite p b | endOp p =>
    simp only [outcome] at hstep
    split at hstep <;> cases hstep
    exact hle
  | kill q =>
    simp only [outcome] at hstep
    split at hstep
    · cases hstep
      split <;> exact hle
    · cases hstep

/-- In every run whose operations log few enough blocks between two commits: the header stays within
the log, `log_write` does not panic, and `write_log` stays inside the log area. -/
theorem log_never_overflows
    (hrun : Reaches (step mkfs) (fun s a => Fits s a ∧ FewBlocks mkfs s a) (State.init : State n) s) :
    s.lh.length ≤ mkfs.size - 1 ∧ (∀ a, Fits s a → FewBlocks mkfs s a → outcome mkfs s a ≠ .panic .tooBig) ∧
      ∀ p bn, s.writesLog mkfs p = some bn → mkfs.start < bn ∧ bn < mkfs.start + mkfs.size := by
  have hinv : s.Inv ∧ s.recorded.toFinset.card ≤ mkfs.size - 1 :=
    hrun.invariant (I := fun s => s.Inv ∧ s.recorded.toFinset.card ≤ mkfs.size - 1)
      ⟨State.init_inv, Nat.zero_le _⟩ fun _ _ _ hinv hG hstep =>
        ⟨hinv.1.step hG.1 hstep, recorded_card_step hinv.2 hG.2 hstep⟩
  have hlen : s.lh.length ≤ mkfs.size - 1 := hinv.1.length_eq.trans_le hinv.2
  refine ⟨hlen, fun a _ hfew hpanic => ?_, fun p bn hwrites => ?_⟩
  · obtain ⟨p, rfl, b, hpc, hbig⟩ := outcome_panic hpanic
    simp only [FewBlocks, hpc, Pc.Few, ← hinv.1.length_eq] at hfew
    simp only [mkfs, logSize, maxOpBlocks] at hbig hfew
    omega
  · unfold State.writesLog at hwrites
    split at hwrites
    · split at hwrites
      · rename_i hlt
        cases hwrites
        simp only [mkfs, logSize, maxOpBlocks] at hlen ⊢
        omega
      · cases hwrites
    · cases hwrites

/-- One operation logs a block and commits alone; `write_log` is about to write the first log block. -/
theorem log_never_overflows_one :
    ∃ s : State 1, Reaches (step mkfs) (fun s a => Fits s a ∧ FewBlocks mkfs s a) State.init s ∧
      (s.lh = [40] ∧ s.writesLog mkfs 0 = some 3) ∧ s.lh.length ≤ mkfs.size - 1 := by
  have hacts : (runActs (step mkfs) (fun s a => Fits s a ∧ FewBlocks mkfs s a)
      [.beginOp 0, .step 0, .logWrite 0 40, .step 0, .step 0, .step 0, .endOp 0, .step 0, .step 0]
      (.init : State 1)).map (fun s => decide (s.lh = [40] ∧ s.writesLog mkfs 0 = some 3)) = some true := by
    decide +kernel
  obtain ⟨s, hrun, hproj⟩ := Reaches.of_map hacts
  exact ⟨s, hrun, of_decide_eq_true hproj, (log_never_overflows hrun).1⟩

def logBlocks (p : Fin 3) (b k : Nat) : List (Act 3) :=
  (List.range k).flatMap fun i => [.logWrite p (b + i), .step p, .step p, .step p]

/-- Three operations that log ten distinct blocks each make `log_write` panic at the thirtieth. If two
of them pass the size check together, both blocks are recorded, and the header names one more block
than the log area has room for. -/
theorem full_operations_overflow :
    (∃ s : State 3, Reaches (step mkfs) Fits State.init s ∧ outcome mkfs s (.step 2) = .panic .tooBig) ∧
      ∃ s : State 3, Reaches (step mkfs) Fits State.init s ∧ mkfs.size - 1 < s.lh.length := by
  constructor
  · have hacts : (runActs (step mkfs) Fits
        ([.beginOp 0, .step 0, .beginOp 1, .step 1, .beginOp 2, .step 2] ++ logBlocks 0 100 10 ++
          logBlocks 1 200 10 ++ logBlocks 2 300 9 ++ [.logWrite 2 309])
        (.init : State 3)).map (fun s => decide (s.pc 2 = .logSize 309 ∧ s.lh.length = 29))
        = some true := by
      decide +kernel
    obtain ⟨s, hs, hproj⟩ := Reaches.of_map hacts
    obtain ⟨hpc, hlen⟩ := of_decide_eq_true hproj
    refine ⟨s, hs, ?_⟩
    simp only [outcome, State.next, hpc, hlen]
    rfl
  · have hacts : (runActs (step mkfs) Fits
        ([.beginOp 0, .step 0, .beginOp 1, .step 1, .beginOp 2, .step 2] ++ logBlocks 0 100 10 ++
          logBlocks 1 200 9 ++ logBlocks 2 300 9 ++ [.logWrite 1 209, .logWrite 2 309, .step 1, .step 2,
            .step 1, .step 2, .step 1, .step 2])
        (State.init : State 3)).map (fun s => decide (mkfs.size - 1 < s.lh.length)) = some true := by
      decide +kernel
    obtain ⟨s, hreach, hproj⟩ := Reaches.of_map hacts
    exact ⟨s, hreach, of_decide_eq_true hproj⟩

end Xv6.Admission
