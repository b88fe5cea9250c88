import Xv6.Log.Admission
import Xv6.Lib.Count
import Xv6.Lib.Mutex
import Mathlib.Algebra.BigOperators.Ring.Finset

/-!
# The reservations of the log

`begin_op` reserves `MAXOPBLOCKS` log blocks for each operation only through `log.outstanding`. The
invariant makes the reservations explicit: what an operation has not used yet is still free. It also
says why nobody sleeps in vain: a section that could make room ends with a `wakeup`.
-/

namespace Xv6.Admission

open Function (update update_self update_of_ne)

/-! ### Where a process is -/

/-- Between the end of `begin_op` and the first locked part of `end_op`. -/
def Pc.InOp : Pc → Prop
  | .op | .logSize _ | .logOutstanding _ | .logRecord _ | .endOp => True
  | _ => False

instance (pc : Pc) : Decidable pc.InOp := by
  cases pc <;> unfold Pc.InOp <;> infer_instance

def Pc.Commits : Pc → Prop
  | .commit | .writeLog _ | .writeHead | .installTrans _ | .clear | .writeHeadAgain | .commitDone => True
  | _ => False

/-- Asleep on `&log`, or about to be. -/
def Pc.Waits : Pc → Prop
  | .switch | .asleep => True
  | _ => False

def Pc.Logs (b : Nat) : Pc → Prop
  | .logSize b' | .logOutstanding b' | .logRecord b' => b' = b
  | _ => False

theorem Pc.InOp.not_commits {pc : Pc} (hop : pc.InOp) : ¬ pc.Commits := by
  cases pc <;> first | exact id | exact False.elim hop

namespace Proc

def opens (x : Proc) : Nat := if x.pc.InOp then 1 else 0

def slack (x : Proc) : Nat := if x.pc.InOp then maxOpBlocks - x.wrote.card else 0

theorem slack_le (x : Proc) : x.slack ≤ maxOpBlocks * x.opens := by
  unfold slack opens
  split
  · omega
  · exact Nat.zero_le _

variable {x : Proc}

theorem opens_of_inOp (hop : x.pc.InOp) : x.opens = 1 := if_pos hop

theorem opens_of_not (hnot : ¬ x.pc.InOp) : x.opens = 0 := if_neg hnot

theorem slack_of_inOp (hop : x.pc.InOp) : x.slack = maxOpBlocks - x.wrote.card := if_pos hop

theorem slack_of_not (hnot : ¬ x.pc.InOp) : x.slack = 0 := if_neg hnot

theorem opens_op (w : Finset Nat) : opens { pc := .op, wrote := w } = 1 := if_pos trivial

theorem slack_op (w : Finset Nat) : slack { pc := .op, wrote := w } = maxOpBlocks - w.card :=
  if_pos trivial

end Proc

/-! ### The header -/

theorem absorb_of_mem {lh : List Nat} {b : Nat} (hb : b ∈ lh) : State.absorb lh b = lh := by
  have hlt := List.idxOf_lt_length_of_mem hb
  unfold State.absorb
  rw [if_neg hlt.ne]
  refine List.ext_getElem (List.length_set ..) fun i hi hi' => ?_
  rw [List.getElem_set]
  split
  · rename_i heq
    subst heq
    exact (List.getElem_idxOf hlt).symm
  · rfl

theorem absorb_of_not_mem {lh : List Nat} {b : Nat} (hb : b ∉ lh) : State.absorb lh b = lh ++ [b] := by
  unfold State.absorb
  rw [if_pos (List.idxOf_eq_length hb)]

theorem toFinset_absorb (lh : List Nat) (b : Nat) :
    (State.absorb lh b).toFinset = insert b lh.toFinset := by
  by_cases hb : b ∈ lh
  · rw [absorb_of_mem hb, Finset.insert_eq_of_mem (List.mem_toFinset.mpr hb)]
  · rw [absorb_of_not_mem hb]
    ext c
    simp

theorem nodup_absorb {lh : List Nat} (b : Nat) (hnodup : lh.Nodup) : (State.absorb lh b).Nodup := by
  by_cases hb : b ∈ lh
  · rwa [absorb_of_mem hb]
  · rw [absorb_of_not_mem hb, ← List.concat_eq_append]
    exact List.Nodup.concat hb hnodup

/-! ### The invariant -/

variable {n : Nat} {s s' : State n} {p q : Fin n} {x : Proc}

structure State.Inv (s : State n) : Prop where
  outstanding : s.outstanding = ∑ q, (s.proc q).opens
  committing : ∀ q, (s.pc q).Commits → s.committing = true
  unique : ∀ q r, (s.pc q).Commits → (s.pc r).Commits → q = r
  excl : s.committing = true → s.outstanding = 0
  nodup : s.lh.Nodup
  reserve : s.lh.length + ∑ q, (s.proc q).slack ≤ logSize
  wrote : ∀ q, (s.pc q).InOp → (s.proc q).wrote ⊆ s.lh.toFinset
  pending : ∀ q b, (s.pc q).Logs b → (insert b (s.proc q).wrote).card ≤ maxOpBlocks
  ptable : Mutex s.ptable fun q => s.pc q = .switch
  waits : ∀ q, (s.pc q).Waits → s.committing = true ∨ ¬ s.Room
  recorded : s.recorded.toFinset = s.lh.toFinset

namespace State

theorem init_inv : (State.init : State n).Inv where
  outstanding := by
    change 0 = ∑ _q : Fin n, 0
    rw [Finset.sum_const_zero]
  committing _ := False.elim
  unique _ _ := False.elim
  excl _ := rfl
  nodup := List.nodup_nil
  reserve := by
    change 0 + ∑ _q : Fin n, 0 ≤ _
    rw [Finset.sum_const_zero]
    exact Nat.zero_le _
  wrote _ := False.elim
  pending _ _ := False.elim
  ptable _ := ⟨nofun, nofun⟩
  waits _ := False.elim
  recorded := rfl

theorem Inv.outstanding_pos (hinv : s.Inv) (hop : (s.pc p).InOp) : 0 < s.outstanding := by
  rw [hinv.outstanding]
  have hle := le_sum (fun q => (s.proc q).opens) p
  simp only [Proc.opens_of_inOp hop] at hle
  exact hle

theorem Inv.not_committing (hinv : s.Inv) (hop : (s.pc p).InOp) : s.committing = false := by
  cases hc : s.committing with
  | false => rfl
  | true => exact absurd (hinv.excl hc) (Nat.ne_of_gt (hinv.outstanding_pos hop))

theorem Inv.not_commits (hinv : s.Inv) (hnot : s.committing = false) (q : Fin n) : ¬ (s.pc q).Commits := by
  intro hcommits
  rw [hinv.committing q hcommits] at hnot
  cases hnot

theorem Inv.not_inOp (hinv : s.Inv) (hcommits : (s.pc p).Commits) (q : Fin n) : ¬ (s.pc q).InOp :=
  fun hop => hinv.not_commits (hinv.not_committing hop) p hcommits

/-! ### A step of one process -/

section

variable (hproc : s'.proc = update s.proc p x)
include hproc

theorem pc_update_self : s'.pc p = x.pc := by
  unfold pc
  rw [hproc, update_self]

theorem proc_update_of_ne (hq : q ≠ p) : s'.proc q = s.proc q := by
  rw [hproc, update_of_ne hq]

theorem forall_update {P : Proc → Prop} (hx : P x) (hrest : ∀ q, q ≠ p → P (s.proc q)) (q : Fin n) :
    P (s'.proc q) := by
  by_cases hq : q = p
  · rw [hq, hproc, update_self]
    exact hx
  · rw [proc_update_of_ne hproc hq]
    exact hrest q hq

theorem sum_update (g : Proc → Nat) : ∑ q, g (s'.proc q) + g (s.proc p) = ∑ q, g (s.proc q) + g x := by
  rw [hproc]
  exact sum_update_add g s.proc p x

end

/-- What has to be shown of a step in which process `p` becomes `x`. -/
structure Keeps (s : State n) (p : Fin n) (x : Proc) (s' : State n) : Prop where
  proc : s'.proc = update s.proc p x
  outstanding : s'.outstanding + (s.proc p).opens = s.outstanding + x.opens
  committing : ∀ q, q ≠ p → (s.pc q).Commits → s'.committing = true
  commits : x.pc.Commits → s'.committing = true ∧ ∀ q, q ≠ p → ¬ (s.pc q).Commits
  excl : s'.committing = true → s'.outstanding = 0
  nodup : s'.lh.Nodup
  reserve : s'.lh.length + ∑ q, (s.proc q).slack + x.slack ≤ logSize + (s.proc p).slack
  wrote : x.pc.InOp → x.wrote ⊆ s'.lh.toFinset
  lh : ∀ q, q ≠ p → (s.pc q).InOp → s.lh.toFinset ⊆ s'.lh.toFinset
  pending : ∀ b, x.pc.Logs b → (insert b x.wrote).card ≤ maxOpBlocks
  ptable : Mutex.Move s.ptable p (s.pc p = .switch) (x.pc = .switch) s'.ptable
  waits : x.pc.Waits → s'.committing = true ∨ ¬ s'.Room
  waiting : ∀ q, q ≠ p → (s.pc q).Waits → s'.committing = true ∨ ¬ s'.Room
  recorded : s'.recorded.toFinset = s'.lh.toFinset

theorem Inv.of_keeps (hinv : s.Inv) (hkeeps : s.Keeps p x s') : s'.Inv where
  outstanding := by
    have hsum := sum_update hkeeps.proc Proc.opens
    have hold := hinv.outstanding
    have hnew := hkeeps.outstanding
    omega
  committing := forall_update (P := fun y => y.pc.Commits → s'.committing = true) hkeeps.proc
    (fun h => (hkeeps.commits h).1) hkeeps.committing
  unique := by
    intro q r hq hr
    by_cases hqp : q = p
    · by_cases hrp : r = p
      · rw [hqp, hrp]
      · rw [hqp, pc_update_self hkeeps.proc] at hq
        rw [pc, proc_update_of_ne hkeeps.proc hrp] at hr
        exact absurd hr ((hkeeps.commits hq).2 r hrp)
    · rw [pc, proc_update_of_ne hkeeps.proc hqp] at hq
      by_cases hrp : r = p
      · rw [hrp, pc_update_self hkeeps.proc] at hr
        exact absurd hq ((hkeeps.commits hr).2 q hqp)
      · rw [pc, proc_update_of_ne hkeeps.proc hrp] at hr
        exact hinv.unique q r hq hr
  excl := hkeeps.excl
  nodup := hkeeps.nodup
  reserve := by
    have hsum := sum_update hkeeps.proc Proc.slack
    have hle := hkeeps.reserve
    omega
  wrote := forall_update (P := fun y => y.pc.InOp → y.wrote ⊆ s'.lh.toFinset) hkeeps.proc
    hkeeps.wrote fun q hq hop => (hinv.wrote q hop).trans (hkeeps.lh q hq hop)
  pending := forall_update
    (P := fun y => ∀ b, y.pc.Logs b → (insert b y.wrote).card ≤ maxOpBlocks) hkeeps.proc
    hkeeps.pending fun q _ => hinv.pending q
  ptable := by
    have hptable := hinv.ptable.move (P := fun y : Proc => y.pc = .switch) (T := s.proc) hkeeps.ptable
    rwa [← hkeeps.proc] at hptable
  waits := forall_update (P := fun y => y.pc.Waits → s'.committing = true ∨ ¬ s'.Room) hkeeps.proc
    hkeeps.waits hkeeps.waiting
  recorded := hkeeps.recorded

section

variable (hinv : s.Inv)
include hinv

theorem Inv.move {pc : Pc} (hop : pc.InOp ↔ (s.pc p).InOp) (hcommits : pc.Commits ↔ (s.pc p).Commits)
    (hold : s.pc p ≠ .switch) (hwaits : ¬ pc.Waits)
    (hpending : ∀ b, pc.Logs b → (insert b (s.proc p).wrote).card ≤ maxOpBlocks) : (s.setPc p pc).Inv := by
  have hopens : Proc.opens { s.proc p with pc := pc } = (s.proc p).opens := by
    unfold Proc.opens
    exact if_congr hop rfl rfl
  have hslack : Proc.slack { s.proc p with pc := pc } = (s.proc p).slack := by
    unfold Proc.slack
    exact if_congr hop rfl rfl
  have hnew : pc ≠ .switch := fun h => hwaits (h ▸ trivial)
  exact hinv.of_keeps
    { proc := rfl
      outstanding := by
        rw [hopens]
        rfl
      committing := fun q _ => hinv.committing q
      commits := fun h => ⟨hinv.committing p (hcommits.mp h),
        fun q hq hqc => hq (hinv.unique q p hqc (hcommits.mp h))⟩
      excl := hinv.excl
      nodup := hinv.nodup
      reserve := by
        rw [hslack]
        exact Nat.add_le_add_right hinv.reserve _
      wrote := fun h => hinv.wrote p (hop.mp h)
      lh := fun _ _ _ => subset_rfl
      pending := hpending
      ptable := .keep (iff_of_false hnew hold)
      waits := fun h => absurd h hwaits
      waiting := fun q _ => hinv.waits q
      recorded := hinv.recorded }

def SameLog (s s' : State n) : Prop :=
  s'.outstanding = s.outstanding ∧ s'.committing = s.committing ∧ s'.lh = s.lh ∧ s'.recorded = s.recorded

theorem Inv.outside (hproc : s'.proc = update s.proc p x) (hlog : s.SameLog s')
    (hold : ¬ (s.pc p).InOp) (hnew : ¬ x.pc.InOp) (hcommits : ¬ x.pc.Commits)
    (hptable : Mutex.Move s.ptable p (s.pc p = .switch) (x.pc = .switch) s'.ptable)
    (hwaits : x.pc.Waits → s.committing = true ∨ ¬ s.Room) : s'.Inv := by
  obtain ⟨houtstanding, hcommitting, hlh, hrecorded⟩ := hlog
  have hroom : s'.Room ↔ s.Room := by
    unfold Room
    rw [houtstanding, hlh]
  exact hinv.of_keeps
    { proc := hproc
      outstanding := by rw [Proc.opens_of_not hold, Proc.opens_of_not hnew, houtstanding]
      committing := fun q _ h => hcommitting.trans (hinv.committing q h)
      commits := fun h => absurd h hcommits
      excl := by
        rw [hcommitting, houtstanding]
        exact hinv.excl
      nodup := by
        rw [hlh]
        exact hinv.nodup
      reserve := by
        rw [Proc.slack_of_not hold, Proc.slack_of_not hnew, hlh]
        exact hinv.reserve
      wrote := fun h => absurd h hnew
      lh := fun _ _ _ => by rw [hlh]
      pending := by
        intro b hb
        refine absurd ?_ hnew
        revert hb
        cases x.pc <;> simp [Pc.Logs, Pc.InOp]
      ptable := hptable
      waits := by
        rw [hcommitting, hroom]
        exact hwaits
      waiting := by
        rw [hcommitting, hroom]
        exact fun q _ => hinv.waits q
      recorded := by
        rw [hrecorded, hlh]
        exact hinv.recorded }

theorem Inv.sleep (hpc : s.pc p = .beginOp) (hreason : s.committing = true ∨ ¬ s.Room)
    (hsleep : s.sleep p = .ok s') : s'.Inv := by
  unfold State.sleep at hsleep
  split at hsleep
  · rename_i hfree
    cases hsleep
    refine hinv.outside rfl ⟨rfl, rfl, rfl, rfl⟩ ?_ id id (.acquire hfree rfl) fun _ => hreason
    rw [hpc]
    exact id
  · cases hsleep

theorem Inv.switch (hpc : s.pc p = .switch) : { s.setPc p .asleep with ptable := none }.Inv := by
  refine hinv.outside rfl ⟨rfl, rfl, rfl, rfl⟩ ?_ id id (.release hpc nofun) fun _ => hinv.waits p ?_ <;>
    rw [hpc]
  · exact id
  · trivial

theorem Inv.beginOp (hpc : s.pc p = .beginOp) (hnot : s.committing = false) (hroom : s.Room) :
    { s.setProc p { pc := .op, wrote := ∅ } with outstanding := s.outstanding + 1 }.Inv := by
  have hold : ¬ (s.pc p).InOp := by
    rw [hpc]
    exact id
  have hslack : ∑ q, (s.proc q).slack ≤ maxOpBlocks * s.outstanding := by
    rw [hinv.outstanding, Finset.mul_sum]
    exact Finset.sum_le_sum fun q _ => (s.proc q).slack_le
  exact hinv.of_keeps
    { proc := rfl
      outstanding := by rw [Proc.opens_of_not hold, Proc.opens_op]
      committing := fun q _ => hinv.committing q
      commits := False.elim
      excl := fun h => by
        change s.committing = true at h
        rw [hnot] at h
        cases h
      nodup := hinv.nodup
      reserve := by
        rw [Proc.slack_of_not hold, Proc.slack_op]
        unfold Room at hroom
        change s.lh.length + _ + (maxOpBlocks - 0) ≤ _
        simp only [maxOpBlocks] at hroom hslack ⊢
        omega
      wrote := fun _ => Finset.empty_subset _
      lh := fun _ _ _ => subset_rfl
      pending := fun _ => False.elim
      ptable := .keep (iff_of_false nofun (by rw [hpc]; nofun))
      waits := False.elim
      waiting := fun q _ hq => by
        refine (hinv.waits q hq).imp_right fun hfull => ?_
        exact absurd hroom hfull
      recorded := hinv.recorded }

theorem Inv.record {b : Nat} (hpc : s.pc p = .logRecord b) :
    { s.setProc p { pc := .op, wrote := insert b (s.proc p).wrote } with
      lh := absorb s.lh b, recorded := b :: s.recorded }.Inv := by
  have hop : (s.pc p).InOp := by
    rw [hpc]
    trivial
  have hnot := hinv.not_committing hop
  have hpending := hinv.pending p b (by rw [hpc]; rfl)
  have hslack : (absorb s.lh b).length + (maxOpBlocks - (insert b (s.proc p).wrote).card)
      ≤ s.lh.length + (maxOpBlocks - (s.proc p).wrote.card) := by
    by_cases hb : b ∈ s.lh
    · rw [absorb_of_mem hb]
      have hcard := Finset.card_le_card (Finset.subset_insert b (s.proc p).wrote)
      omega
    · have hb' : b ∉ (s.proc p).wrote := fun h => hb (List.mem_toFinset.mp (hinv.wrote p hop h))
      rw [Finset.card_insert_of_notMem hb'] at hpending ⊢
      rw [absorb_of_not_mem hb, List.length_append, List.length_singleton]
      omega
  have hgrows : s.lh.length ≤ (absorb s.lh b).length := by
    by_cases hb : b ∈ s.lh
    · rw [absorb_of_mem hb]
    · rw [absorb_of_not_mem hb, List.length_append]
      exact Nat.le_add_right _ _
  exact hinv.of_keeps
    { proc := rfl
      outstanding := by
        rw [Proc.opens_of_inOp hop, Proc.opens_op]
        rfl
      committing := fun q _ => hinv.committing q
      commits := False.elim
      excl := hinv.excl
      nodup := nodup_absorb b hinv.nodup
      reserve := by
        rw [Proc.slack_of_inOp hop, Proc.slack_op]
        have hreserve := hinv.reserve
        change (absorb s.lh b).length + _ + _ ≤ _
        omega
      wrote := fun _ => by
        change insert b _ ⊆ (absorb s.lh b).toFinset
        rw [toFinset_absorb]
        exact Finset.insert_subset_insert b (hinv.wrote p hop)
      lh := fun _ _ _ => by
        change s.lh.toFinset ⊆ (absorb s.lh b).toFinset
        rw [toFinset_absorb]
        exact Finset.subset_insert _ _
      pending := fun _ => False.elim
      ptable := .keep (iff_of_false nofun (by rw [hpc]; nofun))
      waits := False.elim
      waiting := fun q _ hq => by
        refine (hinv.waits q hq).imp_right fun hfull hroom => hfull ?_
        exact (Nat.add_le_add_right hgrows _).trans hroom
      recorded := by
        change (b :: s.recorded).toFinset = (absorb s.lh b).toFinset
        rw [toFinset_absorb, List.toFinset_cons, hinv.recorded] }

theorem Inv.last (hpc : s.pc p = .endOp) (hlast : s.outstanding - 1 = 0) :
    { s.setPc p .commit with outstanding := s.outstanding - 1, committing := true }.Inv := by
  have hop : (s.pc p).InOp := by
    rw [hpc]
    trivial
  have hpos := hinv.outstanding_pos hop
  have hnone : ∀ q, ¬ (s.pc q).Commits := hinv.not_commits (hinv.not_committing hop)
  have hone : ∀ q, q ≠ p → ¬ (s.pc q).InOp := by
    intro q hq hopq
    have hle := add_le_sum (fun q => (s.proc q).opens) hq
    simp only [Proc.opens_of_inOp hop, Proc.opens_of_inOp hopq, ← hinv.outstanding] at hle
    omega
  exact hinv.of_keeps
    { proc := rfl
      outstanding := by
        rw [Proc.opens_of_inOp hop, Proc.opens_of_not id]
        exact Nat.sub_add_cancel hpos
      committing := fun _ _ _ => rfl
      commits := fun _ => ⟨rfl, fun q _ => hnone q⟩
      excl := fun _ => hlast
      nodup := hinv.nodup
      reserve := by
        rw [Proc.slack_of_not (x := { s.proc p with pc := .commit }) id]
        exact hinv.reserve.trans (Nat.le_add_right _ _)
      wrote := False.elim
      lh := fun q hq h => absurd h (hone q hq)
      pending := fun _ => False.elim
      ptable := .keep (iff_of_false nofun (by rw [hpc]; nofun))
      waits := False.elim
      waiting := fun _ _ _ => .inl rfl
      recorded := hinv.recorded }

end

/-! ### Waking everyone -/

theorem wakeup_pc (q : Fin n) : s.wakeup.pc q = if s.pc q = .asleep then .beginOp else s.pc q := by
  unfold pc wakeup
  dsimp only
  split
  · rw [if_pos ‹_›]
  · rw [if_neg ‹_›]

theorem wakeup_wrote (q : Fin n) : (s.wakeup.proc q).wrote = (s.proc q).wrote := by
  unfold wakeup
  dsimp only
  split <;> rfl

theorem wakeup_iff {P : Pc → Prop} (hP : P .asleep ↔ P .beginOp) (q : Fin n) :
    P (s.wakeup.pc q) ↔ P (s.pc q) := by
  rw [wakeup_pc]
  split
  · rename_i hq
    rw [hq]
    exact hP.symm
  · rfl

theorem Inv.wakeup (hinv : s.Inv) : s.wakeup.Inv where
  outstanding := by
    refine hinv.outstanding.trans (Finset.sum_congr rfl fun q _ => ?_)
    exact (if_congr (wakeup_iff (P := Pc.InOp) .rfl q) rfl rfl).symm
  committing q hq := hinv.committing q ((wakeup_iff (P := Pc.Commits) .rfl q).mp hq)
  unique q r hq hr := hinv.unique q r ((wakeup_iff (P := Pc.Commits) .rfl q).mp hq)
    ((wakeup_iff (P := Pc.Commits) .rfl r).mp hr)
  excl := hinv.excl
  nodup := hinv.nodup
  reserve := by
    refine le_of_eq_of_le (congrArg _ (Finset.sum_congr rfl fun q _ => ?_)) hinv.reserve
    unfold Proc.slack
    rw [wakeup_wrote]
    exact if_congr (wakeup_iff (P := Pc.InOp) .rfl q) rfl rfl
  wrote q hq := by
    rw [wakeup_wrote]
    exact hinv.wrote q ((wakeup_iff (P := Pc.InOp) .rfl q).mp hq)
  pending q b hb := by
    rw [wakeup_wrote]
    exact hinv.pending q b ((wakeup_iff (P := Pc.Logs b) .rfl q).mp hb)
  ptable := hinv.ptable.keep fun q => wakeup_iff (P := fun pc => pc = .switch) (by simp) q
  waits q hq := by
    refine hinv.waits q ?_
    rw [wakeup_pc] at hq
    split at hq
    · exact False.elim hq
    · exact hq
  recorded := hinv.recorded

theorem Inv.not_waits_wakeup (hinv : s.Inv) (hfree : s.ptable = none) (q : Fin n) :
    ¬ (s.wakeup.pc q).Waits := by
  intro hwaits
  rw [wakeup_pc] at hwaits
  split at hwaits
  · exact hwaits
  rename_i hnot
  cases hpc : s.pc q with
  | asleep => exact hnot hpc
  | switch =>
    have howner := (hinv.ptable q).mp hpc
    rw [hfree] at howner
    cases howner
  | _ =>
    rw [hpc] at hwaits
    exact hwaits

/-- Everyone is woken and the process leaves `end_op`. -/
theorem Inv.leave (hinv : s.Inv) (hfree : s.ptable = none) (hpc : s.pc p ≠ .asleep) {o : Nat} {c : Bool}
    (houtstanding : o + (s.proc p).opens = s.outstanding)
    (hcommitting : ∀ q, q ≠ p → (s.pc q).Commits → c = true) (hexcl : c = true → o = 0) :
    { s.wakeup.setPc p .idle with outstanding := o, committing := c }.Inv := by
  have hinv' := hinv.wakeup
  have hproc : s.wakeup.proc p = s.proc p := if_neg hpc
  exact hinv'.of_keeps
    { proc := rfl
      outstanding := by
        rw [hproc, Proc.opens_of_not (x := { s.proc p with pc := .idle }) id]
        exact houtstanding
      committing := fun q hq h => hcommitting q hq ((wakeup_iff (P := Pc.Commits) .rfl q).mp h)
      commits := False.elim
      excl := hexcl
      nodup := hinv.nodup
      reserve := by
        rw [Proc.slack_of_not (x := { s.wakeup.proc p with pc := .idle }) id]
        exact hinv'.reserve.trans (Nat.le_add_right _ _)
      wrote := False.elim
      lh := fun _ _ _ => subset_rfl
      pending := fun _ => False.elim
      ptable := .keep (iff_of_false nofun fun h => hinv.not_waits_wakeup hfree p (h ▸ trivial))
      waits := False.elim
      waiting := fun q _ h => absurd h (hinv.not_waits_wakeup hfree q)
      recorded := hinv.recorded }

theorem Inv.notLast (hinv : s.Inv) (hpc : s.pc p = .endOp) (hfree : s.ptable = none) :
    { s.wakeup.setPc p .idle with outstanding := s.outstanding - 1 }.Inv := by
  have hop : (s.pc p).InOp := by
    rw [hpc]
    trivial
  have hpos := hinv.outstanding_pos hop
  refine hinv.leave hfree (by rw [hpc]; nofun) ?_ (fun q _ => hinv.committing q) fun h => ?_
  · rw [Proc.opens_of_inOp hop]
    exact Nat.sub_add_cancel hpos
  · exact absurd (hinv.excl h) (Nat.ne_of_gt hpos)

theorem Inv.clear (hinv : s.Inv) (hpc : s.pc p = .clear) :
    { s.setPc p .writeHeadAgain with lh := [], recorded := [] }.Inv := by
  have hcommits : (s.pc p).Commits := by
    rw [hpc]
    trivial
  have hnone := hinv.not_inOp hcommits
  have hcommitting := hinv.committing p hcommits
  exact hinv.of_keeps
    { proc := rfl
      outstanding := by
        rw [Proc.opens_of_not (hnone p), Proc.opens_of_not id]
        rfl
      committing := fun _ _ _ => hcommitting
      commits := fun _ => ⟨hcommitting, fun q hq h => hq (hinv.unique q p h hcommits)⟩
      excl := hinv.excl
      nodup := List.nodup_nil
      reserve := by
        rw [Proc.slack_of_not (hnone p), Proc.slack_of_not (x := { s.proc p with pc := .writeHeadAgain }) id]
        exact (Nat.add_le_add_right (Nat.zero_le _) _).trans hinv.reserve
      wrote := False.elim
      lh := fun q _ h => absurd h (hnone q)
      pending := fun _ => False.elim
      ptable := .keep (iff_of_false nofun (by rw [hpc]; nofun))
      waits := False.elim
      waiting := fun _ _ _ => .inl hcommitting
      recorded := rfl }

theorem Inv.commitDone (hinv : s.Inv) (hpc : s.pc p = .commitDone) (hfree : s.ptable = none) :
    { s.wakeup.setPc p .idle with committing := false }.Inv := by
  have hcommits : (s.pc p).Commits := by
    rw [hpc]
    trivial
  refine hinv.leave hfree (by rw [hpc]; nofun) ?_ (fun q hq h => ?_) nofun
  · rw [Proc.opens_of_not (hinv.not_inOp hcommits p)]
    rfl
  · exact absurd (hinv.unique q p h hcommits) hq

theorem Inv.commitMove (hinv : s.Inv) {pc : Pc} (hold : (s.pc p).Commits) (hnew : pc.Commits) :
    (s.setPc p pc).Inv := by
  refine hinv.move ?_ (iff_of_true hnew hold) ?_ ?_ ?_
  · refine iff_of_false ?_ fun h => h.not_commits hold
    exact fun h => h.not_commits hnew
  · intro h
    rw [h] at hold
    exact hold
  · cases pc <;> first | exact id | exact False.elim hnew
  · cases pc <;> first | exact fun _ => False.elim | exact False.elim hnew

theorem Inv.next {lay : Layout} (hinv : s.Inv) (hstep : s.next lay p = .ok s') : s'.Inv := by
  unfold State.next at hstep
  cases hpc : s.pc p <;> simp only [hpc] at hstep
  case idle | asleep | op => cases hstep
  case beginOp =>
    split at hstep
    · rename_i hcommitting
      exact hinv.sleep hpc (.inl hcommitting) hstep
    · rename_i hnot
      split at hstep
      · rename_i hfull
        exact hinv.sleep hpc (.inr hfull) hstep
      · rename_i hroom
        cases hstep
        exact hinv.beginOp hpc (Bool.not_eq_true _ ▸ hnot) (not_not.mp hroom)
  case switch =>
    cases hstep
    exact hinv.switch hpc
  case logSize b | logOutstanding b =>
    split at hstep
    · cases hstep
    · cases hstep
      refine hinv.move ?_ ?_ ?_ id fun c hc => hinv.pending p c ?_ <;> rw [hpc]
      · rfl
      · rfl
      · exact nofun
      · exact hc
  case logRecord b =>
    cases hstep
    exact hinv.record hpc
  case endOp =>
    split at hstep
    · cases hstep
    split at hstep
    · rename_i hlast
      cases hstep
      exact hinv.last hpc hlast
    · split at hstep
      · rename_i hfree
        cases hstep
        exact hinv.notLast hpc hfree
      · cases hstep
  case commit | writeLog tail | installTrans tail =>
    cases hstep
    refine hinv.commitMove ?_ ?_
    · rw [hpc]
      trivial
    · split <;> trivial
  case writeHead | writeHeadAgain =>
    cases hstep
    refine hinv.commitMove ?_ trivial
    rw [hpc]
    trivial
  case clear =>
    cases hstep
    exact hinv.clear hpc
  case commitDone =>
    split at hstep
    · rename_i hfree
      cases hstep
      exact hinv.commitDone hpc hfree
    · cases hstep

end State

end Xv6.Admission
