import Xv6.Lib.Bytes

/-!
# The multiprocessor configuration table

`mpconfig` and `mpinit` of `mp.c`, for the table that `mpsearch` leads to. The table is firmware data:
any bytes, of which the scan reads one entry after another.
-/

namespace Xv6.Boot

def ncpuMax : Nat := 8

/-- `conf->length`. -/
def length (conf : Bytes) : Nat := conf.get 2 4

def sum (addr : Bytes) : Nat → UInt8
  | 0 => 0
  | len + 1 => sum addr len + addr len

/-- `mpconfig`, once `mpsearch` has found a table. -/
def mpconfig (conf : Bytes) : Option Bytes :=
  if conf.slice 0 4 ≠ [0x50, 0x43, 0x4D, 0x50] then
    none
  else if conf 6 ≠ 1 ∧ conf 6 ≠ 4 then
    none
  else if sum conf (length conf) ≠ 0 then
    none
  else
    some conf

structure Scan where
  /-- The offset of `p` in the table. -/
  p : Nat
  ismp : Bool
  /-- `cpus[i].apicid` for `i < ncpu`. -/
  cpus : List UInt8
  ioapicid : UInt8

namespace Scan

/-- `conf+1`. -/
def start : Scan where
  p := 44
  ismp := true
  cpus := []
  ioapicid := 0

/-- The body of the loop. The `break` of the default case leaves the `switch` only. -/
def body (conf : Bytes) (s : Scan) : Scan :=
  match (conf s.p).toNat with
  -- MPPROC
  | 0 =>
    { s with
      p := s.p + 20
      cpus := if s.cpus.length < ncpuMax then s.cpus ++ [conf (s.p + 1)] else s.cpus }
  -- MPIOAPIC
  | 2 => { s with p := s.p + 8, ioapicid := conf (s.p + 1) }
  -- MPBUS, MPIOINTR, MPLINTR
  | 1 | 3 | 4 => { s with p := s.p + 8 }
  | _ => { s with ismp := false }

/-- `none` while the loop is still running. -/
def loop (conf : Bytes) : Nat → Scan → Option Scan
  | 0, _ => none
  | fuel + 1, s => if s.p < length conf then loop conf fuel (s.body conf) else some s

end Scan

inductive Outcome where
  | panic (msg : String)
  | done (s : Scan)

def mpinit (conf : Bytes) (fuel : Nat) : Option Outcome :=
  match mpconfig conf with
  | none => some (.panic "Expect to run on an SMP")
  | some conf =>
    (Scan.start.loop conf fuel).map fun s =>
      if s.ismp then .done s else .panic "Didn't find a suitable machine"

/-! ### The entries of a table -/

def Known (type : UInt8) : Prop := type.toNat ≤ 4

instance (type : UInt8) : Decidable (Known type) := inferInstanceAs (Decidable (_ ≤ _))

def size (type : UInt8) : Nat := if type = 0 then 20 else 8

/-- The offset of the `k`-th entry. -/
def entry (conf : Bytes) : Nat → Nat
  | 0 => 44
  | k + 1 => entry conf k + size (conf (entry conf k))

/-- The processors among the first `k` entries, in table order. -/
def processors (conf : Bytes) (k : Nat) : List UInt8 :=
  (((List.range k).map (entry conf)).filter fun off => conf off = 0).map fun off => conf (off + 1)

variable {conf : Bytes}

theorem le_entry (k : Nat) : k ≤ entry conf k := by
  induction k with
  | zero => exact Nat.zero_le _
  | succ k ih =>
    unfold entry size
    split_ifs <;> omega

theorem take_concat (n : Nat) (l : List UInt8) (a : UInt8) :
    (l ++ [a]).take n = if (l.take n).length < n then l.take n ++ [a] else l.take n := by
  rw [List.length_take]
  split_ifs with hlt
  · rw [List.take_of_length_le (by simp; omega), List.take_of_length_le (by omega)]
  · exact List.take_append_of_le_length (by omega)

theorem processors_succ (k : Nat) : processors conf (k + 1) = processors conf k ++
    if conf (entry conf k) = 0 then [conf (entry conf k + 1)] else [] := by
  unfold processors
  rw [List.range_succ, List.map_append, List.filter_append, List.map_append]
  split_ifs with hproc <;> simp [hproc]

namespace Scan

theorem body_known {s : Scan} (hknown : Known (conf s.p)) :
    (s.body conf).p = s.p + size (conf s.p) ∧ (s.body conf).ismp = s.ismp ∧
      (s.body conf).cpus = if conf s.p = 0 ∧ s.cpus.length < ncpuMax then s.cpus ++ [conf (s.p + 1)]
        else s.cpus := by
  have hproc : conf s.p = 0 ↔ (conf s.p).toNat = 0 := UInt8.toNat_inj.symm
  unfold Known at hknown
  unfold body size
  simp only [hproc]
  generalize (conf s.p).toNat = type at hknown ⊢
  obtain rfl | rfl | rfl | rfl | rfl : type = 0 ∨ type = 1 ∨ type = 2 ∨ type = 3 ∨ type = 4 := by omega
  all_goals simp

/-- The scan has read the first `k` entries. -/
structure At (conf : Bytes) (k : Nat) (s : Scan) : Prop where
  p : s.p = entry conf k
  ismp : s.ismp = true
  cpus : s.cpus = (processors conf k).take ncpuMax

theorem At.body {k : Nat} {s : Scan} (hs : At conf k s) (hknown : Known (conf (entry conf k))) :
    At conf (k + 1) (s.body conf) := by
  rw [← hs.p] at hknown
  obtain ⟨hp, hismp, hcpus⟩ := body_known hknown
  refine ⟨?_, hismp.trans hs.ismp, ?_⟩
  · rw [hp, hs.p]
    rfl
  · rw [hcpus, processors_succ, ← hs.p]
    by_cases hproc : conf s.p = 0
    · rw [if_pos hproc, take_concat, ← hs.cpus]
      simp only [hproc, true_and]
    · rw [if_neg hproc, List.append_nil, ← hs.cpus, if_neg fun h => hproc h.1]

/-- The turns up to the `n`-th entry, if the entries before it are known. -/
theorem At.loop {n : Nat} (hknown : ∀ k < n, entry conf k < length conf ∧ Known (conf (entry conf k)))
    (m : Nat) {k : Nat} {s : Scan} (hs : At conf k s) (hk : k + m = n) :
    ∃ s', At conf n s' ∧ ∀ fuel, s.loop conf (fuel + m) = s'.loop conf fuel := by
  induction m generalizing k s with
  | zero =>
    subst hk
    exact ⟨s, hs, fun _ => rfl⟩
  | succ m ih =>
    obtain ⟨hin, hknownk⟩ := hknown k (by omega)
    obtain ⟨s', hs', hrun⟩ := ih (hs.body hknownk) (by omega)
    refine ⟨s', hs', fun fuel => ?_⟩
    rw [← Nat.add_assoc, Scan.loop, if_pos (by rwa [hs.p])]
    exact hrun fuel

theorem loop_none {s : Scan} {fuel : Nat} (m : Nat) (hrun : s.loop conf (fuel + m) = none) :
    s.loop conf fuel = none := by
  induction fuel generalizing s with
  | zero => rfl
  | succ fuel ih =>
    rw [Nat.add_right_comm] at hrun
    unfold loop at hrun ⊢
    split_ifs at hrun ⊢
    exact ih hrun

theorem body_unknown {s : Scan} (hunknown : ¬ Known (conf s.p)) : s.body conf = { s with ismp := false } := by
  unfold Known at hunknown
  unfold body
  split <;> first | omega | rfl

theorem loop_unknown {s : Scan} (hin : s.p < length conf) (hunknown : ¬ Known (conf s.p)) (fuel : Nat) :
    s.loop conf fuel = none := by
  induction fuel generalizing s with
  | zero => rfl
  | succ fuel ih =>
    rw [loop, if_pos hin, body_unknown hunknown]
    exact ih hin hunknown

end Scan

theorem entry_mono (conf : Bytes) : Monotone (entry conf) :=
  monotone_nat_of_le_succ fun _ => Nat.le_add_right _ _

/-- Every entry that starts inside the table has a known type. -/
def AllKnown (conf : Bytes) : Prop := ∀ k, entry conf k < length conf → Known (conf (entry conf k))

/-- On a table that `mpconfig` accepts, `mpinit` finishes, with the first `NCPU` processors of the table,
in table order, in `cpus`, if all entries are known, and never returns if one is not. -/
theorem mpinit_finishes (conf : Bytes) (hconf : mpconfig conf = some conf) :
    (AllKnown conf → ∃ n fuel s, (∀ k < n, entry conf k < length conf) ∧ length conf ≤ entry conf n ∧
      mpinit conf fuel = some (.done s) ∧ s.cpus = (processors conf n).take ncpuMax) ∧
    (¬ AllKnown conf → ∀ fuel, mpinit conf fuel = none) := by
  have hstart : Scan.At conf 0 .start := ⟨rfl, rfl, rfl⟩
  unfold mpinit
  rw [hconf]
  refine ⟨fun hknown => ?_, fun hunknown fuel => ?_⟩
  · have hend : ∃ n, length conf ≤ entry conf n := ⟨length conf, le_entry _⟩
    have hentries : ∀ k < Nat.find hend, entry conf k < length conf := fun k hk =>
      Nat.lt_of_not_le (Nat.find_min hend hk)
    obtain ⟨s, hs, hrun⟩ := hstart.loop (fun k hk => ⟨hentries k hk, hknown k (hentries k hk)⟩) _
      (Nat.zero_add _)
    refine ⟨_, 1 + Nat.find hend, s, hentries, Nat.find_spec hend, ?_, hs.cpus⟩
    have hlast : s.loop conf 1 = some s := if_neg (by rw [hs.p]; exact not_lt.mpr (Nat.find_spec hend))
    dsimp only
    rw [(hrun 1).trans hlast, Option.map_some, if_pos hs.ismp]
  · have hfirst : ∃ k, entry conf k < length conf ∧ ¬ Known (conf (entry conf k)) := by
      unfold AllKnown at hunknown
      push Not at hunknown
      exact hunknown
    obtain ⟨hin, hbad⟩ := Nat.find_spec hfirst
    obtain ⟨s, hs, hrun⟩ := hstart.loop (fun k hk =>
      have hkin := (entry_mono conf hk.le).trans_lt hin
      ⟨hkin, not_not.mp fun hk' => Nat.find_min hfirst hk ⟨hkin, hk'⟩⟩) _ (Nat.zero_add _)
    rw [← hs.p] at hin hbad
    dsimp only
    rw [Scan.loop_none _ ((hrun fuel).trans (Scan.loop_unknown hin hbad fuel)), Option.map_none]

def table (len type checksum : UInt8) : Bytes := fun a =>
  match a with
  | 0 => 0x50
  | 1 => 0x43
  | 2 => 0x4D
  | 3 => 0x50
  | 4 => len
  | 6 => 1
  | 7 => checksum
  | 44 => type
  | 45 => 9
  | _ => 0

theorem mpconfig_table {len type checksum : UInt8}
    (hsum : sum (table len type checksum) (length (table len type checksum)) = 0) :
    mpconfig (table len type checksum) = some (table len type checksum) := by
  have hsignature : (table len type checksum).slice 0 4 = [0x50, 0x43, 0x4D, 0x50] := rfl
  unfold mpconfig
  rw [if_neg (not_not.mpr hsignature), if_neg fun h => h.1 rfl, if_neg (not_not.mpr hsum)]

/-- A table with one processor. -/
theorem mpinit_finishes_one : ∃ fuel s, mpinit (table 64 0 134) fuel = some (.done s) ∧ s.cpus = [9] := by
  have hlength : length (table 64 0 134) = 64 := by decide
  have hpast : ∀ k, 64 ≤ entry (table 64 0 134) (k + 1) := by
    intro k
    induction k with
    | zero => decide
    | succ k ih => exact ih.trans (Nat.le_add_right _ _)
  obtain ⟨n, fuel, s, hentries, hend, hrun, hcpus⟩ :=
    (mpinit_finishes (table 64 0 134) (mpconfig_table (by decide +kernel))).1 fun k hk => by
      cases k with
      | zero => decide
      | succ k => exact absurd (hpast k) (by omega)
  obtain rfl : n = 1 := by
    match n with
    | 0 => exact absurd hend (by decide)
    | 1 => rfl
    | n + 2 => exact absurd (hentries 1 (by omega)) (by decide)
  exact ⟨fuel, s, hrun, hcpus.trans (by decide)⟩

/-- The entry of unknown type 5 is read again and again. -/
theorem mpinit_loops : mpconfig (table 45 5 157) = some (table 45 5 157) ∧
    ∀ fuel, mpinit (table 45 5 157) fuel = none := by
  have hconf : mpconfig (table 45 5 157) = some (table 45 5 157) :=
    mpconfig_table (by decide +kernel)
  refine ⟨hconf, fun fuel => ?_⟩
  unfold mpinit
  rw [hconf]
  dsimp only
  rw [Scan.loop_unknown (by decide) (by decide), Option.map_none]

end Xv6.Boot
