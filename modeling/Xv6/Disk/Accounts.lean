import Xv6.Disk.Steps

/-!
# Every block is accounted for

Between calls no reference is held but those of the current directories and the open files. From such
a state a call keeps the invariant of its rules to its end, so every sequence of calls leaves a disk on
which the bitmap marks the metadata blocks and the blocks that one place holds.
-/

namespace Xv6.Disk

open Fs (Inum Op ownRefs count_ownRefs mem_ownRefs slash)

variable {n : Nat}

/-! ### Between calls -/

structure Settled (s : State n) : Prop where
  sound : s.disk.Sound
  names : s.disk.Names { i | i < s.disk.sb.ninodes }
  root : rootino < s.disk.sb.ninodes
  valid : ∀ i, s.tables.valid i = true →
    i < s.disk.sb.ninodes ∧ (s.disk.dinode i).type ≠ 0 ∧ s.node i = s.disk.dinode i
  cwd_lt : ∀ q i, s.tables.cwd q = some i → i < s.disk.sb.ninodes
  file : ∀ f i, (s.tables.file f).fields.ip = some i → f < nfile ∧ i < s.disk.sb.ninodes ∧
    (s.disk.dinode i).type ≠ 0 ∧ ((s.tables.file f).fields.writable = true → (s.disk.dinode i).type ≠ tDir)
  unused : ∀ f, (s.tables.file f).ref = 0 → (s.tables.file f).fields.ip = none
  refs_le : ∀ i, s.tables.allCwds i + s.tables.opens i ≤ s.tables.ref i

/-- The inodes that are some process's directory or open if they are allocated and have no links. -/
def State.kept (s : State n) : Set Inum :=
  { i | (s.disk.dinode i).type ≠ 0 → (s.disk.dinode i).nlink = 0 →
    0 < s.tables.allCwds i + s.tables.opens i }

/-- No path leads to an orphan. -/
def State.NoOrphans (s : State n) : Prop := rootino ∈ s.kept ∧ s.disk.Names s.kept

def Nodes.all (count : Nat) : Nodes where
  count := count
  named := { i | i < count }
  lt _ hi := hi
  short i hi := Nat.lt_of_le_of_lt (Nat.mod_le i _) hi

def Use.start (p : Fin n) (s : State n) : Use where
  refs := ownRefs (s.tables.cwd p)
  held := ∅
  ready := ∅
  dirs := ∅
  nondir := ∅
  live := ∅
  dead := ∅
  last := ∅
  pins := ∅
  loose := { i | s.tables.cwd p = some i }
  cwd := s.tables.cwd p
  files := ∅
  nodes := ∅
  extra := s.disk.logged.length

theorem Use.start_start (p : Fin n) (s : State n) : (Use.start p s).Start :=
  ⟨rfl, rfl, fun _ hi => mem_ownRefs hi⟩

variable {N : Nodes} {strict : Prop} {s s' : State n} {p : Fin n}

theorem Settled.start (hsettled : Settled s) (p : Fin n) (hcount : s.disk.sb.ninodes = N.count)
    (hnames : s.disk.Names N.named) (hnamed : ∀ i < N.count,
      (s.disk.dinode i).type = 0 ∨ 0 < s.tables.allCwds i + s.tables.opens i → i ∈ N.named)
    (hsize : strict → s.disk.sb.size ≤ fssize) (hspare : strict → N.named ⊆ s.kept) :
    Inv N strict p s (Use.start p s) :=
  have hcwds : ∀ q i, s.tables.cwd q = some i → i ∈ N.named := fun q i hi =>
    hnamed i (hcount ▸ hsettled.cwd_lt q i hi) (.inr (by rw [s.tables.allCwds_eq q i, if_pos hi]; omega))
  { ninodes := hcount
    sound := hsettled.sound
    names := hnames
    rest := fun i hi htype => hnamed i hi (Or.inl htype)
    valid := hcount ▸ hsettled.valid
    cwd_lt := hcwds
    file := fun f i hi => by
      obtain ⟨hf, hlt, hfile⟩ := hsettled.file f i hi
      have hpos : 0 < s.tables.opens i :=
        Finset.card_pos.mpr ⟨f, Finset.mem_filter.mpr ⟨Finset.mem_range.mpr hf, hi⟩⟩
      exact ⟨hf, hnamed i (hcount ▸ hlt) (Or.inr (by omega)), hfile⟩
    unused := hsettled.unused
    refs_le := fun i => by
      have hle := hsettled.refs_le i
      rw [s.tables.allCwds_eq p i] at hle
      change _ + _ + (ownRefs (s.tables.cwd p)).count i ≤ _
      rw [count_ownRefs]
      omega
    refs_lt := fun i hi => by
      have hcount := Multiset.count_pos.mpr hi
      change 0 < (ownRefs (s.tables.cwd p)).count i at hcount
      rw [count_ownRefs] at hcount
      by_cases hcwd : s.tables.cwd p = some i
      · exact hcwds p i hcwd
      · rw [if_neg hcwd] at hcount
        exact absurd hcount (Nat.lt_irrefl 0)
    pins := nofun
    ready := nofun
    dirs := nofun
    nondir := nofun
    live := nofun
    dead := nofun
    last := nofun
    held := nofun
    own := rfl
    files := nofun
    size_le := hsize
    logged := fun _ => ⟨s.disk.logged.toFinset, List.toFinset_card_le _,
      fun _ hx => .inr (.inr (List.mem_toFinset.mpr hx))⟩
    spare := fun hstrict i hi htype hnlink hloose => by
      have hpos := hspare hstrict hi htype hnlink
      have hcwd : s.tables.cwd p ≠ some i := hloose
      rw [s.tables.allCwds_eq p i, if_neg hcwd] at hpos
      exact hpos }

theorem Settled.start_all (hsettled : Settled s) (p : Fin n) :
    Inv (.all s.disk.sb.ninodes) False p s (Use.start p s) :=
  hsettled.start p rfl hsettled.names (fun _ hi _ => hi) nofun nofun

theorem Settled.obeys (hsettled : Settled s) (call : Fs.Call) :
    call.prog.Obeys (useProtocol (.all s.disk.sb.ninodes) False) (Use.start p s) fun _ => Use.Idle :=
  prog_obeys call hsettled.root (Use.start_start p s)

theorem Inv.settled {count : Nat} {l : Use} (hinv : Inv (.all count) strict p s l) (hidle : l.Idle)
    (hroot : rootino < count) : Settled s := by
  obtain rfl := hinv.ninodes
  refine ⟨hinv.sound, hinv.names, hroot, hinv.valid, hinv.cwd_lt, hinv.file, hinv.unused, fun i => ?_⟩
  have hle := hinv.refs_le i
  rw [hidle, count_ownRefs, ← hinv.own] at hle
  rw [s.tables.allCwds_eq p i]
  omega

theorem Inv.exec (o : Op) (s : State n) (l : Use) (r : o.Res)
    (s' : State n) (hinv : Inv N strict p s l) (hpre : (useProtocol N strict).pre o l)
    (hexec : State.exec p o s = some (r, s')) :
    (useProtocol N strict).res o l r ∧ Inv N strict p s' ((useProtocol N strict).next o l r) := by
  refine hinv.step hpre ?_
  unfold State.exec at hexec
  cases hstep : s.step p o with
  | error e =>
    rw [hstep] at hexec
    cases hexec
  | ok rs =>
    rw [hstep] at hexec
    cases hexec
    rfl

theorem Settled.call (hsettled : Settled s) {call : Fs.Call} {r : Int}
    (hrun : call.prog.run (State.exec p) s = .done r s') : Settled s' := by
  obtain ⟨l', hinv', hidle⟩ := (hsettled.obeys call).done Inv.exec (hsettled.start_all p) hrun
  exact hinv'.settled hidle hsettled.root

theorem Settled.calls {s₀ : State n} (hsettled : Settled s₀) (hcalls : Calls s₀ s) : Settled s := by
  induction hcalls with
  | init => exact hsettled
  | call p call r hbefore hrun ih => exact ih.call hrun

theorem Settled.halted (hsettled : Settled s) {call : Fs.Call} {o : Op}
    (hrun : call.prog.run (State.exec p) s = .halted o s') : s'.step p o ≠ .error .freeingFree := by
  obtain ⟨l', hinv', hpre⟩ :=
    (hsettled.obeys call).visits Inv.exec (hsettled.start_all p) (Prog.visits_of_halted hrun)
  exact hinv'.step_ne_freeingFree hpre

theorem settled_boot {d : Volume} (hsound : d.Sound) (hnames : d.Names { i | i < d.sb.ninodes })
    (hroot : rootino < d.sb.ninodes) : Settled (boot n d) where
  sound := hsound
  names := hnames
  root := hroot
  valid := nofun
  cwd_lt q i hi := by
    obtain rfl : rootino = i := Option.some.inj hi
    exact hroot
  file := nofun
  unused _ _ := rfl
  refs_le i := by
    have hopens : (boot n d).tables.opens i = 0 := by simp [Fs.State.opens, boot]
    rw [hopens]
    by_cases hi : i = rootino
    · simp [Fs.State.allCwds, boot, hi]
    · simp [Fs.State.allCwds, boot, hi, Ne.symm hi]

/-! ### Blocks and the bitmap -/

namespace Volume

/-- The bitmap marks the metadata blocks and the blocks that are in exactly one place, and no block is
in two places. -/
def Accounts (d : Volume) : Prop :=
  (∀ b < d.sb.size, d.bit b = true ↔ b < d.sb.dataStart ∨ ∃! x, holds d.sb.ninodes d.dinode d.blk x = b) ∧
  ∀ x y, holds d.sb.ninodes d.dinode d.blk x ≠ 0 →
    holds d.sb.ninodes d.dinode d.blk x = holds d.sb.ninodes d.dinode d.blk y → x = y

/-- The regions of the disk are in order and are those that block 1 describes, the root exists, the
places hold data blocks, no file has a hole, and directory entries name inodes that exist. -/
structure WellFormed (d : Volume) : Prop where
  ok : d.sb.Ok
  super : d.sb = .read (d.blk 1)
  root : rootino < d.sb.ninodes
  data : ∀ x, holds d.sb.ninodes d.dinode d.blk x ≠ 0 → d.sb.IsData (holds d.sb.ninodes d.dinode d.blk x)
  solid : ∀ j < d.sb.ninodes, (d.dinode j).type ≠ 0 → d.Solid (d.dinode j)
  names : d.Names { i | i < d.sb.ninodes }

variable {d : Volume}

theorem Sound.accounts (hsound : d.Sound) : d.Accounts := by
  have hown := hsound.owned
  refine ⟨fun b hb => ?_, hown.owns.inj⟩
  by_cases hmeta : b < d.sb.dataStart
  · simp [hmeta, hown.fixed b hmeta hb]
  · have hdata : d.sb.IsData b := ⟨not_lt.mp hmeta, hb⟩
    rw [hown.owns.used_iff b hdata, or_iff_right hmeta]
    refine ⟨fun ⟨x, hx⟩ => ⟨x, hx, fun y hy => ?_⟩, fun hx => hx.exists⟩
    exact hown.owns.inj y x (by rw [hy]; exact hown.owns.pos b hdata) (hy.trans hx.symm)

theorem Accounts.sound (haccounts : d.Accounts) (hwf : d.WellFormed) : d.Sound := by
  obtain ⟨hbits, hinj⟩ := haccounts
  refine ⟨⟨hwf.ok, hwf.super, fun b hmeta hb => ?_, ?_⟩, hwf.solid⟩
  · exact (hbits b hb).mpr (.inl hmeta)
  · refine ⟨fun b hb => ?_, hwf.data, hinj, fun b hb => ?_⟩
    · exact Nat.ne_of_gt ((Nat.succ_pos _).trans_le hb.1)
    · have hpos : b ≠ 0 := Nat.ne_of_gt ((Nat.succ_pos _).trans_le hb.1)
      rw [hbits b hb.2, or_iff_right (not_lt.mpr hb.1)]
      refine ⟨fun hx => hx.exists, fun ⟨x, hx⟩ => ⟨x, hx, fun y hy => ?_⟩⟩
      exact hinj y x (by rw [hy]; exact hpos) (hy.trans hx.symm)

theorem Checked.wellFormed {held : List Nat} (hcheck : d.Checked held)
    (hroot : rootino < d.sb.ninodes) (hnames : d.Names { i | i < d.sb.ninodes }) : d.WellFormed where
  ok := hcheck.sound.owned.ok
  super := hcheck.sound.owned.super
  root := hroot
  data := hcheck.sound.owned.owns.data
  solid := hcheck.sound.solid
  names := hnames

theorem names_of_range {named : Set Inum}
    (hcheck : ∀ i ∈ List.range d.sb.ninodes, (d.dinode i).type = tDir →
      ∀ k ∈ List.range ((d.dinode i).size.toNat / direntSize),
        (d.content (d.dinode i)).get 2 (direntSize * k) ∈ named) : d.Names named := by
  intro i hi hdir k hk _
  refine hcheck i (List.mem_range.mpr hi) hdir k (List.mem_range.mpr ?_)
  rw [Nat.lt_div_iff_mul_lt (by decide)]
  simp only [direntSize] at hk ⊢
  omega

end Volume

/-- After every sequence of completed calls on a well-formed disk every block is accounted for, and no
call stops in `bfree`'s panic. -/
theorem accounts_of_calls {img : Volume} (haccounts : img.Accounts) (hwf : img.WellFormed) {s : State n}
    (hcalls : Calls (boot n img) s) :
    s.disk.Accounts ∧ ∀ (p : Fin n) (call : Fs.Call) (o : Op) (s' : State n),
      call.prog.run (State.exec p) s = .halted o s' → s'.step p o ≠ .error .freeingFree := by
  have hboot : Settled (boot n img) := settled_boot (haccounts.sound hwf) hwf.names hwf.root
  have hsettled := hboot.calls hcalls
  exact ⟨hsettled.sound.accounts, fun p call o s' hrun => hsettled.halted hrun⟩

def State.runCall (p : Fin n) (call : Fs.Call) (s : State n) : Option (State n) :=
  match call.prog.run (State.exec p) s with
  | .done _ s' => some s'
  | .halted _ _ => none

theorem Calls.of_runCall {s₀ : State n} {call : Fs.Call} (hbefore : Calls s₀ s)
    (hrun : s.runCall p call = some s') : Calls s₀ s' := by
  unfold State.runCall at hrun
  split at hrun
  · rename_i r s₁ hdone
    cases hrun
    exact .call p call r hbefore hdone
  · cases hrun

/-- A root directory whose entry `f` names the inode `inum`. Inode 2 is a file, and its block reads as
an inode that holds the root directory's block. -/
def fileVolume (inum : Nat) : Volume :=
  .format { size := 42, nblocks := 7, ninodes := 8, nlog := 30, logstart := 2, inodestart := 32,
            bmapstart := 34 }
    (fun i =>
      if i = 1 then
        { Dinode.fresh 1 with nlink := 1, size := 48, addrs := fun k => if k = 0 then 35 else 0 }
      else if i = 2 then
        { Dinode.fresh 2 with nlink := 1, size := 512, addrs := fun k => if k = 0 then 36 else 0 }
      else
        .fresh 0)
    (fun b => b < 37) fun b =>
      if b = 35 then
        Bytes.ofList (direntBytes ⟨1, [46]⟩ ++ direntBytes ⟨1, [46, 46]⟩ ++ direntBytes ⟨inum, [102]⟩)
      else
        { Dinode.fresh 2 with
          nlink := 1, size := 512, addrs := fun k => if k = 0 then 35 else 0 : Dinode }.byte

/-- `unlink("/f")` frees the file's block. -/
theorem accounts_of_calls_unlink : ∃ s : State 1,
    (boot 1 (fileVolume 2)).runCall 0 (.unlink [slash, 102]) = some s ∧ s.disk.bit 36 = false ∧
      s.disk.Accounts := by
  have hrun : ((boot 1 (fileVolume 2)).runCall 0 (.unlink [slash, 102])).map (fun s => s.disk.bit 36)
      = some false := by decide +kernel
  obtain ⟨s, hs, hbit⟩ := Option.map_eq_some_iff.mp hrun
  have hchecked : (fileVolume 2).Checked [35, 36] := by decide +kernel
  have hnames : (fileVolume 2).Names { i | i < 8 } := Volume.names_of_range (by decide +kernel)
  have hwf := hchecked.wellFormed (by decide) hnames
  exact ⟨s, hs, hbit, (accounts_of_calls hchecked.sound.accounts hwf (.of_runCall .init hs)).1⟩

/-- With `f` naming inode 32 of eight, which is where the file's block would be, `unlink("/f")` frees
the root directory's block. -/
theorem not_accounts_of_unlink : (fileVolume 32).Accounts ∧
    (∀ j < (fileVolume 32).sb.ninodes, ((fileVolume 32).dinode j).type ≠ 0 →
      (fileVolume 32).Solid ((fileVolume 32).dinode j)) ∧
    ∃ s : State 1, Calls (boot 1 (fileVolume 32)) s ∧ ¬ s.disk.Accounts := by
  have hchecked : (fileVolume 32).Checked [35, 36] := by decide +kernel
  have hrun : ((boot 1 (fileVolume 32)).runCall 0 (.unlink [slash, 102])).map
      (fun s => (s.disk.bit 35, s.disk.kept, s.disk.heldBlocks, s.disk.sb.size)) =
      some (false, [(1, .addr 0), (2, .addr 0)], [35, 36], 42) := by decide +kernel
  obtain ⟨s, hs, heq⟩ := Option.map_eq_some_iff.mp hrun
  simp only [Prod.mk.injEq] at heq
  obtain ⟨hbit, hkept, hheld, hsize⟩ := heq
  refine ⟨hchecked.sound.accounts, hchecked.sound.solid, s, .of_runCall .init hs, fun hacc => ?_⟩
  have hholds : holds s.disk.sb.ninodes s.disk.dinode s.disk.blk (1, .addr 0) = 35 := by
    unfold Volume.heldBlocks at hheld
    rw [hkept] at hheld
    exact (List.cons.inj hheld).1
  have huniq : ∃! x, holds s.disk.sb.ninodes s.disk.dinode s.disk.blk x = 35 :=
    ⟨_, hholds, fun y hy => hacc.2 _ _ (by rw [hy]; decide) (hy.trans hholds.symm)⟩
  have hset := (hacc.1 35 (by rw [hsize]; decide)).mpr (.inr huniq)
  rw [hbit] at hset
  cases hset

end Xv6.Disk
