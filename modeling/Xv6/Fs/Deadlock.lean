import Xv6.Fs.Proof.LockInv

/-!
# Deadlock on inode locks

Any number of processes run the calls that take a path, in any interleaving. They can deadlock:
`iput` takes the inode's lock, and `dirlink`, `create` and `sys_unlink` call it with other inodes
locked, against the order of the tree. In the runs where that never makes a process wait, no process
waits for itself and no cycle of processes waits for each other.
-/

namespace Xv6.Fs

open Hold

variable {n : Nat}

abbrev FsPool (n : Nat) := Pool (Fin n) Op Op.Res Int (State n)

/-- Every process is between two calls, on the file system that `mkfs` left. -/
def bootPool (n : Nat) (img : Image) : FsPool n := ⟨fun _ => .pure 0, img.boot n⟩

def startsPath : Fin n → State n → FsM Int → Prop := fun _ _ x =>
  ∃ call : Call, call.UsesPath ∧ x = call.prog

namespace FsPool

/-- Process `p` sleeps in `acquiresleep` until the lock of `ip` is free. -/
def Waits (c : FsPool n) (p : Fin n) (ip : Inum) : Prop :=
  (c.thread p).nextOp = some (.waitLock ip)

def WaitsFor (c : FsPool n) (p q : Fin n) : Prop :=
  ∃ ip, c.Waits p ip ∧ c.shared.lock ip = some q

end FsPool

/-! ### The invariant along every run -/

def bootHold : Hold where
  refs := {rootino}
  held := []
  live := ∅
  dirs := ∅
  nondir := ∅
  below := ∅
  last := ∅
  cwd := some rootino
  files := ∅

theorem lockInv_boot (n : Nat) (img : Image) : LockInv (img.boot n) (fun _ => bootHold) (fun _ => 0) 1 where
  holds :=
    { sound := fun p => ⟨fun i => by simp [Image.boot, bootHold], nofun, List.nodup_nil, rfl, nofun,
        nofun, nofun⟩
      refs_le := fun i => by by_cases hi : i = rootino <;> simp [bootHold, Image.boot, hi]
      files := fun _ _ _ _ => nofun
      unused := fun _ _ => rfl }
  correct _ := ⟨nofun, nofun, nofun⟩
  born _ := Nat.one_pos
  entry d i hnames hdir := by
    -- the root is the only directory, and no entry but its dots names it
    exfalso
    have honly : ∀ j, ((img.boot n).ino j).type = .dir → j = rootino := by
      intro j hj
      by_contra hne
      simp only [Image.boot, Image.ino, hne, if_false] at hj
      split_ifs at hj
      · cases hj
      · cases hfile : img.files[j - (rootino + 1)]? <;> simp [hfile, Inode.fresh] at hj
    obtain ⟨hd, de, hde, rfl, -, hdot⟩ := hnames
    rw [honly d hd] at hde
    have hroot := honly _ hdir
    simp only [Image.boot, Image.ino, if_true, Image.rootDents, List.mem_append, List.mem_cons,
      List.mem_mapIdx, List.mem_replicate] at hde
    rcases hde with (rfl | rfl | ⟨k, hk, rfl⟩) | ⟨-, rfl⟩
    · exact hdot (Or.inl rfl)
    · exact hdot (.inr rfl)
    · have hlt : rootino < rootino + 1 + k := by omega
      exact hlt.ne' hroot
    · cases hroot
  last _ _ _ _ := nofun

theorem pool_inv_boot (n : Nat) (img : Image) :
    (bootPool n img).Inv orderedSem LockJ (fun _ => lockProtocol.pre) fun _ => Idle :=
  ⟨fun _ => bootHold, ⟨_, _, lockInv_boot n img⟩, fun _ =>
    ⟨rfl, rfl, fun c hc => by simp_all [bootHold]⟩⟩

theorem startsPath_safe {p : Fin n} {s : State n} {x : FsM Int} {l : Hold} (hstart : startsPath p s x)
    (hidle : l.Idle) : x.Safe orderedSem LockJ (fun _ => lockProtocol.pre) p l fun _ l' => l'.Idle := by
  obtain ⟨call, hcall, rfl⟩ := hstart
  exact (Call.prog_obeys hcall hidle).safe fun p o s T r s' hJ hpre hsem => lockJ_step hJ hpre hsem

theorem reaches_lockInv {img : Image} {c : FsPool n}
    (hrun : Pool.Reaches orderedSem startsPath (bootPool n img) c) :
    ∃ T birth clk, LockInv c.shared T birth clk ∧ ∀ p ip, c.Waits p ip → (T p).MayWait ip := by
  obtain ⟨T, ⟨birth, clk, hinv⟩, hsafe⟩ := (pool_inv_boot n img).reaches
    (fun p s x l hstart hidle => startsPath_safe hstart hidle) hrun
  refine ⟨T, birth, clk, hinv, fun p ip hwaits => ?_⟩
  have hp := hsafe p
  unfold FsPool.Waits at hwaits
  cases hthread : c.thread p with
  | pure a =>
    rw [hthread] at hwaits
    cases hwaits
  | op o next =>
    rw [hthread] at hwaits hp
    cases hwaits
    exact hp.1

/-! ### No deadlock when `iput` waits in order -/

section Waiting

variable {c : FsPool n} {T : Fin n → Hold} {birth : Inum → Nat} {clk : Nat}

section

variable (hinv : LockInv c.shared T birth clk) (hwait : ∀ p ip, c.Waits p ip → (T p).MayWait ip)
include hinv hwait

theorem type_of_waits {p : Fin n} {ip i : Inum} (hwaits : c.Waits p ip)
    (hlock : c.shared.lock i = some p) : (c.shared.ino i).type = .dir := by
  have hheld := (hinv.lock_iff p i).mp hlock
  exact ((hinv.correct p).dirs i (hwait p ip hwaits i hheld).1).2

/-- The lock a process waits for, if it is a directory's, is younger than those it holds. -/
theorem birth_lt_of_waits {p : Fin n} {ip i : Inum} (hwaits : c.Waits p ip)
    (hlock : c.shared.lock i = some p) (hdir : (c.shared.ino ip).type = .dir) : birth i < birth ip := by
  have hheld := (hinv.lock_iff p i).mp hlock
  exact ((hinv.correct p).below _ (hwait p ip hwaits i hheld).2).2 hdir

/-- Along a chain of waiting processes the locks waited for get younger. -/
theorem birth_lt_of_chain {p q : Fin n} {ip iq : Inum}
    (hchain : Relation.TransGen c.WaitsFor p q) (hp : c.Waits p ip) (hq : c.Waits q iq)
    (hdir : (c.shared.ino iq).type = .dir) : birth ip < birth iq := by
  induction hchain generalizing iq with
  | single hstep =>
    obtain ⟨i, hwaits, hlock⟩ := hstep
    obtain rfl : i = ip := by
      unfold FsPool.Waits at hp hwaits
      rw [hp] at hwaits
      cases hwaits
      rfl
    exact birth_lt_of_waits hinv hwait hq hlock hdir
  | tail _ hstep ih =>
    obtain ⟨i, hwaits, hlock⟩ := hstep
    exact lt_trans (ih hwaits (type_of_waits hinv hwait hq hlock))
      (birth_lt_of_waits hinv hwait hq hlock hdir)

end

end Waiting

/-- In every run of the path calls in which `iput` never waits against the order of the tree, no
process waits for an inode lock that it holds and no processes wait for each other in a cycle. -/
theorem no_deadlock {img : Image} {c : FsPool n}
    (hrun : Pool.Reaches orderedSem startsPath (bootPool n img) c) :
    (∀ p ip, c.Waits p ip → c.shared.lock ip ≠ some p) ∧ ∀ p, ¬ Relation.TransGen c.WaitsFor p p := by
  obtain ⟨T, birth, clk, hinv, hwait⟩ := reaches_lockInv hrun
  have hcycle : ∀ p, ¬ Relation.TransGen c.WaitsFor p p := by
    intro p hchain
    obtain ⟨q, ⟨ip, hwaits, hlock⟩, hrest⟩ := Relation.TransGen.head'_iff.mp hchain
    -- the holder is on the cycle, so it waits as well: the lock is a directory's
    have hdir : (c.shared.ino ip).type = .dir := by
      rcases hrest.cases_head with rfl | ⟨r, ⟨iq, hq, -⟩, -⟩
      · exact type_of_waits hinv hwait hwaits hlock
      · exact type_of_waits hinv hwait hq hlock
    exact lt_irrefl _ (birth_lt_of_chain hinv hwait hchain hwaits hwaits hdir)
  refine ⟨fun p ip hwaits hlock => ?_, hcycle⟩
  exact hcycle p (.single ⟨ip, hwaits, hlock⟩)

/-- The operations of `p` except the first test in `iput`'s `acquiresleep`. -/
def execNoIput (p : Fin n) : Exec Op Op.Res (State n)
  | .tryLock .iput _, _ => none
  | o, s => State.exec p o s

theorem orderedSem_of_execNoIput (p : Fin n) (o : Op) (s : State n) (r : o.Res) (s' : State n)
    (hexec : execNoIput p o s = some (r, s')) : orderedSem p o s r s' := by
  unfold execNoIput at hexec
  split at hexec
  · cases hexec
  · rename_i hne
    refine ⟨hexec, ?_⟩
    rintro ⟨ip, d, rfl, -⟩
    exact hne ip rfl

/-- Process `0` has started `unlink("/f")` and process `1` `chdir("/")`. -/
def unlinkChdir : FsPool 2 :=
  ⟨Function.update (Function.update (bootPool 2 oneFile).thread 0
    (Call.unlink [slash, 102]).prog) 1 (Call.chdir [slash]).prog, oneFile.boot 2⟩

/-- The first process to lock the root makes the other wait, and that is no deadlock. -/
theorem no_deadlock_unlinkChdir :
    ∃ c : FsPool 2, Pool.Reaches orderedSem startsPath (bootPool 2 oneFile) c ∧
      c.WaitsFor 1 0 ∧ ∀ p, ¬ Relation.TransGen c.WaitsFor p p := by
  obtain ⟨c, hsched, hc⟩ := Option.map_eq_some_iff.mp
    (show (Pool.sched execNoIput [0, 0, 0, 0, 1, 1, 1, 1] unlinkChdir).map
      (fun c => ((c.thread 1).nextOp, c.shared.lock rootino))
        = some (some (.waitLock rootino), some 0) by decide +kernel)
  have hrun : Pool.Reaches orderedSem startsPath (bootPool 2 oneFile) c :=
    .head (.start 0 0 _ rfl ⟨.unlink [slash, 102], trivial, rfl⟩)
      (.head (.start 1 0 _ rfl ⟨.chdir [slash], trivial, rfl⟩)
        (Pool.reaches_of_sched orderedSem_of_execNoIput _ hsched))
  rw [Prod.mk.injEq] at hc
  exact ⟨c, hrun, ⟨rootino, hc⟩, (no_deadlock hrun).2⟩

/-! ### The deadlock -/

/-- `link("f", ".")`: `dirlink` finds the name `.` in the directory it has locked, and `iput` waits
for that lock. One process is enough. -/
theorem link_dot_deadlock : ∃ c : FsPool 1, Pool.Reaches fsSem startsPath (bootPool 1 oneFile) c ∧
      c.Waits 0 rootino ∧ c.shared.lock rootino = some 0 := by
  obtain ⟨c, hsched, hc⟩ := Option.map_eq_some_iff.mp (show (Pool.sched State.exec (List.replicate 43 0)
        (⟨Function.update (bootPool 1 oneFile).thread 0 (Call.link [102] dot).prog,
          oneFile.boot 1⟩ : FsPool 1)).map
      (fun c => ((c.thread 0).nextOp, c.shared.lock rootino))
        = some (some (.waitLock rootino), some 0) by decide +kernel)
  rw [Prod.mk.injEq] at hc
  exact ⟨c, .head (.start 0 0 _ rfl ⟨.link [102] dot, trivial, rfl⟩)
    (Pool.reaches_of_sched (fun _ _ _ _ _ hexec => hexec) _ hsched), hc⟩

end Xv6.Fs
