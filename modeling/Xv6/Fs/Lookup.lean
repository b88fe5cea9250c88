import Xv6.Fs.TreeShape

/-!
# Lookups and freed inodes

A removed directory keeps its `..` entry, and the link that the entry stood for is given back when
the directory is removed. In the runs that free no directory which is still such a parent, a lookup
never finds a freed inode.
-/

namespace Xv6.Fs

open Relation

variable {n : Nat}

/-- `i` can be named: by the root, a current directory or an open file, or by an entry, `.` and `..`
included, of a directory that can be named. -/
def State.Visible (s : State n) (i : Inum) : Prop :=
  ∃ j, (j = rootino ∨ (∃ p, s.cwd p = some j) ∨ ∃ f, (s.file f).fields.ip = some j) ∧
    ReflTransGen (fun d e => ∃ k x, s.Entry d k x e) j i

theorem Represents.kind_of_entry {s : State n} {t : Tree} {c : Multiset Inum} {d i : Inum} {k : Nat}
    {x : Name} (hrep : Represents s.ino t) (hinv : t.Inv c) (hup : t.UpLive)
    (hentry : s.Entry d k x i) : t.kind i ≠ .free := by
  have hdir : t.kind d = .dir := (hrep.kind d).symm.trans hentry.1
  rcases hrep.entry_cases hentry with ⟨-, -, rfl⟩ | ⟨-, -, rfl⟩ | ⟨l, -, hmem⟩
  · rw [hdir]
    exact nofun
  · rw [hup d hdir]
    exact nofun
  · exact hinv.edge_kind hmem

theorem Quiet.kind_of_visible {φ : Tree.Flags} {s : State n} {t : Tree} (hquiet : Quiet φ s t)
    (hlive : φ.live) {i : Inum} (hvis : s.Visible i) : t.kind i ≠ .free := by
  obtain ⟨j, hbase, hreach⟩ := hvis
  cases hreach with
  | refl =>
    rcases hbase with rfl | ⟨p, hp⟩ | ⟨f, hf⟩
    · rw [hquiet.ok.inv.root]
      exact nofun
    · exact hquiet.cwd p i hp
    · exact (hquiet.file f i hf).2.1
  | tail _ hentry =>
    obtain ⟨k, x, hentry⟩ := hentry
    exact hquiet.rep.kind_of_entry hquiet.ok.inv (hquiet.ok.up hlive) hentry

/-- In every run of calls in which `iput` frees no directory that another directory's `..` names,
everything that can be named is allocated, and no call reaches `ilock`'s panic. -/
theorem visible_allocated {img : Image} {s : State n}
    (hcalls : Calls (fun p => Exec.guard (State.exec p) FreesNoParent) (img.boot n) s) :
    (∀ i, s.Visible i → (s.ino i).type ≠ .free) ∧ ∀ (p : Fin n) (call : Call) o s',
        call.prog.run (Exec.guard (State.exec p) FreesNoParent) s = .halted o s' →
          o ≠ .panic .ilockNoType := by
  let φ : Tree.Flags := { distinct := False, exact := False, live := True }
  have hG : Guards φ (FreesNoParent (n := n)) := ⟨False.elim, fun _ _ _ hG => hG⟩
  obtain ⟨t, hquiet⟩ := hcalls.quiet hG ⟨_, Image.quiet_boot False.elim⟩
  refine ⟨fun i hvis => ?_, ?_⟩
  · rw [hquiet.rep.kind]
    exact hquiet.kind_of_visible trivial hvis
  · rintro p call o s' hrun rfl
    have hstop := Prog.wp_halted (call.runs hG (hquiet.start p) fun i hi => mem_ownRefs hi) hrun
    exact hstop trivial

/-- `mkdir("a"); mkdir("a/b"); chdir("a/b")`, and then `..` is a directory. -/
theorem visible_allocated_chdir : ∃ s : State 1, runCalls (fun p => Exec.guard (State.exec p) FreesNoParent)
      [(0, .mkdir [97]), (0, .mkdir [97, slash, 98]), (0, .chdir [97, slash, 98])]
      (emptyImage.boot 1) = some s ∧ s.Visible 2 ∧ (s.ino 2).type ≠ .free := by
  obtain ⟨s, hrun, hs⟩ := Option.map_eq_some_iff.mp
    (show (runCalls (n := 1) (fun p => Exec.guard (State.exec p) FreesNoParent)
        [(0, .mkdir [97]), (0, .mkdir [97, slash, 98]), (0, .chdir [97, slash, 98])]
        (emptyImage.boot 1)).map (fun s => (s.cwd 0, (s.ino 3).type, (s.ino 3).dents[1]?))
      = some (some 3, .dir, some ⟨2, dotdot⟩) by decide +kernel)
  obtain ⟨hcwd, hs⟩ := Prod.mk.inj hs
  obtain ⟨htype, hdents⟩ := Prod.mk.inj hs
  have hvis : s.Visible 2 := ⟨3, .inr (.inl ⟨0, hcwd⟩), .single ⟨1, dotdot, htype, hdents, by decide⟩⟩
  exact ⟨s, hrun, hvis, (visible_allocated (.of_runCalls _ .init hrun)).1 2 hvis⟩

/-- `mkdir("a"); mkdir("a/b"); chdir("a/b"); unlink("/a/b"); unlink("/a")`: the `..` of the current
directory is a freed inode, and `open("..", O_RDONLY)` panics. -/
theorem open_dotdot_of_removed : ∃ s : State 1,
    Calls State.exec (emptyImage.boot 1) s ∧ s.Visible 2 ∧ (s.ino 2).type = .free ∧
      ∃ s', (Call.open dotdot 0).prog.run (State.exec 0) s = .halted (.panic .ilockNoType) s' := by
  obtain ⟨s, hrun, hs⟩ := Option.map_eq_some_iff.mp
    (show (runCalls (n := 1) State.exec [(0, .mkdir [97]), (0, .mkdir [97, slash, 98]),
        (0, .chdir [97, slash, 98]), (0, .unlink [slash, 97, slash, 98]), (0, .unlink [slash, 97])]
        (emptyImage.boot 1)).map (fun s => (s.cwd 0, (s.ino 3).type, (s.ino 3).dents[1]?,
          (s.ino 2).type, ((Call.open dotdot 0).prog.run (State.exec 0) s).haltedAt))
      = some (some 3, .dir, some ⟨2, dotdot⟩, .free, some (.panic .ilockNoType))
      by decide +kernel)
  obtain ⟨hcwd, hs⟩ := Prod.mk.inj hs
  obtain ⟨htype, hs⟩ := Prod.mk.inj hs
  obtain ⟨hdents, hs⟩ := Prod.mk.inj hs
  obtain ⟨hfree, hhalt⟩ := Prod.mk.inj hs
  exact ⟨s, .of_runCalls _ .init hrun, ⟨3, .inr (.inl ⟨0, hcwd⟩),
    .single ⟨1, dotdot, htype, hdents, by decide⟩⟩, hfree, Outcome.haltedAt_eq_some.mp hhalt⟩

end Xv6.Fs
