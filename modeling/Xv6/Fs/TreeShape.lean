import Xv6.Fs.Proof.SeqRun
import Mathlib.Data.Set.Finite.Lattice

/-!
# The directories form a tree

After any sequence of completed calls the directories that the root reaches form a finite tree, also
when calls were made from inside directories that had been removed.
-/

namespace Xv6.Fs

open Relation

variable {n : Nat}

namespace State

def Entry (s : State n) (d : Inum) (k : Nat) (x : Name) (i : Inum) : Prop :=
  (s.ino d).type = .dir ∧ (s.ino d).dents[k]? = some ⟨i, x⟩ ∧ i ≠ 0

def Child (s : State n) (d e : Inum) : Prop :=
  (s.ino e).type = .dir ∧ ∃ k x, s.Entry d k x e ∧ ¬ IsDot x

def Reachable (s : State n) (d : Inum) : Prop := ReflTransGen s.Child rootino d

structure IsTree (s : State n) : Prop where
  root : (s.ino rootino).type = .dir
  root_dotdot : s.Entry rootino 1 dotdot rootino
  finite : {d | s.Reachable d}.Finite
  acyclic : ∀ d, s.Reachable d → ¬ TransGen s.Child d d
  dot : ∀ d, s.Reachable d → s.Entry d 0 dot d
  /-- One entry names it, and `..` names the directory that holds the entry. -/
  named_once : ∀ d, s.Reachable d → d ≠ rootino → ∃ h k x, s.Reachable h ∧
    s.Entry h k x d ∧ ¬ IsDot x ∧ s.Entry d 1 dotdot h ∧
    ∀ h' k' x', s.Entry h' k' x' d → ¬ IsDot x' → h' = h ∧ k' = k ∧ x' = x
  distinct : ∀ d k l x i j, s.Reachable d → s.Entry d k x i → s.Entry d l x j → k = l
  live : ∀ d k x i, s.Reachable d → s.Entry d k x i → (s.ino i).type ≠ .free

end State

namespace Represents

variable {s : State n} {t : Tree} {c : Multiset Inum} {d e i : Inum} {k : Nat} {x : Name}

section

variable (hrep : Represents s.ino t)
include hrep

theorem entry_cases (hentry : s.Entry d k x i) : (k = 0 ∧ x = dot ∧ i = d)
    ∨ (k = 1 ∧ x = dotdot ∧ i = t.up d) ∨ ∃ l, k = l + 2 ∧ (d, (l, x), i) ∈ t.edges := by
  obtain ⟨hdir, hget, hi⟩ := hentry
  rw [hrep.kind] at hdir
  obtain ⟨rest, hdents, hedges⟩ := hrep.dents d hdir
  rw [hdents] at hget
  match k with
  | 0 =>
    simp only [List.getElem?_cons_zero, Option.some.injEq, Dirent.mk.injEq] at hget
    exact Or.inl ⟨rfl, hget.2.symm, hget.1.symm⟩
  | 1 =>
    simp only [List.getElem?_cons_succ, List.getElem?_cons_zero, Option.some.injEq, Dirent.mk.injEq] at hget
    exact Or.inr (Or.inl ⟨rfl, hget.2.symm, hget.1.symm⟩)
  | l + 2 =>
    rw [List.getElem?_cons_succ, List.getElem?_cons_succ] at hget
    exact .inr (.inr ⟨l, rfl, (hedges l x i).mpr ⟨hget, hi⟩⟩)

theorem entry_of_edge (hinv : t.Inv c) (hmem : (d, (k, x), i) ∈ t.edges) : s.Entry d (k + 2) x i := by
  have hdir := hinv.edge_dir hmem
  obtain ⟨rest, hdents, hedges⟩ := hrep.dents d hdir
  refine ⟨(hrep.kind d).trans hdir, ?_, hinv.edge_zero hmem⟩
  rw [hdents, List.getElem?_cons_succ, List.getElem?_cons_succ]
  exact ((hedges k x i).mp hmem).1

theorem entry_dot (hinv : t.Inv c) (hdir : t.kind d = .dir) : s.Entry d 0 dot d := by
  obtain ⟨rest, hdents, -⟩ := hrep.dents d hdir
  refine ⟨(hrep.kind d).trans hdir, by rw [hdents]; rfl, ?_⟩
  rintro rfl
  rw [hinv.zero] at hdir
  cases hdir

theorem entry_dotdot (hinv : t.Inv c) (hdir : t.kind d = .dir) : s.Entry d 1 dotdot (t.up d) := by
  obtain ⟨rest, hdents, -⟩ := hrep.dents d hdir
  exact ⟨(hrep.kind d).trans hdir, by rw [hdents]; rfl, hinv.up_zero d hdir⟩

theorem edge_of_entry (hentry : s.Entry d k x i) (hdot : ¬ IsDot x) :
    ∃ l, k = l + 2 ∧ (d, (l, x), i) ∈ t.edges := by
  rcases hrep.entry_cases hentry with ⟨-, rfl, -⟩ | ⟨-, rfl, -⟩ | hedge
  · exact absurd (.inl rfl) hdot
  · exact absurd (.inr rfl) hdot
  · exact hedge

theorem child_iff (hinv : t.Inv c) : s.Child d e ↔ t.kind e = .dir ∧ ∃ y, (d, y, e) ∈ t.edges := by
  constructor
  · rintro ⟨hdir, k, x, hentry, hdot⟩
    obtain ⟨l, -, hmem⟩ := hrep.edge_of_entry hentry hdot
    exact ⟨(hrep.kind e).symm.trans hdir, (l, x), hmem⟩
  · rintro ⟨hdir, ⟨k, x⟩, hmem⟩
    exact ⟨(hrep.kind e).trans hdir, k + 2, x, hrep.entry_of_edge hinv hmem, hinv.edge_name hmem⟩

theorem kind_of_reachable (hinv : t.Inv c) (hreach : s.Reachable d) : t.kind d = .dir := by
  cases hreach with
  | refl => exact hinv.root
  | tail _ hchild => exact ((hrep.child_iff hinv).mp hchild).1

/-- The holder of a reachable directory's entry is reachable: the last step to it used that entry. -/
theorem edge_of_reachable (hinv : t.Inv c) (hreach : s.Reachable d) (hroot : d ≠ rootino) :
    ∃ h y, s.Reachable h ∧ (h, y, d) ∈ t.edges := by
  cases hreach with
  | refl => exact absurd rfl hroot
  | tail hbefore hchild =>
    obtain ⟨-, y, hmem⟩ := (hrep.child_iff hinv).mp hchild
    exact ⟨_, y, hbefore, hmem⟩

theorem entry_unique (hinv : t.Inv c) (hdistinct : t.Distinct) {l : Nat} {j : Inum}
    (hk : s.Entry d k x i) (hl : s.Entry d l x j) : k = l := by
  by_cases hdot : IsDot x
  · have hname : ∀ {k i}, s.Entry d k x i → (k = 0 ∧ x = dot) ∨ (k = 1 ∧ x = dotdot) := by
      intro k i hentry
      rcases hrep.entry_cases hentry with ⟨hk, hx, -⟩ | ⟨hk, hx, -⟩ | ⟨l, -, hmem⟩
      · exact .inl ⟨hk, hx⟩
      · exact .inr ⟨hk, hx⟩
      · exact absurd hdot (hinv.edge_name hmem)
    have hne : dot ≠ dotdot := by decide
    rcases hname hk with ⟨rfl, hx⟩ | ⟨rfl, hx⟩ <;> rcases hname hl with ⟨rfl, hy⟩ | ⟨rfl, hy⟩
    · rfl
    · exact absurd (hx.symm.trans hy) hne
    · exact absurd (hy.symm.trans hx) hne
    · rfl
  · obtain ⟨k', rfl, hmem⟩ := hrep.edge_of_entry hk hdot
    obtain ⟨l', rfl, hmem'⟩ := hrep.edge_of_entry hl hdot
    rw [hdistinct d k' l' x i j hmem hmem']

theorem up_reachable (hinv : t.Inv c) (hreach : s.Reachable d) : t.kind (t.up d) = .dir := by
  by_cases hroot : d = rootino
  · rw [hroot, hinv.up_root]
    exact hinv.root
  · obtain ⟨h, y, hbefore, hmem⟩ := hrep.edge_of_reachable hinv hreach hroot
    rw [hinv.edge_up hmem (hrep.kind_of_reachable hinv hreach)]
    exact hinv.edge_dir hmem

theorem isTree (hinv : t.Inv c) (hdistinct : t.Distinct)
    (hbound : ∀ i, t.kind i ≠ .free → i < s.ninodes) : s.IsTree where
  root := (hrep.kind rootino).trans hinv.root
  root_dotdot := by
    have hentry := hrep.entry_dotdot hinv hinv.root
    rwa [hinv.up_root] at hentry
  finite := by
    refine (Set.finite_lt_nat s.ninodes).subset fun d hreach => hbound d ?_
    rw [hrep.kind_of_reachable hinv hreach]
    exact nofun
  acyclic d hreach := by
    refine not_transGen_self (fun a b e ha hb => ?_) (fun a ha => ?_) hreach
    · obtain ⟨hdir, y, hmem⟩ := (hrep.child_iff hinv).mp ha
      obtain ⟨-, z, hmem'⟩ := (hrep.child_iff hinv).mp hb
      rw [← hinv.edge_up hmem hdir, hinv.edge_up hmem' hdir]
    · obtain ⟨-, y, hmem⟩ := (hrep.child_iff hinv).mp ha
      exact hinv.edge_root hmem rfl
  dot d hreach := hrep.entry_dot hinv (hrep.kind_of_reachable hinv hreach)
  named_once d hreach hroot := by
    have hdir := hrep.kind_of_reachable hinv hreach
    obtain ⟨h, ⟨k, x⟩, hbefore, hmem⟩ := hrep.edge_of_reachable hinv hreach hroot
    have hup := hinv.edge_up hmem hdir
    refine ⟨h, k + 2, x, hbefore, hrep.entry_of_edge hinv hmem, hinv.edge_name hmem,
      hup ▸ hrep.entry_dotdot hinv hdir, fun h' k' x' hentry hdot => ?_⟩
    obtain ⟨l, rfl, hmem'⟩ := hrep.edge_of_entry hentry hdot
    obtain rfl : h' = h := (hinv.edge_up hmem' hdir).symm.trans hup
    cases hinv.once hmem hmem' hdir
    exact ⟨rfl, rfl, rfl⟩
  distinct d k l x i j _ hk hl := hrep.entry_unique hinv hdistinct hk hl
  live d k x i hreach hentry := by
    rw [hrep.kind]
    rcases hrep.entry_cases hentry with ⟨-, -, rfl⟩ | ⟨-, -, rfl⟩ | ⟨l, -, hmem⟩
    · rw [hrep.kind_of_reachable hinv hreach]
      exact nofun
    · rw [hrep.up_reachable hinv hreach]
      exact nofun
    · exact hinv.edge_kind hmem

end

end Represents

/-- **The directories form a tree** after every sequence of completed calls, by any processes. -/
theorem isTree_of_calls {img : Image} (hdistinct : img.Distinct) {s : State n}
    (hcalls : Calls State.exec (img.boot n) s) : s.IsTree := by
  let φ : Tree.Flags := { distinct := True, exact := False, live := False }
  have hguard : (fun p => Exec.guard (State.exec (n := n) p) fun _ _ => True) = State.exec := by
    funext p
    exact Exec.guard_true
  rw [← hguard] at hcalls
  obtain ⟨t, hquiet⟩ := hcalls.quiet (φ := φ) ⟨False.elim, False.elim⟩
    ⟨_, Image.quiet_boot fun _ => hdistinct⟩
  exact hquiet.rep.isTree hquiet.ok.inv (hquiet.ok.distinct trivial) hquiet.bound

/-- `mkdir("a"); chdir("a"); unlink("/a"); mkdir("b")`: a directory made inside a removed one is
outside the tree. -/
theorem isTree_of_mkdir_in_removed : ∃ s : State 1,
    runCalls State.exec [(0, .mkdir [97]), (0, .chdir [97]), (0, .unlink [slash, 97]),
      (0, .mkdir [98])] (emptyImage.boot 1) = some s ∧ s.cwd 0 = some 2 ∧ s.IsTree := by
  obtain ⟨s, hrun, hcwd⟩ := Option.map_eq_some_iff.mp
    (show (runCalls (n := 1) State.exec [(0, .mkdir [97]), (0, .chdir [97]),
        (0, .unlink [slash, 97]), (0, .mkdir [98])] (emptyImage.boot 1)).map (fun s => s.cwd 0)
      = some (some 2) by decide +kernel)
  have hdistinct : emptyImage.Distinct := List.nodup_nil
  exact ⟨s, hrun, hcwd, isTree_of_calls hdistinct (.of_runCalls _ .init hrun)⟩

end Xv6.Fs
