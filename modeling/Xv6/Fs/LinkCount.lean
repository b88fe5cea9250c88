import Xv6.Lib.Count
import Xv6.Fs.Proof.SeqRun

/-!
# Link counts

In the runs that add no entry to a directory without links, `nlink` is the number of entries that
name the inode, `..` included and `.` not, in directories that have links themselves.
-/

namespace Xv6.Fs

open Xv6.Fs.Tree

variable {n : Nat}

/-- Live entries other than `.` that name `i` in directories with `nlink > 0`. -/
def State.linkCount (s : State n) (i : Inum) : Nat :=
  ∑ d ∈ Finset.range s.ninodes,
    if (s.ino d).type = .dir ∧ 0 < (s.ino d).nlink then
      (s.ino d).dents.countP fun de => de.inum ≠ 0 ∧ de.inum = i ∧ de.name ≠ dot
    else 0

def Tree.linkedDirs (t : Tree) (m : Nat) : Finset Inum :=
  (Finset.range m).filter fun d => t.kind d = .dir ∧ 0 < t.nlink d

section Count

variable {s : State n} {t : Tree} {d i : Inum}

theorem Represents.countP_dents (hrep : Represents s.ino t) (hinv : t.Inv 0) (hdir : t.kind d = .dir)
    (hi : i ≠ 0) : (s.ino d).dents.countP (fun de => de.inum ≠ 0 ∧ de.inum = i ∧ de.name ≠ dot)
      = (if t.up d = i then 1 else 0) + (t.edges.filter fun e => e.1 = d ∧ e.2.2 = i).card := by
  obtain ⟨rest, hdents, hedges⟩ := hrep.dents d hdir
  have hslots : (t.edges.filter fun e => e.1 = d ∧ e.2.2 = i).card
      = rest.countP fun de => de.inum ≠ 0 ∧ de.inum = i ∧ de.name ≠ dot := by
    rw [countP_eq_card]
    refine Finset.card_bij (fun e _ => e.2.1.1) ?_ ?_ ?_
    · rintro ⟨d', ⟨k, x⟩, i'⟩ hin
      obtain ⟨hmem, rfl, rfl⟩ := Finset.mem_filter.mp hin
      have hget := ((hedges k x i').mp hmem).1
      refine Finset.mem_filter.mpr ⟨Finset.mem_range.mpr (List.getElem?_eq_some_iff.mp hget).1,
        (Option.any_eq_true _ _).mpr ⟨⟨i', x⟩, hget, ?_⟩⟩
      have hdot : x ≠ dot := fun hx => hinv.edge_name hmem (.inl hx)
      simp [hi, hdot]
    · rintro ⟨d₁, ⟨k₁, x₁⟩, i₁⟩ hin₁ ⟨d₂, ⟨k₂, x₂⟩, i₂⟩ hin₂ hk
      obtain ⟨hmem₁, rfl, rfl⟩ := Finset.mem_filter.mp hin₁
      obtain ⟨hmem₂, rfl, rfl⟩ := Finset.mem_filter.mp hin₂
      obtain rfl : k₁ = k₂ := hk
      have hget := ((hedges k₁ x₁ _).mp hmem₁).1.symm.trans ((hedges k₁ x₂ _).mp hmem₂).1
      simp only [Option.some.injEq, Dirent.mk.injEq] at hget
      rw [hget.2]
    · intro k hmem
      obtain ⟨⟨i', x⟩, hget, hp⟩ := (Option.any_eq_true _ _).mp (Finset.mem_filter.mp hmem).2
      obtain ⟨-, rfl, -⟩ := of_decide_eq_true hp
      exact ⟨(d, (k, x), i'), Finset.mem_filter.mpr ⟨(hedges k x i').mpr ⟨hget, hi⟩, rfl, rfl⟩, rfl⟩
  rw [hdents, hslots, List.countP_cons, List.countP_cons]
  have hup := hinv.up_zero d hdir
  have hne : dotdot ≠ dot := by decide
  by_cases hd : t.up d = i
  · subst hd
    simp [hup, hne]
    omega
  · simp [hd]

theorem Tree.Exact.nlink_pos_iff (hexact : t.Exact 0) (hkind : t.kind d ≠ .free) :
    0 < t.nlink d ↔ t.Linked d := by
  have hcount := hexact.count d hkind
  rw [Multiset.count_zero] at hcount
  constructor
  · intro hpos
    by_cases hsub : t.subdirs d = 0
    · unfold Tree.links at hcount
      unfold Tree.Linked
      by_cases hroot : d = rootino
      · exact .inl hroot
      · rw [hsub, if_neg hroot] at hcount
        exact .inr (by omega)
    · have hne := mt Edges.outdegree_eq_zero_iff.mpr hsub
      push Not at hne
      obtain ⟨x, j, hmem, -⟩ := hne
      exact hexact.dead hmem
  · intro hlinked
    have hpos : 0 < t.links d := by
      unfold Tree.links
      rcases hlinked with rfl | hnames
      · rw [if_pos rfl]
        omega
      · omega
    omega

theorem Tree.Exact.sum_names (hinv : t.Inv 0) (hexact : t.Exact 0) {m : Nat}
    (hbound : ∀ i, t.kind i ≠ .free → i < m) (i : Inum) :
    ∑ d ∈ t.linkedDirs m, (t.edges.filter fun e => e.1 = d ∧ e.2.2 = i).card = t.names i := by
  have hmaps : ∀ e ∈ t.edges.filter (fun e => e.2.2 = i), e.1 ∈ t.linkedDirs m := by
    rintro ⟨d, x, j⟩ hmem
    have hedge := (Finset.mem_filter.mp hmem).1
    have hdir := hinv.edge_dir hedge
    have hkind : t.kind d ≠ .free := by
      rw [hdir]
      exact nofun
    exact Finset.mem_filter.mpr ⟨Finset.mem_range.mpr (hbound d hkind), hdir,
      (hexact.nlink_pos_iff hkind).mpr (hexact.dead hedge)⟩
  unfold Tree.names Edges.indegree
  rw [Finset.card_eq_sum_card_fiberwise hmaps]
  refine Finset.sum_congr rfl fun d _ => ?_
  rw [Finset.filter_filter]
  simp only [and_comm]

theorem Tree.Exact.card_up (hinv : t.Inv 0) (hexact : t.Exact 0) {m : Nat}
    (hbound : ∀ i, t.kind i ≠ .free → i < m) (i : Inum) : ((t.linkedDirs m).filter fun d => t.up d = i).card
      = t.subdirs i + if i = rootino then 1 else 0 := by
  have hchildren : ((t.linkedDirs m).filter fun d => t.up d = i).erase rootino
      = (t.edges.filter fun e => e.1 = i ∧ t.kind e.2.2 = .dir).image fun e => e.2.2 := by
    ext d
    simp only [Finset.mem_erase, Finset.mem_filter, Finset.mem_image, Tree.linkedDirs, Finset.mem_range]
    constructor
    · rintro ⟨hroot, ⟨-, hdir, hpos⟩, rfl⟩
      have hkind : t.kind d ≠ .free := by
        rw [hdir]
        exact nofun
      have hnames := ((hexact.nlink_pos_iff hkind).mp hpos).resolve_left hroot
      obtain ⟨h, x, hmem⟩ := Edges.indegree_pos_iff.mp hnames
      exact ⟨(h, x, d), ⟨hmem, (hinv.edge_up hmem hdir).symm, hdir⟩, rfl⟩
    · rintro ⟨⟨h, x, e⟩, ⟨hmem, rfl, hdir⟩, rfl⟩
      have hkind := hinv.edge_kind hmem
      exact ⟨hinv.edge_root hmem, ⟨hbound _ hkind, hdir, (hexact.nlink_pos_iff hkind).mpr
        (Or.inr (Edges.indegree_pos_iff.mpr ⟨_, _, hmem⟩))⟩, hinv.edge_up hmem hdir⟩
  have hcard : (((t.linkedDirs m).filter fun d => t.up d = i).erase rootino).card = t.subdirs i := by
    rw [hchildren, Finset.card_image_of_injOn]
    · rfl
    · rintro ⟨h, x, e⟩ hx ⟨h', y, e'⟩ hy heq
      obtain rfl : e = e' := heq
      simp only [Finset.coe_filter, Set.mem_ofPred_eq] at hx hy
      obtain ⟨hmem, rfl, hdir⟩ := hx
      obtain ⟨hmem', rfl, -⟩ := hy
      rw [hinv.once hmem hmem' hdir]
  have hrootmem : rootino ∈ (t.linkedDirs m).filter (fun d => t.up d = i) ↔ i = rootino := by
    have hkind : t.kind rootino ≠ .free := by
      rw [hinv.root]
      exact nofun
    simp only [Finset.mem_filter, Tree.linkedDirs, Finset.mem_range, hinv.up_root]
    constructor
    · exact fun h => h.2.symm
    · exact fun h => ⟨⟨hbound _ hkind, hinv.root, (hexact.nlink_pos_iff hkind).mpr (Or.inl rfl)⟩, h.symm⟩
  by_cases hroot : i = rootino
  · rw [if_pos hroot, ← hcard, Finset.card_erase_add_one (hrootmem.mpr hroot)]
  · rw [if_neg hroot, ← hcard, Finset.erase_eq_of_notMem (mt hrootmem.mp hroot)]
    rfl

theorem Represents.linkCount_eq (hrep : Represents s.ino t) (hinv : t.Inv 0) (hexact : t.Exact 0)
    (hbound : ∀ i, t.kind i ≠ .free → i < s.ninodes) (hi : i ≠ 0) : s.linkCount i = t.links i := by
  have hsum : s.linkCount i = ∑ d ∈ t.linkedDirs s.ninodes,
      ((if t.up d = i then 1 else 0) + (t.edges.filter fun e => e.1 = d ∧ e.2.2 = i).card) := by
    unfold State.linkCount Tree.linkedDirs
    rw [Finset.sum_filter]
    refine Finset.sum_congr rfl fun d _ => ?_
    rw [hrep.kind, hrep.nlink]
    by_cases hd : t.kind d = .dir ∧ 0 < t.nlink d
    · rw [if_pos hd, if_pos hd, hrep.countP_dents hinv hd.1 hi]
    · rw [if_neg hd, if_neg hd]
  rw [hsum, Finset.sum_add_distrib, ← Finset.card_filter, hexact.sum_names hinv hbound,
    hexact.card_up hinv hbound]
  unfold Tree.links
  omega

end Count

/-- In every run of completed calls that adds no entry to a directory without links, link counts are
exact. -/
theorem nlink_eq_linkCount {img : Image} {s : State n}
    (hcalls : Calls (fun p => Exec.guard (State.exec p) FillsLinked) (img.boot n) s) (i : Inum)
    (htype : (s.ino i).type ≠ .free) : (s.ino i).nlink = s.linkCount i := by
  let φ : Flags := { distinct := False, exact := True, live := False }
  obtain ⟨t, hquiet⟩ := hcalls.quiet (φ := φ) ⟨fun _ _ _ hG => hG, False.elim⟩
    ⟨_, Image.quiet_boot False.elim⟩
  have hinv := hquiet.ok.inv
  have hexact := hquiet.ok.exact trivial
  rw [hquiet.rep.kind] at htype
  have hi : i ≠ 0 := by
    rintro rfl
    exact htype hinv.zero
  have hcount := hexact.count i htype
  rw [Multiset.count_zero] at hcount
  rw [hquiet.rep.nlink, hcount, hquiet.rep.linkCount_eq hinv hexact hquiet.bound hi]
  omega

/-- `mkdir("a"); link("f", "a/g")`: the root has three links, the file two. -/
theorem nlink_eq_linkCount_mkdir_link : ∃ s : State 1,
    runCalls (fun p => Exec.guard (State.exec p) FillsLinked)
      [(0, .mkdir [97]), (0, .link [102] [97, slash, 103])] (oneFile.boot 1) = some s ∧
    (s.ino 2).nlink = 2 ∧ (s.ino 2).nlink = s.linkCount 2 := by
  obtain ⟨s, hrun, hs⟩ := Option.map_eq_some_iff.mp
    (show (runCalls (n := 1) (fun p => Exec.guard (State.exec p) FillsLinked)
        [(0, .mkdir [97]), (0, .link [102] [97, slash, 103])] (oneFile.boot 1)).map
        (fun s => ((s.ino 2).type, (s.ino 2).nlink)) = some (.file, 2) by decide +kernel)
  obtain ⟨htype, hnlink⟩ := Prod.mk.inj hs
  refine ⟨s, hrun, hnlink, nlink_eq_linkCount (.of_runCalls _ .init hrun) 2 ?_⟩
  rw [htype]
  exact nofun

/-- `mkdir("a"); chdir("a"); unlink("/a"); open("x", O_CREATE)`: the new file has a link, and its
only name is in a directory that has none. -/
theorem create_in_removed : ∃ s : State 1, Calls State.exec (oneFile.boot 1) s ∧ (s.ino 4).type ≠ .free ∧
      (s.ino 4).nlink = 1 ∧ s.linkCount 4 = 0 := by
  obtain ⟨s, hrun, hs⟩ := Option.map_eq_some_iff.mp
    (show (runCalls (n := 1) State.exec [(0, .mkdir [97]), (0, .chdir [97]),
        (0, .unlink [slash, 97]), (0, .open [120] oCreate)] (oneFile.boot 1)).map
        (fun s => ((s.ino 4).type, (s.ino 4).nlink, s.linkCount 4)) = some (.file, 1, 0)
      by decide +kernel)
  obtain ⟨htype, hrest⟩ := Prod.mk.inj hs
  refine ⟨s, .of_runCalls _ .init hrun, ?_, Prod.mk.inj hrest⟩
  rw [htype]
  exact nofun

end Xv6.Fs
