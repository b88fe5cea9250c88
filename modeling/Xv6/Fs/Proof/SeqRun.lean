import Xv6.Fs.Proof.SeqSyscall

/-!
# Runs of completed calls

The invariant between two calls, that `mkfs` establishes it, and that every completed call keeps it.
-/

namespace Xv6.Fs

open Xv6.Fs.Tree

variable {n : Nat}

inductive Calls (exec : Fin n → Exec Op Op.Res (State n)) (s₀ : State n) : State n → Prop
  | init : Calls exec s₀ s₀
  | call {s s' : State n} (p : Fin n) (call : Call) (r : Int) (hbefore : Calls exec s₀ s)
      (hrun : call.prog.run (exec p) s = .done r s') : Calls exec s₀ s'

def runCalls (exec : Fin n → Exec Op Op.Res (State n)) : List (Fin n × Call) → State n → Option (State n)
  | [], s => some s
  | (p, call) :: rest, s =>
    match call.prog.run (exec p) s with
    | .done _ s' => runCalls exec rest s'
    | .halted _ _ => none

variable {s : State n}

theorem Calls.of_runCalls {exec : Fin n → Exec Op Op.Res (State n)} {s₀ : State n}
    (calls : List (Fin n × Call)) {s' : State n} (hbefore : Calls exec s₀ s)
    (hrun : runCalls exec calls s = some s') : Calls exec s₀ s' := by
  induction calls generalizing s with
  | nil =>
    cases hrun
    exact hbefore
  | cons head rest ih =>
    obtain ⟨p, call⟩ := head
    unfold runCalls at hrun
    split at hrun
    · rename_i r s₁ hdone
      exact ih (.call p call r hbefore hdone) hrun
    · cases hrun

def State.allCwds (s : State n) (i : Inum) : Nat :=
  (Finset.univ.filter fun q => s.cwd q = some i).card

structure Quiet (φ : Flags) (s : State n) (t : Tree) : Prop where
  rep : Represents s.ino t
  ok : t.Ok φ 0
  bound : ∀ i, t.kind i ≠ .free → i < s.ninodes
  refs_le : ∀ i, s.allCwds i + s.opens i ≤ s.ref i
  cwd : ∀ q i, s.cwd q = some i → t.kind i ≠ .free
  file : ∀ f i, (s.file f).fields.ip = some i →
    f < nfile ∧ t.kind i ≠ .free ∧ ((s.file f).fields.writable = true → t.kind i ≠ .dir)
  unused : ∀ f, (s.file f).ref = 0 → (s.file f).fields.ip = none

theorem State.allCwds_eq (s : State n) (p : Fin n) (i : Inum) :
    s.allCwds i = s.cwds p i + if s.cwd p = some i then 1 else 0 := by
  have herase : (Finset.univ.filter fun q => q ≠ p ∧ s.cwd q = some i)
      = (Finset.univ.filter fun q => s.cwd q = some i).erase p := by
    ext q
    simp
  unfold State.allCwds State.cwds
  rw [herase]
  by_cases hp : s.cwd p = some i
  · rw [if_pos hp, Finset.card_erase_add_one]
    simpa using hp
  · rw [if_neg hp, Finset.erase_eq_of_notMem, Nat.add_zero]
    simpa using hp

def ownRefs (w : Option Inum) : Multiset Inum := w.elim 0 ({·})

theorem mem_ownRefs {w : Option Inum} {i : Inum} (hw : w = some i) : i ∈ ownRefs w := by
  subst hw
  exact Multiset.mem_singleton_self i

theorem count_ownRefs (w : Option Inum) (i : Inum) : (ownRefs w).count i = if w = some i then 1 else 0 := by
  cases w with
  | none => simp [ownRefs]
  | some j =>
    simp only [ownRefs, Option.elim_some, Multiset.count_singleton, Option.some.injEq]
    simp only [eq_comm]

theorem Quiet.start {φ : Flags} {t : Tree} (hquiet : Quiet φ s t) (p : Fin n) :
    SeqInv φ p s t 0 (ownRefs (s.cwd p)) (s.cwd p) where
  rep := hquiet.rep
  ok := hquiet.ok
  bound := hquiet.bound
  refs_le i := by
    have hle := hquiet.refs_le i
    rw [s.allCwds_eq p i] at hle
    rw [count_ownRefs]
    omega
  own := rfl
  own_kind i hi _ := hquiet.cwd p i hi
  cwd q i _ hi := hquiet.cwd q i hi
  file := hquiet.file
  unused := hquiet.unused
  live _ i hi := by
    cases hw : s.cwd p with
    | none => simp [hw, ownRefs] at hi
    | some j =>
      obtain rfl : i = j := by simpa [hw, ownRefs] using hi
      exact hquiet.cwd p i hw

theorem Finished.quiet {φ : Flags} {p : Fin n} (hfin : Finished φ p s) : ∃ t, Quiet φ s t := by
  obtain ⟨t, refs, w, hinv, hown⟩ := hfin
  refine ⟨t, hinv.rep, hinv.ok, hinv.bound, fun i => ?_, fun q i hi => ?_, hinv.file, hinv.unused⟩
  · have hle := hinv.refs_le i
    rw [s.allCwds_eq p i, hinv.own]
    by_cases hw : w = some i
    · have hpos := Multiset.count_pos.mpr (hown i hw)
      rw [if_pos hw]
      omega
    · rw [if_neg hw]
      omega
  · by_cases hq : q = p
    · subst hq
      rw [hinv.own] at hi
      exact hinv.own_kind i hi (hown i hi)
    · exact hinv.cwd q i hq hi

theorem Calls.quiet {φ : Flags} {G : Op → State n → Prop} [∀ o s, Decidable (G o s)]
    (hG : Guards φ G) {s₀ : State n} (hinit : ∃ t, Quiet φ s₀ t)
    (hcalls : Calls (fun p => Exec.guard (State.exec p) G) s₀ s) : ∃ t, Quiet φ s t := by
  induction hcalls with
  | init => exact hinit
  | call p call r _ hrun ih =>
    obtain ⟨t, hquiet⟩ := ih
    exact (Prog.wp_done (call.runs hG (hquiet.start p) fun i hi => mem_ownRefs hi) hrun).quiet

/-! ### The image that `mkfs` writes -/

namespace Image

variable (img : Image)

def edges : Edges Inum Slot :=
  (img.files.mapIdx fun k file => (rootino, (k, file.name), rootino + 1 + k)).toFinset

def tree : Tree where
  kind i := (img.ino i).type
  nlink i := (img.ino i).nlink
  up _ := rootino
  edges := img.edges

variable {img}

theorem mem_edges {d : Inum} {k : Nat} {x : Name} {i : Inum} : (d, (k, x), i) ∈ img.edges ↔
      d = rootino ∧ i = rootino + 1 + k ∧ ∃ file, img.files[k]? = some file ∧ file.name = x := by
  simp only [edges, List.mem_toFinset, List.mem_mapIdx, Prod.mk.injEq]
  constructor
  · rintro ⟨l, hl, rfl, ⟨rfl, rfl⟩, rfl⟩
    exact ⟨rfl, rfl, _, List.getElem?_eq_getElem hl, rfl⟩
  · rintro ⟨rfl, rfl, file, hfile, rfl⟩
    obtain ⟨hl, rfl⟩ := List.getElem?_eq_some_iff.mp hfile
    exact ⟨k, hl, rfl, ⟨rfl, rfl⟩, rfl⟩

theorem file_ne_root (k : Nat) : rootino + 1 + k ≠ rootino := by omega

theorem ino_root : img.ino rootino = { Inode.fresh .dir with nlink := 1, dents := img.rootDents } := rfl

theorem ino_file {k : Nat} {file : InputFile} (hfile : img.files[k]? = some file) :
    img.ino (rootino + 1 + k) = { Inode.fresh .file with nlink := 1, data := file.data } := by
  have hnlt : ¬ rootino + 1 + k < rootino + 1 := by omega
  have hsub : rootino + 1 + k - (rootino + 1) = k := by omega
  unfold Image.ino
  rw [if_neg (file_ne_root k), if_neg hnlt, hsub, hfile]

theorem ino_cases (img : Image) (i : Inum) : i = rootino ∨
    (∃ k file, i = rootino + 1 + k ∧ img.files[k]? = some file) ∨ img.ino i = .fresh .free := by
  by_cases hroot : i = rootino
  · exact Or.inl hroot
  by_cases hlow : i < rootino + 1
  · refine Or.inr (Or.inr ?_)
    unfold Image.ino
    rw [if_neg hroot, if_pos hlow]
  · cases hfile : img.files[i - (rootino + 1)]? with
    | none =>
      refine Or.inr (Or.inr ?_)
      unfold Image.ino
      rw [if_neg hroot, if_neg hlow, hfile]
    | some file => exact .inr (.inl ⟨i - (rootino + 1), file,
        (Nat.add_sub_cancel' (Nat.le_of_not_lt hlow)).symm, hfile⟩)

theorem kind_dir_iff (i : Inum) : img.tree.kind i = .dir ↔ i = rootino := by
  constructor
  · intro hkind
    rcases ino_cases img i with hroot | ⟨k, file, rfl, hfile⟩ | hfree
    · exact hroot
    · simp [tree, ino_file hfile, Inode.fresh] at hkind
    · simp [tree, hfree, Inode.fresh] at hkind
  · rintro rfl
    rfl

theorem names_file {k : Nat} {file : InputFile} (hfile : img.files[k]? = some file) :
    img.tree.names (rootino + 1 + k) = 1 := by
  have hone : img.edges.filter (fun e => e.2.2 = rootino + 1 + k)
      = {(rootino, (k, file.name), rootino + 1 + k)} := by
    ext ⟨d, ⟨l, x⟩, i⟩
    simp only [Finset.mem_filter, mem_edges, Finset.mem_singleton, Prod.mk.injEq]
    constructor
    · rintro ⟨⟨rfl, rfl, file', hfile', rfl⟩, heq⟩
      obtain rfl : l = k := by omega
      rw [hfile, Option.some.injEq] at hfile'
      subst hfile'
      exact ⟨rfl, ⟨rfl, rfl⟩, rfl⟩
    · rintro ⟨rfl, ⟨rfl, rfl⟩, rfl⟩
      exact ⟨⟨rfl, rfl, file, hfile, rfl⟩, rfl⟩
  unfold Tree.names Edges.indegree
  change (img.edges.filter _).card = 1
  rw [hone]
  rfl

theorem names_eq_zero {i : Inum} (hi : ∀ k, i = rootino + 1 + k → img.files[k]? = none) :
    img.tree.names i = 0 := by
  refine Edges.indegree_eq_zero_iff.mpr ?_
  rintro d ⟨k, x⟩ hmem
  obtain ⟨-, heq, file, hfile, -⟩ := mem_edges.mp hmem
  rw [hi k heq] at hfile
  cases hfile

theorem subdirs_eq_zero (d : Inum) : img.tree.subdirs d = 0 := by
  refine Edges.outdegree_eq_zero_iff.mpr ?_
  rintro ⟨k, x⟩ i hmem hkind
  obtain ⟨-, rfl, -⟩ := mem_edges.mp hmem
  exact file_ne_root k ((kind_dir_iff _).mp hkind)

theorem links_eq (i : Inum) : (img.tree.links i : Int) = img.tree.nlink i := by
  unfold Tree.links
  rw [subdirs_eq_zero]
  rcases ino_cases img i with rfl | ⟨k, file, rfl, hfile⟩ | hfree
  · rw [names_eq_zero (fun k hk => absurd hk.symm (file_ne_root k))]
    rfl
  · rw [names_file hfile, if_neg (file_ne_root k)]
    simp [tree, ino_file hfile]
  · have hroot : i ≠ rootino := by
      rintro rfl
      simp [ino_root, Inode.fresh] at hfree
    rw [names_eq_zero, if_neg hroot]
    · simp [tree, hfree, Inode.fresh]
    · rintro k rfl
      by_contra hne
      obtain ⟨file, hfile⟩ := Option.ne_none_iff_exists'.mp hne
      simp [ino_file hfile, Inode.fresh] at hfree

theorem tree_inv : img.tree.Inv 0 where
  root := rfl
  up_root := rfl
  zero := rfl
  up_zero _ _ := Nat.one_ne_zero
  edge_dir := by
    rintro d ⟨k, x⟩ i hmem
    obtain ⟨rfl, -⟩ := mem_edges.mp hmem
    rfl
  edge_kind := by
    rintro d ⟨k, x⟩ i hmem
    obtain ⟨-, rfl, file, hfile, -⟩ := mem_edges.mp hmem
    simp [tree, ino_file hfile, Inode.fresh]
  edge_zero := by
    rintro d ⟨k, x⟩ i hmem
    obtain ⟨-, rfl, -⟩ := mem_edges.mp hmem
    exact Nat.ne_of_gt (by omega)
  edge_root := by
    rintro d ⟨k, x⟩ i hmem
    obtain ⟨-, rfl, -⟩ := mem_edges.mp hmem
    exact file_ne_root k
  edge_name := by
    rintro d ⟨k, x⟩ i hmem
    obtain ⟨-, -, file, -, rfl⟩ := mem_edges.mp hmem
    exact file.not_dot
  edge_up := by
    rintro d ⟨k, x⟩ i hmem hkind
    exact (mem_edges.mp hmem).1.symm
  once := by
    rintro d ⟨k, x⟩ ⟨l, y⟩ i hx - hkind
    obtain ⟨-, rfl, -⟩ := mem_edges.mp hx
    exact absurd ((kind_dir_iff _).mp hkind) (file_ne_root k)
  credit := by simp
  count i := by
    rw [Multiset.count_zero, links_eq]
    simp

theorem tree_exact : img.tree.Exact 0 where
  count i _ := by
    rw [Multiset.count_zero, links_eq]
    simp
  dead := by
    rintro d ⟨k, x⟩ i hmem
    exact .inl (mem_edges.mp hmem).1

theorem tree_upLive : img.tree.UpLive := fun _ _ => rfl

theorem tree_represents : Represents img.ino img.tree where
  kind _ := rfl
  nlink _ := rfl
  dents d hd := by
    obtain rfl := (kind_dir_iff d).mp hd
    refine ⟨(img.files.mapIdx fun k file => { inum := rootino + 1 + k, name := file.name }) ++
      List.replicate _ ⟨0, []⟩, rfl, fun k x i => ?_⟩
    change _ ∈ img.edges ↔ _
    rw [mem_edges, List.getElem?_append, List.getElem?_mapIdx, List.length_mapIdx]
    by_cases hk : k < img.files.length
    · rw [if_pos hk, List.getElem?_eq_getElem hk]
      simp only [true_and, Option.some.injEq, exists_eq_left', Option.map_some, Dirent.mk.injEq]
      constructor
      · rintro ⟨rfl, rfl⟩
        exact ⟨⟨rfl, rfl⟩, Nat.ne_of_gt (by omega)⟩
      · rintro ⟨⟨rfl, rfl⟩, -⟩
        exact ⟨rfl, rfl⟩
    · rw [if_neg hk, List.getElem?_eq_none (by omega)]
      simp only [reduceCtorEq, false_and, exists_false, and_false, false_iff, not_and, not_not]
      intro hget
      obtain ⟨-, heq⟩ := List.mem_replicate.mp (List.mem_of_getElem? hget)
      cases heq
      rfl

def Distinct (img : Image) : Prop := (img.files.map InputFile.name).Nodup

theorem tree_distinct (hdistinct : img.Distinct) : img.tree.Distinct := by
  intro d k l x i j hk hl
  obtain ⟨-, -, file, hfile, rfl⟩ := mem_edges.mp hk
  obtain ⟨-, -, file', hfile', heq⟩ := mem_edges.mp hl
  obtain ⟨hklt, rfl⟩ := List.getElem?_eq_some_iff.mp hfile
  obtain ⟨hllt, rfl⟩ := List.getElem?_eq_some_iff.mp hfile'
  have hk' : k < (img.files.map InputFile.name).length := by simpa using hklt
  have hl' : l < (img.files.map InputFile.name).length := by simpa using hllt
  have hget : (img.files.map InputFile.name)[k] = (img.files.map InputFile.name)[l] := by
    simpa using heq.symm
  exact (List.Nodup.getElem_inj_iff hdistinct).mp hget

theorem quiet_boot {φ : Flags} (hφ : φ.distinct → img.Distinct) : Quiet φ (img.boot n) img.tree where
  rep := tree_represents
  ok := ⟨tree_inv, fun hd => tree_distinct (hφ hd), fun _ => tree_exact, fun _ => tree_upLive⟩
  bound i hi := by
    have hfits := img.fits
    change i < img.ninodes
    rcases ino_cases img i with rfl | ⟨k, file, rfl, hfile⟩ | hfree
    · exact Nat.lt_of_lt_of_le (by omega) hfits
    · have hk := (List.getElem?_eq_some_iff.mp hfile).1
      exact Nat.lt_of_lt_of_le (by omega) hfits
    · exact absurd (by simp [tree, hfree, Inode.fresh]) hi
  refs_le i := by
    have hopens : (img.boot n).opens i = 0 := by simp [State.opens, boot]
    rw [hopens]
    by_cases hi : i = rootino
    · simp [State.allCwds, boot, hi]
    · simp [State.allCwds, boot, hi, Ne.symm hi]
  cwd q i hi := by
    obtain rfl : rootino = i := by simpa [boot] using hi
    rintro ⟨⟩
  file _ _ := by rintro ⟨⟩
  unused _ _ := rfl

end Image

end Xv6.Fs
