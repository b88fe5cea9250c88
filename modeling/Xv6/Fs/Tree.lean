import Xv6.Lib.NameGraph
import Xv6.Fs.Path
import Mathlib.Data.Multiset.AddSub

/-!
# The directory tree, abstractly

What the directories are for: a graph of named edges with link counts. The calls change an entry and
the counts it stands for at different moments, so every move below comes with a *credit*: the links
that `nlink` already counts and no entry shows yet, or that an erased entry has left behind. A call
starts and ends with no credit.
-/

namespace Xv6.Fs

open Function (update update_self update_of_ne)

/-- The place of an entry in its directory, counted after `.` and `..`, and its name. -/
abbrev Slot := Nat × Name

structure Tree where
  kind : Inum → FileType
  nlink : Inum → Int
  /-- What `..` names. -/
  up : Inum → Inum
  /-- The live entries other than `.` and `..` of all directories. -/
  edges : Edges Inum Slot

namespace Tree

variable {t : Tree} {c : Multiset Inum} {i j d e : Inum} {x y : Slot} {type : FileType}

def names (t : Tree) (i : Inum) : Nat := t.edges.indegree i

def subdirs (t : Tree) (d : Inum) : Nat := t.edges.outdegree (fun i => t.kind i = .dir) d

/-- The links that entries account for: names, `..` of the directories inside, and the root's own
`..`. -/
def links (t : Tree) (i : Inum) : Nat := t.names i + t.subdirs i + if i = rootino then 1 else 0

structure Inv (t : Tree) (c : Multiset Inum) : Prop where
  root : t.kind rootino = .dir
  up_root : t.up rootino = rootino
  zero : t.kind 0 = .free
  up_zero : ∀ d, t.kind d = .dir → t.up d ≠ 0
  edge_dir : ∀ {d x i}, (d, x, i) ∈ t.edges → t.kind d = .dir
  edge_kind : ∀ {d x i}, (d, x, i) ∈ t.edges → t.kind i ≠ .free
  edge_zero : ∀ {d x i}, (d, x, i) ∈ t.edges → i ≠ 0
  edge_root : ∀ {d x i}, (d, x, i) ∈ t.edges → i ≠ rootino
  edge_name : ∀ {d x i}, (d, x, i) ∈ t.edges → ¬ IsDot x.2
  edge_up : ∀ {d x i}, (d, x, i) ∈ t.edges → t.kind i = .dir → t.up i = d
  once : ∀ {d x y i}, (d, x, i) ∈ t.edges → (d, y, i) ∈ t.edges → t.kind i = .dir → x = y
  credit : ∀ i ∈ c, t.kind i ≠ .free
  count : ∀ i, (t.links i : Int) + c.count i ≤ t.nlink i

def Distinct (t : Tree) : Prop :=
  ∀ d k l x i j, (d, (k, x), i) ∈ t.edges → (d, (l, x), j) ∈ t.edges → k = l

/-- A directory that has a name, or is the root. -/
def Linked (t : Tree) (d : Inum) : Prop := d = rootino ∨ 0 < t.names d

/-- The invariant of runs that never fill a directory without a name. -/
structure Exact (t : Tree) (c : Multiset Inum) : Prop where
  count : ∀ i, t.kind i ≠ .free → t.nlink i = t.links i + c.count i
  dead : ∀ {d x i}, (d, x, i) ∈ t.edges → t.Linked d

/-- The invariant of runs that never free a directory that is some other directory's `..`. -/
def UpLive (t : Tree) : Prop := ∀ d, t.kind d = .dir → t.kind (t.up d) = .dir

/-! ### The moves -/

def make (t : Tree) (i : Inum) (type : FileType) : Tree :=
  { t with kind := update t.kind i type, nlink := update t.nlink i 1 }

/-- A new directory `i` in `d`, with its name and `d`'s new link to come. -/
def makeDir (t : Tree) (i d : Inum) : Tree :=
  { t with
    kind := update t.kind i .dir
    nlink := update (update t.nlink i 1) d (t.nlink d + 1)
    up := update t.up i d }

def addNlink (t : Tree) (i : Inum) (k : Int) : Tree :=
  { t with nlink := update t.nlink i (t.nlink i + k) }

def link (t : Tree) (d : Inum) (x : Slot) (i : Inum) : Tree :=
  { t with edges := insert (d, x, i) t.edges }

def unlink (t : Tree) (d : Inum) (x : Slot) (i : Inum) : Tree :=
  { t with edges := t.edges.erase (d, x, i) }

def reclaim (t : Tree) (i : Inum) : Tree :=
  { t with kind := update t.kind i .free, edges := t.edges.without i }

/-! ### Free inodes have no edges -/

theorem Inv.names_free (hinv : t.Inv c) (hfree : t.kind i = .free) : t.names i = 0 :=
  Edges.indegree_eq_zero_iff.mpr fun _ _ hmem => hinv.edge_kind hmem hfree

theorem Inv.no_edge_of_not_dir (hinv : t.Inv c) (hkind : t.kind d ≠ .dir) : (d, x, i) ∉ t.edges :=
  fun hmem => hkind (hinv.edge_dir hmem)

theorem Inv.subdirs_of_not_dir (hinv : t.Inv c) (hkind : t.kind d ≠ .dir) : t.subdirs d = 0 :=
  Edges.outdegree_eq_zero_iff.mpr fun _ _ hmem => absurd (hinv.edge_dir hmem) hkind

theorem Inv.ne_root_of_free (hinv : t.Inv c) (hfree : t.kind i = .free) : i ≠ rootino := by
  rintro rfl
  rw [hinv.root] at hfree
  cases hfree

theorem Inv.links_free (hinv : t.Inv c) (hfree : t.kind i = .free) : t.links i = 0 := by
  have hsub := hinv.subdirs_of_not_dir (d := i) (by rw [hfree]; decide)
  simp [links, hinv.names_free hfree, hsub, hinv.ne_root_of_free hfree]

theorem Inv.count_free (hinv : t.Inv c) (hfree : t.kind i = .free) : c.count i = 0 :=
  Multiset.count_eq_zero.mpr fun hmem => hinv.credit i hmem hfree

/-! ### Making an inode -/

theorem links_congr {t' : Tree} (hedges : t'.edges = t.edges) (hkind : ∀ j, j ≠ i → t'.kind j = t.kind j)
    (hnone : t.names i = 0) (j : Inum) : t'.links j = t.links j := by
  unfold links names subdirs
  rw [hedges]
  congr 2
  refine Edges.outdegree_congr fun x k hmem => ?_
  rw [hkind]
  rintro rfl
  exact Edges.indegree_eq_zero_iff.mp hnone _ _ hmem

theorem ne_of_free (hfree : t.kind i = .free) (hkind : t.kind d ≠ .free) : d ≠ i := by
  rintro rfl
  exact hkind hfree

theorem Inv.make (hinv : t.Inv c) (hi : i ≠ 0) (hfree : t.kind i = .free)
    (hup : type = .dir → t.up i ≠ 0) (htype : type ≠ .free) : (t.make i type).Inv (i ::ₘ c) := by
  have hne : ∀ {j}, t.kind j ≠ .free → j ≠ i := ne_of_free hfree
  have hkind : ∀ j, j ≠ i → (t.make i type).kind j = t.kind j := fun j hj => by
    simp [Tree.make, update_of_ne hj]
  have hself : (t.make i type).kind i = type := by simp [Tree.make]
  have hlinks : ∀ j, (t.make i type).links j = t.links j :=
    links_congr rfl hkind (hinv.names_free hfree)
  refine { hinv with
    root := ?_, zero := (hkind 0 hi.symm).trans hinv.zero, up_zero := fun d hd => ?_
    edge_dir := fun hmem => ?_, edge_kind := fun hmem => ?_
    edge_up := fun hmem hdir => ?_, once := fun hx hy hdir => ?_
    credit := fun j hj => ?_, count := fun j => ?_ }
  · rw [hkind _ (hinv.ne_root_of_free hfree).symm]
    exact hinv.root
  · by_cases hdi : d = i
    · subst hdi
      exact hup (hself.symm.trans hd)
    · exact hinv.up_zero d (hkind d hdi ▸ hd)
  · have hdir := hinv.edge_dir hmem
    rw [hkind _ (hne (by rw [hdir]; decide))]
    exact hdir
  · rw [hkind _ (hne (hinv.edge_kind hmem))]
    exact hinv.edge_kind hmem
  · rw [hkind _ (hne (hinv.edge_kind hmem))] at hdir
    exact hinv.edge_up hmem hdir
  · rw [hkind _ (hne (hinv.edge_kind hx))] at hdir
    exact hinv.once hx hy hdir
  · rcases Multiset.mem_cons.mp hj with rfl | hold
    · rw [hself]
      exact htype
    · rw [hkind _ (hne (hinv.credit j hold))]
      exact hinv.credit j hold
  · rw [hlinks]
    by_cases hj : j = i
    · subst hj
      simp [Tree.make, hinv.links_free hfree, hinv.count_free hfree]
    · rw [Multiset.count_cons_of_ne hj]
      simpa [Tree.make, update_of_ne hj] using hinv.count j

theorem Inv.ne_zero (hinv : t.Inv c) (hkind : t.kind i ≠ .free) : i ≠ 0 := by
  rintro rfl
  exact hkind hinv.zero

/-! ### Counting and naming -/

theorem nlink_addNlink (k : Int) : (t.addNlink i k).nlink j = t.nlink j + if j = i then k else 0 := by
  split_ifs with hj
  · exact hj ▸ update_self ..
  · exact (update_of_ne hj ..).trans (Int.add_zero _).symm

theorem Inv.incr (hinv : t.Inv c) (hkind : t.kind i ≠ .free) : (t.addNlink i 1).Inv (i ::ₘ c) := by
  refine { hinv with credit := fun j hj => ?_, count := fun j => ?_ }
  · rcases Multiset.mem_cons.mp hj with rfl | hold
    · exact hkind
    · exact hinv.credit j hold
  · have hcount := hinv.count j
    change (t.links j : Int) + _ ≤ _
    rw [nlink_addNlink, Multiset.count_cons]
    split_ifs <;> omega

theorem Inv.decr (hinv : t.Inv (i ::ₘ c)) : (t.addNlink i (-1)).Inv c := by
  refine { hinv with
    credit := fun j hj => hinv.credit j (Multiset.mem_cons_of_mem hj), count := fun j => ?_ }
  have hcount := hinv.count j
  change (t.links j : Int) + _ ≤ _
  rw [Multiset.count_cons] at hcount
  rw [nlink_addNlink]
  split_ifs at hcount ⊢ <;> omega

/-! ### Making a directory -/

/-- A free inode has no parent to speak of. -/
theorem Inv.setUp (hinv : t.Inv c) (hfree : t.kind i = .free) : Inv { t with up := update t.up i d } c := by
  have hup : ∀ j, t.kind j ≠ .free → update t.up i d j = t.up j :=
    fun j hj => update_of_ne (ne_of_free hfree hj) ..
  refine { hinv with up_root := ?_, up_zero := fun e he => ?_, edge_up := fun hmem hdir => ?_ }
  · exact (hup rootino (by rw [hinv.root]; decide)).trans hinv.up_root
  · exact ne_of_eq_of_ne (hup e (ne_of_eq_of_ne he (by decide))) (hinv.up_zero e he)
  · exact (hup _ (hinv.edge_kind hmem)).trans (hinv.edge_up hmem hdir)

theorem makeDir_eq (hdi : d ≠ i) :
    t.makeDir i d = ({ t with up := update t.up i d }.make i .dir).addNlink d 1 := by
  simp only [makeDir, make, addNlink, update_of_ne hdi]

theorem Inv.makeDir (hinv : t.Inv c) (hi : i ≠ 0) (hfree : t.kind i = .free)
    (hdir : t.kind d = .dir) : (t.makeDir i d).Inv (i ::ₘ d ::ₘ c) := by
  have hlive : t.kind d ≠ .free := by
    rw [hdir]
    decide
  have hdi := ne_of_free hfree hlive
  rw [makeDir_eq hdi, Multiset.cons_swap]
  refine ((hinv.setUp hfree).make hi hfree (fun _ => ?_) (by decide)).incr ?_
  · change update t.up i d i ≠ 0
    rw [update_self]
    exact hinv.ne_zero hlive
  · change update t.kind i .dir d ≠ .free
    rwa [update_of_ne hdi]

/-! ### Entries -/

def entryCredit (t : Tree) (d i : Inum) : Multiset Inum :=
  if t.kind i = .dir then {i, d} else {i}

theorem count_entryCredit : (t.entryCredit d i).count j = (if i = j then 1 else 0) +
      if d = j ∧ t.kind i = .dir then 1 else 0 := by
  unfold entryCredit
  by_cases hdir : t.kind i = .dir
  · simp only [hdir, if_true, and_true, Multiset.insert_eq_cons]
    rw [Multiset.count_cons, Multiset.count_singleton]
    simp only [eq_comm, Nat.add_comm]
  · simp only [hdir, if_false, and_false, Nat.add_zero]
    rw [Multiset.count_singleton]
    simp only [eq_comm]

theorem links_link (hnew : (d, x, i) ∉ t.edges) :
    (t.link d x i).links j = t.links j + (t.entryCredit d i).count j := by
  rw [count_entryCredit]
  have hnames := Edges.indegree_insert hnew j
  have hsub := Edges.outdegree_insert (P := fun k => t.kind k = .dir) hnew j
  unfold links names subdirs
  change Edges.indegree (insert (d, x, i) t.edges) j
    + Edges.outdegree (insert (d, x, i) t.edges) (fun k => t.kind k = .dir) j + _ = _
  omega

theorem Inv.link (hinv : t.Inv (t.entryCredit d i + c)) (hdir : t.kind d = .dir) (hzero : i ≠ 0)
    (hroot : i ≠ rootino) (hname : ¬ IsDot x.2) (hnew : (d, x, i) ∉ t.edges)
    (hup : t.kind i = .dir → t.up i = d ∧ t.names i = 0) : (t.link d x i).Inv c := by
  have hkind : t.kind i ≠ .free := by
    refine hinv.credit i (Multiset.mem_add.mpr (.inl ?_))
    unfold entryCredit
    split_ifs <;> simp
  have hcases : ∀ {e y k}, (e, y, k) ∈ (t.link d x i).edges →
      e = d ∧ y = x ∧ k = i ∨ (e, y, k) ∈ t.edges := by
    intro e y k hmem
    simpa [Tree.link] using hmem
  have hedge : ∀ {e y k}, (e, y, k) ∈ (t.link d x i).edges → t.kind e = .dir ∧ t.kind k ≠ .free ∧
      k ≠ 0 ∧ k ≠ rootino ∧ ¬ IsDot y.2 ∧ (t.kind k = .dir → t.up k = e) := by
    intro e y k hmem
    rcases hcases hmem with ⟨rfl, rfl, rfl⟩ | hold
    · exact ⟨hdir, hkind, hzero, hroot, hname, fun hd => (hup hd).1⟩
    · exact ⟨hinv.edge_dir hold, hinv.edge_kind hold, hinv.edge_zero hold, hinv.edge_root hold,
        hinv.edge_name hold, hinv.edge_up hold⟩
  refine { hinv with
    edge_dir := fun h => (hedge h).1, edge_kind := fun h => (hedge h).2.1
    edge_zero := fun h => (hedge h).2.2.1, edge_root := fun h => (hedge h).2.2.2.1
    edge_name := fun h => (hedge h).2.2.2.2.1, edge_up := fun h => (hedge h).2.2.2.2.2
    once := fun hx hy hd => ?_
    credit := fun j hj => hinv.credit j (Multiset.mem_add.mpr (.inr hj)), count := fun j => ?_ }
  · -- a directory gets its only name
    rcases hcases hx with ⟨rfl, rfl, rfl⟩ | hold
    · rcases hcases hy with ⟨-, rfl, -⟩ | hold'
      · rfl
      · exact absurd hold' (Edges.indegree_eq_zero_iff.mp (hup hd).2 _ _)
    · rcases hcases hy with ⟨rfl, rfl, rfl⟩ | hold'
      · exact absurd hold (Edges.indegree_eq_zero_iff.mp (hup hd).2 _ _)
      · exact hinv.once hold hold' hd
  · have hcount := hinv.count j
    rw [Multiset.count_add] at hcount
    rw [links_link hnew]
    change _ ≤ t.nlink j
    omega

theorem links_unlink (hmem : (d, x, i) ∈ t.edges) :
    (t.unlink d x i).links j + (t.entryCredit d i).count j = t.links j := by
  rw [count_entryCredit]
  have hnames := Edges.indegree_erase hmem j
  have hsub := Edges.outdegree_erase (P := fun k => t.kind k = .dir) hmem j
  unfold links names subdirs
  change Edges.indegree (t.edges.erase (d, x, i)) j
    + Edges.outdegree (t.edges.erase (d, x, i)) (fun k => t.kind k = .dir) j + _ + _ = _
  omega

theorem Inv.unlink (hinv : t.Inv c) (hmem : (d, x, i) ∈ t.edges) :
    (t.unlink d x i).Inv (t.entryCredit d i + c) := by
  have hold : ∀ {e y k}, (e, y, k) ∈ (t.unlink d x i).edges → (e, y, k) ∈ t.edges :=
    fun h => Finset.mem_of_mem_erase h
  refine { hinv with
    edge_dir := fun h => hinv.edge_dir (hold h), edge_kind := fun h => hinv.edge_kind (hold h)
    edge_zero := fun h => hinv.edge_zero (hold h), edge_root := fun h => hinv.edge_root (hold h)
    edge_name := fun h => hinv.edge_name (hold h), edge_up := fun h => hinv.edge_up (hold h)
    once := fun h h' => hinv.once (hold h) (hold h'), credit := fun j hj => ?_, count := fun j => ?_ }
  · rcases Multiset.mem_add.mp hj with hentry | hrest
    · have hcases : j = i ∨ j = d := by
        unfold entryCredit at hentry
        split_ifs at hentry <;> simp_all
      rcases hcases with rfl | rfl
      · exact hinv.edge_kind hmem
      · change t.kind j ≠ .free
        rw [hinv.edge_dir hmem]
        decide
    · exact hinv.credit j hrest
  · have hcount := hinv.count j
    have hlinks := links_unlink (j := j) hmem
    rw [Multiset.count_add]
    change _ ≤ t.nlink j
    omega

/-! ### Freeing -/

theorem Inv.reclaim (hinv : t.Inv c) (hzero : t.nlink i = 0) : (t.reclaim i).Inv c := by
  have hcount := hinv.count i
  have hlinks : t.links i = 0 := by omega
  have hcredit : c.count i = 0 := by omega
  have hnames : t.names i = 0 := by
    unfold links at hlinks
    omega
  have hroot : rootino ≠ i := by
    rintro rfl
    simp [links] at hlinks
  have hkind : ∀ j, j ≠ i → (t.reclaim i).kind j = t.kind j := fun j hj => by
    simp [Tree.reclaim, update_of_ne hj]
  have hold : ∀ {e y k}, (e, y, k) ∈ (t.reclaim i).edges → (e, y, k) ∈ t.edges ∧ e ≠ i :=
    fun h => Edges.mem_without.mp h
  have hne : ∀ {e y k}, (e, y, k) ∈ t.edges → k ≠ i := by
    rintro e y k hmem rfl
    exact Edges.indegree_eq_zero_iff.mp hnames _ _ hmem
  refine { hinv with
    root := ?_, zero := ?_, up_zero := fun d hd => ?_
    edge_dir := fun h => ?_, edge_kind := fun h => ?_, edge_zero := fun h => hinv.edge_zero (hold h).1
    edge_root := fun h => hinv.edge_root (hold h).1
    edge_name := fun h => hinv.edge_name (hold h).1, edge_up := fun h hd => ?_
    once := fun h h' hd => ?_
    credit := fun j hj => ?_, count := fun j => ?_ }
  · rw [hkind _ hroot]
    exact hinv.root
  · by_cases hi : i = 0
    · simp [Tree.reclaim, hi]
    · rw [hkind 0 (Ne.symm hi)]
      exact hinv.zero
  · have hdi : d ≠ i := by
      rintro rfl
      simp [Tree.reclaim] at hd
    exact hinv.up_zero d (hkind d hdi ▸ hd)
  · rw [hkind _ (hold h).2]
    exact hinv.edge_dir (hold h).1
  · rw [hkind _ (hne (hold h).1)]
    exact hinv.edge_kind (hold h).1
  · rw [hkind _ (hne (hold h).1)] at hd
    exact hinv.edge_up (hold h).1 hd
  · rw [hkind _ (hne (hold h).1)] at hd
    exact hinv.once (hold h).1 (hold h').1 hd
  · rw [hkind j]
    · exact hinv.credit j hj
    · rintro rfl
      exact absurd (Multiset.count_pos.mpr hj) (by omega)
  · have hle : (t.reclaim i).links j ≤ t.links j := by
      have hsame : (t.reclaim i).links j = (t.edges.without i).indegree j
          + (t.edges.without i).outdegree (fun k => t.kind k = .dir) j + if j = rootino then 1 else 0 := by
        unfold links names subdirs
        congr 2
        refine Edges.outdegree_congr fun y k hmem => ?_
        rw [hkind k (hne (Edges.mem_without.mp hmem).1)]
      have h₁ := Edges.indegree_without_le (E := t.edges) (d := i) j
      have h₂ := Edges.outdegree_without_le (E := t.edges) (d := i) (P := fun k => t.kind k = .dir) j
      rw [hsame]
      unfold links names subdirs
      omega
    have hcountj := hinv.count j
    change _ ≤ t.nlink j
    omega

/-! ### Exact counts -/

theorem Linked.mono {t' : Tree} (hlinked : t.Linked d) (hnames : t.names d ≤ t'.names d) :
    t'.Linked d :=
  hlinked.imp_right fun hpos => lt_of_lt_of_le hpos hnames

/-- With exact counts, a directory with links and no credit has a name. -/
theorem Exact.linked (hexact : t.Exact c) (hkind : t.kind d ≠ .free) (hcredit : c.count d = 0)
    (hpos : 0 < t.nlink d) : t.Linked d := by
  by_contra hnot
  have hcount := hexact.count d hkind
  have hnames : t.names d = 0 := by
    by_contra hne
    exact hnot (.inr (Nat.pos_of_ne_zero hne))
  have hsub : t.subdirs d = 0 :=
    Edges.outdegree_eq_zero_iff.mpr fun x i hmem => absurd (hexact.dead hmem) hnot
  have hroot : d ≠ rootino := fun heq => hnot (.inl heq)
  have hlinks : t.links d = 0 := by simp [links, hnames, hsub, hroot]
  omega

theorem Exact.make (hexact : t.Exact c) (hinv : t.Inv c) (hfree : t.kind i = .free) :
    (t.make i type).Exact (i ::ₘ c) := by
  have hlinks : ∀ j, (t.make i type).links j = t.links j :=
    links_congr rfl (fun j hj => by simp [Tree.make, update_of_ne hj]) (hinv.names_free hfree)
  refine ⟨fun j hj => ?_, fun hmem => hexact.dead hmem⟩
  rw [hlinks]
  by_cases hji : j = i
  · subst hji
    simp [Tree.make, hinv.links_free hfree, hinv.count_free hfree]
  · simp only [Tree.make, update_of_ne hji] at hj ⊢
    rw [Multiset.count_cons_of_ne hji]
    exact hexact.count j hj

theorem Exact.incr (hexact : t.Exact c) : (t.addNlink i 1).Exact (i ::ₘ c) := by
  refine ⟨fun j hj => ?_, fun hmem => hexact.dead hmem⟩
  have hcount := hexact.count j hj
  change _ = (t.links j : Int) + _
  rw [nlink_addNlink, Multiset.count_cons]
  split_ifs <;> omega

theorem Exact.decr (hexact : t.Exact (i ::ₘ c)) : (t.addNlink i (-1)).Exact c := by
  refine ⟨fun j hj => ?_, fun hmem => hexact.dead hmem⟩
  have hcount := hexact.count j hj
  change _ = (t.links j : Int) + _
  rw [Multiset.count_cons] at hcount
  rw [nlink_addNlink]
  split_ifs at hcount ⊢ <;> omega

theorem Exact.makeDir (hexact : t.Exact c) (hinv : t.Inv c) (hfree : t.kind i = .free)
    (hdir : t.kind d = .dir) : (t.makeDir i d).Exact (i ::ₘ d ::ₘ c) := by
  have hup : Exact { t with up := update t.up i d } c := ⟨hexact.count, hexact.dead⟩
  rw [makeDir_eq (ne_of_free hfree (by rw [hdir]; decide)), Multiset.cons_swap]
  exact (hup.make (hinv.setUp hfree) hfree).incr

theorem Exact.link (hexact : t.Exact (t.entryCredit d i + c)) (hnew : (d, x, i) ∉ t.edges)
    (hlinked : t.Linked d) : (t.link d x i).Exact c := by
  have hnames : ∀ e, t.names e ≤ (t.link d x i).names e := by
    intro e
    change t.edges.indegree e ≤ Edges.indegree (insert (d, x, i) t.edges) e
    rw [Edges.indegree_insert hnew]
    exact Nat.le_add_right _ _
  refine ⟨fun j hj => ?_, fun {e y k} hmem => ?_⟩
  · have hcount := hexact.count j hj
    rw [Multiset.count_add] at hcount
    rw [links_link hnew]
    change t.nlink j = _
    omega
  · rcases Finset.mem_insert.mp hmem with heq | hold
    · cases heq
      exact hlinked.mono (hnames d)
    · exact (hexact.dead hold).mono (hnames e)

/-- A directory that loses its name has to be empty. -/
theorem Exact.unlink (hexact : t.Exact c) (hinv : t.Inv c) (hmem : (d, x, i) ∈ t.edges)
    (hempty : t.kind i = .dir → ∀ y k, (i, y, k) ∉ t.edges) :
    (t.unlink d x i).Exact (t.entryCredit d i + c) := by
  refine ⟨fun j hj => ?_, fun {e y k} hmem' => ?_⟩
  · have hcount := hexact.count j hj
    have hlinks := links_unlink (j := j) hmem
    rw [Multiset.count_add]
    change t.nlink j = _
    omega
  · have hold := Finset.mem_of_mem_erase hmem'
    have hei : i ≠ e := by
      rintro rfl
      exact hempty (hinv.edge_dir hold) y k hold
    refine (hexact.dead hold).mono ?_
    have hnames := Edges.indegree_erase hmem e
    rw [if_neg hei] at hnames
    change t.edges.indegree e ≤ Edges.indegree (t.edges.erase (d, x, i)) e
    omega

theorem Exact.reclaim (hexact : t.Exact c) (hinv : t.Inv c) (hzero : t.nlink i = 0) :
    (t.reclaim i).Exact c := by
  have hcount := hinv.count i
  have hlinks : t.links i = 0 := by omega
  have hnone : ¬ t.Linked i := by
    rintro (rfl | hpos)
    · simp [links] at hlinks
    · unfold links at hlinks
      omega
  have hedges : (t.reclaim i).edges = t.edges :=
    Edges.without_eq_self fun x k hmem => hnone (hexact.dead hmem)
  have hkind : ∀ j, j ≠ i → (t.reclaim i).kind j = t.kind j := fun j hj => by
    simp [Tree.reclaim, update_of_ne hj]
  have hsame : ∀ j, (t.reclaim i).links j = t.links j := by
    refine links_congr hedges hkind ?_
    unfold links at hlinks
    omega
  refine ⟨fun j hj => ?_, fun {e y k} hmem => ?_⟩
  · have hji : j ≠ i := by
      rintro rfl
      simp [Tree.reclaim] at hj
    rw [hkind j hji] at hj
    rw [hsame]
    exact hexact.count j hj
  · rw [hedges] at hmem
    refine (hexact.dead hmem).mono ?_
    unfold names
    rw [hedges]

/-! ### Live parents -/

theorem UpLive.make (hup : t.UpLive) (hfree : t.kind i = .free) (htype : type ≠ .dir) :
    (t.make i type).UpLive := by
  intro d hd
  have hdi : d ≠ i := by
    rintro rfl
    simp [Tree.make, htype] at hd
  simp only [Tree.make, update_of_ne hdi] at hd ⊢
  have hdir := hup d hd
  have hui : t.up d ≠ i := by
    intro heq
    rw [heq, hfree] at hdir
    cases hdir
  rw [update_of_ne hui]
  exact hdir

theorem UpLive.makeDir (hup : t.UpLive) (hdir : t.kind d = .dir) : (t.makeDir i d).UpLive := by
  intro e he
  have hlive : ∀ j, t.kind j = .dir → (t.makeDir i d).kind j = .dir := by
    intro j hj
    by_cases hji : j = i
    · simp [Tree.makeDir, hji]
    · simpa [Tree.makeDir, update_of_ne hji] using hj
  by_cases hei : e = i
  · subst hei
    have hupe : (t.makeDir e d).up e = d := by simp [Tree.makeDir]
    rw [hupe]
    exact hlive d hdir
  · have hupe : (t.makeDir i d).up e = t.up e := by simp [Tree.makeDir, update_of_ne hei]
    rw [hupe]
    refine hlive _ (hup e ?_)
    simpa [Tree.makeDir, update_of_ne hei] using he

theorem UpLive.reclaim (hup : t.UpLive)
    (hother : t.kind i = .dir → ∀ d, d ≠ i → t.kind d = .dir → t.up d ≠ i) : (t.reclaim i).UpLive := by
  intro d hd
  have hdi : d ≠ i := by
    rintro rfl
    simp [Tree.reclaim] at hd
  simp only [Tree.reclaim, update_of_ne hdi] at hd ⊢
  have hdir := hup d hd
  have hui : t.up d ≠ i := by
    intro heq
    rw [heq] at hdir
    exact hother hdir d hdi hd heq
  rw [update_of_ne hui]
  exact hdir

/-! ### Distinct names -/

theorem Distinct.link {k : Nat} {name : Name} (hdistinct : t.Distinct)
    (habsent : ∀ l j, (d, (l, name), j) ∉ t.edges) : (t.link d (k, name) i).Distinct := by
  intro e l l' y j j' hl hl'
  rcases Finset.mem_insert.mp hl with heq | hold
  · cases heq
    rcases Finset.mem_insert.mp hl' with heq | hold'
    · cases heq
      rfl
    · exact absurd hold' (habsent _ _)
  · rcases Finset.mem_insert.mp hl' with heq | hold'
    · cases heq
      exact absurd hold (habsent _ _)
    · exact hdistinct _ _ _ _ _ _ hold hold'

theorem Distinct.mono {t' : Tree} (hdistinct : t.Distinct) (hsub : t'.edges ⊆ t.edges) :
    t'.Distinct :=
  fun _ _ _ _ _ _ h h' => hdistinct _ _ _ _ _ _ (hsub h) (hsub h')

/-! ### All together -/

/-- Which of the properties that depend on the image or the run are claimed. -/
structure Flags where
  distinct : Prop
  exact : Prop
  live : Prop

structure Ok (φ : Flags) (t : Tree) (c : Multiset Inum) : Prop where
  inv : t.Inv c
  distinct : φ.distinct → t.Distinct
  exact : φ.exact → t.Exact c
  up : φ.live → t.UpLive

end Tree

end Xv6.Fs
