import Xv6.Fs.Tree
import Xv6.Fs.OneCopy

/-!
# Inodes represent a tree

The inodes of a state, read as a tree: a directory is its `.` and `..` entries followed by slots,
the live ones with distinct names. Each change that the calls make to the inodes is a move on the
tree.
-/

namespace Xv6.Fs

open Function (update update_self update_of_ne update_comm update_eq_self update_eq_self_iff)

def Dents (d u : Inum) (edges : Edges Inum Slot) (dents : List Dirent) : Prop :=
  ∃ rest, dents = ⟨d, dot⟩ :: ⟨u, dotdot⟩ :: rest ∧
    ∀ k x i, (d, (k, x), i) ∈ edges ↔ rest[k]? = some ⟨i, x⟩ ∧ i ≠ 0

structure Represents (ino : Inum → Inode) (t : Tree) : Prop where
  kind : ∀ i, (ino i).type = t.kind i
  nlink : ∀ i, (ino i).nlink = t.nlink i
  dents : ∀ d, t.kind d = .dir → Dents d (t.up d) t.edges (ino d).dents

namespace Represents

variable {ino : Inum → Inode} {t : Tree} {c : Multiset Inum} {d i ip : Inum} {x : Name} {k : Nat}
  {node : Inode} {dents' : List Dirent} {de : Dirent}

section

variable (hrep : Represents ino t)
include hrep

theorem mem_of_edge (hinv : t.Inv c) (hmem : (d, (k, x), i) ∈ t.edges) : ⟨i, x⟩ ∈ (ino d).dents := by
  obtain ⟨rest, hdents, hedges⟩ := hrep.dents d (hinv.edge_dir hmem)
  rw [hdents]
  exact List.mem_cons_of_mem _ (List.mem_cons_of_mem _ (List.mem_of_getElem? ((hedges k x i).mp hmem).1))

theorem cases_of_mem (hdir : t.kind d = .dir) (hmem : de ∈ (ino d).dents) (hlive : de.inum ≠ 0) :
    de = ⟨d, dot⟩ ∨ de = ⟨t.up d, dotdot⟩ ∨ ∃ k, (d, (k, de.name), de.inum) ∈ t.edges := by
  obtain ⟨rest, hdents, hedges⟩ := hrep.dents d hdir
  rw [hdents, List.mem_cons, List.mem_cons] at hmem
  rcases hmem with rfl | rfl | hmem
  · exact .inl rfl
  · exact .inr (.inl rfl)
  · obtain ⟨k, hk⟩ := List.mem_iff_getElem?.mp hmem
    exact .inr (.inr ⟨k, (hedges k _ _).mpr ⟨hk, hlive⟩⟩)

theorem update_node {t' : Tree} (hkind : t'.kind = update t.kind i node.type)
    (hnlink : t'.nlink = update t.nlink i node.nlink)
    (hself : node.type = .dir → Dents i (t'.up i) t'.edges node.dents)
    (hother : ∀ d, d ≠ i → Dents d (t.up d) t.edges (ino d).dents →
      Dents d (t'.up d) t'.edges (ino d).dents) :
    Represents (update ino i node) t' := by
  rw [funext fun j => (hrep.kind j).symm] at hkind
  rw [funext fun j => (hrep.nlink j).symm] at hnlink
  refine ⟨fun j => ?_, fun j => ?_, fun d hd => ?_⟩
  · rw [hkind]
    exact Function.apply_update (fun _ (x : Inode) => x.type) ..
  · rw [hnlink]
    exact Function.apply_update (fun _ (x : Inode) => x.nlink) ..
  · rw [hkind] at hd
    by_cases hdi : d = i
    · subst hdi
      rw [update_self] at hd ⊢
      exact hself hd
    · rw [update_of_ne hdi] at hd ⊢
      exact hother d hdi (hrep.dents d ((hrep.kind d).symm.trans hd))

theorem setNode (htype : node.type = (ino i).type) (hnlink : node.nlink = (ino i).nlink)
    (hdents : node.dents = (ino i).dents) : Represents (update ino i node) t := by
  refine hrep.update_node ?_ ?_ (fun hdir => ?_) fun _ _ h => h
  · rw [htype, hrep.kind, update_eq_self]
  · rw [hnlink, hrep.nlink, update_eq_self]
  · rw [hdents]
    exact hrep.dents i (((hrep.kind i).symm.trans htype.symm).trans hdir)

theorem addNlink (v : Int) :
    Represents (update ino i { ino i with nlink := (ino i).nlink + v }) (t.addNlink i v) := by
  refine hrep.update_node ?_ ?_ (fun hdir => ?_) fun _ _ h => h
  · rw [hrep.kind, update_eq_self]
    rfl
  · rw [hrep.nlink]
    rfl
  · exact hrep.dents i ((hrep.kind i).symm.trans hdir)

theorem make (hnode : node.type ≠ .dir) (hnlink : node.nlink = 1) :
    Represents (update ino i node) (t.make i node.type) := by
  refine hrep.update_node rfl ?_ (fun hdir => absurd hdir hnode) fun _ _ h => h
  rw [hnlink]
  rfl

theorem makeDir (hinv : t.Inv c) (hfree : t.kind i = .free) (hdir : t.kind d = .dir)
    (hnode : node.type = .dir) (hnlink : node.nlink = 1) (hdents : node.dents = [⟨i, dot⟩, ⟨d, dotdot⟩]) :
    Represents (update (update ino d { ino d with nlink := (ino d).nlink + 1 }) i node)
      (t.makeDir i d) := by
  have hdi : i ≠ d := by
    rintro rfl
    rw [hfree] at hdir
    cases hdir
  refine (hrep.addNlink 1).update_node ?_ ?_ (fun _ => ?_) fun e hei h => ?_
  · rw [hnode]
    rfl
  · rw [hnlink]
    exact update_comm hdi ..
  · have hup : (t.makeDir i d).up i = d := update_self ..
    rw [hup]
    refine ⟨[], hdents, fun k x j => iff_of_false (fun hmem => ?_) (by simp)⟩
    exact hinv.no_edge_of_not_dir (by rw [hfree]; decide) hmem
  · have hup : (t.makeDir i d).up e = t.up e := update_of_ne hei ..
    rw [hup]
    exact h

theorem reclaim : Represents (update ino i (ino i).freed) (t.reclaim i) := by
  refine hrep.update_node rfl ?_ nofun fun d hdi h => ?_
  · exact (update_eq_self_iff.mpr (hrep.nlink i)).symm
  · obtain ⟨rest, hdents, hedges⟩ := h
    refine ⟨rest, hdents, fun k x j => ?_⟩
    simp [Tree.reclaim, hdi, hedges]

theorem setDents {t' : Tree} (hkind : t'.kind = t.kind) (hnlink : t'.nlink = t.nlink) (hup : t'.up = t.up)
    (hother : ∀ e, e ≠ d → ∀ x i, (e, x, i) ∈ t'.edges ↔ (e, x, i) ∈ t.edges)
    (hself : t.kind d = .dir → Dents d (t.up d) t'.edges dents') :
    Represents (update ino d { ino d with dents := dents' }) t' := by
  refine hrep.update_node ?_ ?_ (fun hdir => ?_) fun e hed h => ?_
  · rw [hkind, hrep.kind, update_eq_self]
  · rw [hnlink, hrep.nlink, update_eq_self]
  · rw [hup]
    exact hself ((hrep.kind d).symm.trans hdir)
  · rw [hup]
    obtain ⟨rest, hdents, hedges⟩ := h
    exact ⟨rest, hdents, fun k x i => (hother e hed (k, x) i).trans (hedges k x i)⟩

end

/-! ### Writing a slot -/

theorem writeSlot_tail {a b : Dirent} {rest : List Dirent}
    (hwrite : writeSlot (a :: b :: rest) (k + 2) de = some dents') :
    ∃ rest', dents' = a :: b :: rest' ∧ ∀ l, rest'[l]? = if l = k then some de else rest[l]? := by
  unfold writeSlot at hwrite
  split_ifs at hwrite with hlt happend
  · refine ⟨rest.set k de, (Option.some.inj hwrite).symm, fun l => ?_⟩
    have hk : k < rest.length := by simpa using hlt
    rw [List.getElem?_set]
    by_cases hl : k = l
    · subst hl
      simp [hk]
    · simp [hl, Ne.symm hl]
  · have hk : k = rest.length := by simpa using happend.1
    refine ⟨rest ++ [de], (Option.some.inj hwrite).symm, fun l => ?_⟩
    subst hk
    rw [List.getElem?_append]
    by_cases hl : l = rest.length
    · simp [hl]
    · by_cases hlt : l < rest.length
      · simp [hl, hlt]
      · have hpos : l - rest.length ≠ 0 := by omega
        simp [hl, hlt, hpos]

theorem two_le_of_empty (hinv : t.Inv c) (hdir : t.kind d = .dir) {rest : List Dirent}
    (hempty : ∀ old, (⟨d, dot⟩ :: ⟨t.up d, dotdot⟩ :: rest : List Dirent)[k]? = some old →
      old.inum = 0) : ∃ l, k = l + 2 := by
  have hd : d ≠ 0 := hinv.ne_zero (by rw [hdir]; decide)
  match k, hempty with
  | 0, hempty => exact absurd (hempty ⟨d, dot⟩ rfl) hd
  | 1, hempty => exact absurd (hempty ⟨t.up d, dotdot⟩ rfl) (hinv.up_zero d hdir)
  | l + 2, _ => exact ⟨l, rfl⟩

theorem link (hrep : Represents ino t) (hinv : t.Inv c) (hdir : t.kind d = .dir)
    (hempty : ∀ old, (ino d).dents[k]? = some old → old.inum = 0) (hi : i ≠ 0)
    (hwrite : writeSlot (ino d).dents k ⟨i, x⟩ = some dents') : ∃ l, (∀ y j, (d, (l, y), j) ∉ t.edges) ∧
      Represents (update ino d { ino d with dents := dents' }) (t.link d (l, x) i) := by
  obtain ⟨rest, hdents, hedges⟩ := hrep.dents d hdir
  rw [hdents] at hempty hwrite
  obtain ⟨l, rfl⟩ := two_le_of_empty hinv hdir hempty
  have hnone : ∀ y j, (d, (l, y), j) ∉ t.edges := by
    intro y j hmem
    obtain ⟨hget, hj⟩ := (hedges l y j).mp hmem
    exact hj (hempty ⟨j, y⟩ (by simpa using hget))
  obtain ⟨rest', hdents', hrest'⟩ := writeSlot_tail hwrite
  refine ⟨l, hnone, hrep.setDents rfl rfl rfl (fun e he y j => ?_) fun _ => ?_⟩
  · simp [Tree.link, he]
  · refine ⟨rest', hdents', fun m y j => ?_⟩
    simp only [Tree.link, Finset.mem_insert, Prod.mk.injEq, true_and, hrest']
    by_cases hm : m = l
    · subst hm
      simp only [true_and, if_true, Option.some.injEq, Dirent.mk.injEq]
      constructor
      · rintro (⟨rfl, rfl⟩ | hold)
        · exact ⟨⟨rfl, rfl⟩, hi⟩
        · exact absurd hold (hnone y j)
      · rintro ⟨⟨rfl, rfl⟩, -⟩
        exact Or.inl ⟨rfl, rfl⟩
    · simp only [hm, false_and, false_or, if_false]
      exact hedges m y j

theorem unlink (hrep : Represents ino t) (hdir : t.kind d = .dir)
    (hget : (ino d).dents[k]? = some ⟨i, x⟩) (hi : i ≠ 0) (hx : ¬ IsDot x)
    (hwrite : writeSlot (ino d).dents k ⟨0, []⟩ = some dents') : ∃ l, (d, (l, x), i) ∈ t.edges ∧
      Represents (update ino d { ino d with dents := dents' }) (t.unlink d (l, x) i) := by
  obtain ⟨rest, hdents, hedges⟩ := hrep.dents d hdir
  rw [hdents] at hget hwrite
  obtain ⟨l, rfl⟩ : ∃ l, k = l + 2 := by
    match k, hget with
    | 0, hget =>
      cases hget
      exact absurd (.inl rfl) hx
    | 1, hget =>
      cases hget
      exact absurd (.inr rfl) hx
    | l + 2, _ => exact ⟨l, rfl⟩
  have hget' : rest[l]? = some ⟨i, x⟩ := by simpa using hget
  obtain ⟨rest', hdents', hrest'⟩ := writeSlot_tail hwrite
  refine ⟨l, (hedges l x i).mpr ⟨hget', hi⟩, hrep.setDents rfl rfl rfl (fun e he y j => ?_) fun _ => ?_⟩
  · simp [Tree.unlink, he]
  · refine ⟨rest', hdents', fun m y j => ?_⟩
    simp only [Tree.unlink, Finset.mem_erase, ne_eq, Prod.mk.injEq, true_and, hrest', hedges]
    by_cases hm : m = l
    · subst hm
      rw [hget']
      simp only [true_and, if_true, Option.some.injEq, Dirent.mk.injEq]
      constructor
      · rintro ⟨hne, ⟨rfl, rfl⟩, -⟩
        exact absurd ⟨rfl, rfl⟩ hne
      · rintro ⟨⟨rfl, rfl⟩, hne⟩
        exact absurd rfl hne
    · simp [hm]

end Represents

end Xv6.Fs
