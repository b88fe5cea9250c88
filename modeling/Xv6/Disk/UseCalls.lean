import Xv6.Disk.Use
import Xv6.Fs.Proof.SeqRun
import Mathlib.Data.Finset.Card

/-!
# Every call follows the rules

One lemma per function of `fs.c`, `file.c` and `sysfile.c`. The rules are monotone: knowing more, or
having logged less, a call may do as much. So a function's lemma starts from all that is known to hold
when it is called, as one state, and gives such a state for its end.
-/

namespace Xv6.Disk

open Fs

namespace Use

/-- All that `t` knows is known in `l`, with the same references. In a strict run `l` has logged no more
than `t`. -/
structure Knows (strict : Prop) (t l : Use) : Prop where
  refs : l.refs = t.refs
  cwd : l.cwd = t.cwd
  held : t.held ⊆ l.held
  ready : t.ready ⊆ l.ready
  dirs : t.dirs ⊆ l.dirs
  nondir : t.nondir ⊆ l.nondir
  live : t.live ⊆ l.live
  dead : t.dead ⊆ l.dead
  last : t.last ⊆ l.last
  pins : t.pins ⊆ l.pins
  files : t.files ⊆ l.files
  loose : l.loose ⊆ t.loose
  nodes : strict → l.nodes ⊆ t.nodes
  extra : strict → l.extra ≤ t.extra

variable {N : Nodes} {strict : Prop} {t t₁ l : Use} {ip : Inum} {m : Multiset Inum}

theorem Knows.refl : t.Knows strict t where
  refs := rfl
  cwd := rfl
  held := subset_rfl
  ready := subset_rfl
  dirs := subset_rfl
  nondir := subset_rfl
  live := subset_rfl
  dead := subset_rfl
  last := subset_rfl
  pins := subset_rfl
  files := subset_rfl
  loose := subset_rfl
  nodes _ := subset_rfl
  extra _ := le_rfl

theorem Knows.trans (h : t.Knows strict t₁) (h₁ : t₁.Knows strict l) : t.Knows strict l where
  refs := h₁.refs.trans h.refs
  cwd := h₁.cwd.trans h.cwd
  held := h.held.trans h₁.held
  ready := h.ready.trans h₁.ready
  dirs := h.dirs.trans h₁.dirs
  nondir := h.nondir.trans h₁.nondir
  live := h.live.trans h₁.live
  dead := h.dead.trans h₁.dead
  last := h.last.trans h₁.last
  pins := h.pins.trans h₁.pins
  files := h.files.trans h₁.files
  loose := h₁.loose.trans h.loose
  nodes hs := (h₁.nodes hs).trans (h.nodes hs)
  extra hs := (h₁.extra hs).trans (h.extra hs)

theorem Knows.less (h : t₁.Knows strict l) (hle : t.Knows strict t₁) : t.Knows strict l := hle.trans h

/-! ### The rules are monotone -/

theorem Knows.pre_of {o : Op} (h : t.Knows strict l) (hpre : pre N strict o t) : pre N strict o l := by
  cases o with
  | endOp => exact fun hs =>
    (Nat.add_le_add (Finset.card_le_card (h.nodes hs)) (h.extra hs)).trans_lt (hpre hs)
  | setCwd ip => exact fun i hi => h.refs ▸ hpre i hi
  | idup ip | decRef ip =>
    change ip ∈ l.refs
    exact h.refs ▸ hpre
  | load ip => exact .imp (fun hip => h.refs ▸ hip) (fun hip => h.pins hip) hpre
  | ifree ip => exact ⟨h.refs ▸ hpre.1, h.dead hpre.2.1, h.last hpre.2.2⟩
  | initInode ip | addNlink ip | readDirent ip | readProgram ip => exact h.ready hpre
  | writeDirent dp off de => exact ⟨h.ready hpre.1, hpre.2.1, fun hne => h.refs ▸ hpre.2.2 hne⟩
  | writei ip off src => exact ⟨h.ready hpre.1, h.nondir hpre.2.1, hpre.2.2⟩
  | fileInit f ip readable writable =>
    exact ⟨h.files hpre.1, h.refs ▸ hpre.2.1, h.live hpre.2.2.1, fun hw => h.nondir (hpre.2.2.2 hw)⟩
  | _ => exact hpre

theorem Knows.res_of {o : Op} {r : o.Res} (h : t.Knows strict l) (hres : res N strict o l r) :
    res N strict o t r := by
  cases o with
  | cwd => exact h.cwd.symm.trans hres
  | tryLock site ip => exact fun hr hip => hres hr (h.held hip)
  | waitLock ip => exact fun hip => hres (h.held hip)
  | ref ip =>
    obtain ⟨hle, hspare⟩ := hres
    rw [h.refs] at hle hspare
    exact ⟨hle, fun hs hip hdead hnot => hspare hs hip (h.dead hdead) fun hl => hnot (h.loose hl)⟩
  | readDirent dp off => exact fun hdir => hres (h.dirs hdir)
  | fileDrop f =>
    cases r with
    | last ff => exact fun hf => hres (h.files hf)
    | _ => trivial
  | _ => exact hres

theorem Knows.next_of {o : Op} (h : t.Knows strict l) (r : o.Res) :
    (next o t r).Knows strict (next o l r) := by
  cases o with
  | beginOp => exact { h with nodes := fun _ => subset_rfl, extra := fun _ => le_rfl }
  | setCwd ip => exact { h with cwd := rfl }
  | igetEntry ip =>
    cases r with
    | false => exact h
    | true => exact { h with refs := congrArg (ip ::ₘ ·) h.refs, dead := subset_rfl, last := subset_rfl }
  | idup ip => exact { h with refs := congrArg (ip ::ₘ ·) h.refs, last := subset_rfl }
  | tryLock site ip =>
    cases r with
    | false => exact h
    | true => exact { h with held := Set.insert_subset_insert h.held }
  | waitLock ip => exact { h with held := Set.insert_subset_insert h.held }
  | unlock ip => exact { h with held := Set.sdiff_subset_sdiff_left h.held }
  | load ip => exact
      { h with
        ready := Set.union_subset_union_left _ h.ready
        live := Set.union_subset_union_left _ h.live
        dead := subset_rfl }
  | fields ip => exact
      { h with
        dirs := Set.union_subset_union h.dirs fun _ hx => ⟨hx.1, h.ready hx.2.1, hx.2.2⟩
        nondir := Set.union_subset_union h.nondir fun _ hx => ⟨hx.1, h.ready hx.2.1, hx.2.2⟩
        dead := subset_rfl }
  | ref ip => exact { h with last := subset_rfl }
  | decRef ip => exact
      { h with
        refs := congrArg (Multiset.erase · ip) h.refs
        ready := Set.sdiff_subset_sdiff_left h.ready
        last := subset_rfl }
  | ifree ip => exact
      { h with
        ready := Set.sdiff_subset_sdiff_left h.ready
        dirs := Set.sdiff_subset_sdiff_left h.dirs
        live := Set.sdiff_subset_sdiff_left h.live
        dead := subset_rfl
        nodes := fun hs => Finset.insert_subset_insert ip (h.nodes hs) }
  | iallocEntry type =>
    cases r with
    | none => exact h
    | some i =>
      refine { h with
        nondir := ?_
        loose := Set.union_subset_union_left _ h.loose
        dead := subset_rfl
        nodes := fun hs => Finset.insert_subset_insert i (h.nodes hs) }
      change (if type = .dir then t.nondir \ {i} else t.nondir ∪ {i})
        ⊆ if type = .dir then l.nondir \ {i} else l.nondir ∪ {i}
      split_ifs
      · exact Set.sdiff_subset_sdiff_left h.nondir
      · exact Set.union_subset_union_left _ h.nondir
  | initInode ip | addNlink ip => exact
      { h with
        loose := Set.union_subset_union_left _ h.loose
        dead := subset_rfl
        nodes := fun hs => Finset.insert_subset_insert ip (h.nodes hs) }
  | writeDirent ip | writei ip => exact
      { h with
        dead := subset_rfl
        nodes := fun hs => Finset.insert_subset_insert ip (h.nodes hs)
        extra := fun hs => Nat.add_le_add_right (h.extra hs) _ }
  | filealloc => exact { h with files := Set.union_subset_union_left _ h.files }
  | file f => exact
      { h with
        pins := Set.union_subset_union_left _ h.pins
        nondir := Set.union_subset_union_left _ h.nondir }
  | fileInit f ip => exact
      { h with
        refs := congrArg (Multiset.erase · ip) h.refs
        ready := Set.sdiff_subset_sdiff_left h.ready
        files := Set.sdiff_subset_sdiff_left h.files }
  | fileDrop f =>
    cases r with
    | last ff => exact
        { h with
          refs := congrArg (fun m => ff.ip.elim m (· ::ₘ m)) h.refs
          ready := subset_rfl
          pins := subset_rfl
          loose := Set.union_subset_union_left _ h.loose
          files := Set.sdiff_subset_sdiff_left h.files }
    | _ => exact h
  | _ => exact h

/-! ### What a call comes to have and to know -/

def calm (t : Use) : Use := { t with dead := ∅, last := ∅ }

/-- Only the references `m` and the call's earlier changes are known. -/
def bare (t : Use) (m : Multiset Inum) : Use :=
  { t.calm with refs := m, held := ∅, ready := ∅, dirs := ∅, live := ∅ }

def lock (t : Use) (ip : Inum) : Use :=
  { t.calm with held := insert ip t.held, ready := insert ip t.ready, live := insert ip t.live }

/-- The last reference but those of `m` is gone; the inodes of `ns` may have been logged. -/
def drop (t : Use) (ip : Inum) (m : Multiset Inum) (ns : Finset Inum) : Use :=
  { t.calm with
    refs := m
    held := t.held \ {ip}
    ready := t.ready \ {ip}
    dirs := t.dirs \ {ip}
    live := t.live \ {ip}
    nodes := ns }

theorem knows_calm : t.calm.Knows strict t :=
  { Knows.refl with dead := Set.empty_subset _, last := Set.empty_subset _ }

theorem Knows.bare_of (h : t.Knows strict l) (hrefs : t.refs = m) : (t.bare m).Knows strict l :=
  h.less { knows_calm with
    refs := hrefs
    held := Set.empty_subset _
    ready := Set.empty_subset _
    dirs := Set.empty_subset _
    live := Set.empty_subset _ }

end Use

open Use

/-- From every state in which as much is known as in `t`, the code follows the rules. -/
abbrev Follows (N : Nodes) (strict : Prop) {α : Type} (x : FsM α) (t : Use) (post : α → Use → Prop) : Prop :=
  x.Spec (useProtocol N strict) (Knows strict) t post

section Functions

variable {N : Nodes} {strict : Prop} {α : Type} {t t₁ : Use} {ip dp : Inum} {m : Multiset Inum}
  {ns : Finset Inum}

namespace Follows

variable {post : α → Use → Prop}

theorem weaken {x : FsM α} (hx : Follows N strict x t post) (h : t.Knows strict t₁) :
    Follows N strict x t₁ post :=
  fun l hl => hx l (h.trans hl)

theorem op (o : Op) {f : o.Res → FsM α} (hpre : Use.pre N strict o t)
    (hf : ∀ r, Use.res N strict o t r → Follows N strict (f r) (Use.next o t r) post) :
    Follows N strict (atomic o >>= f) t post :=
  fun _ h => ⟨h.pre_of hpre, fun r hr => hf r (h.res_of hr) _ (h.next_of r)⟩

theorem last (o : Op) {post : o.Res → Use → Prop} (hpre : Use.pre N strict o t)
    (hpost : ∀ r, Use.res N strict o t r → ∀ l, (Use.next o t r).Knows strict l → post r l) :
    Follows N strict (atomic o) t post :=
  fun _ h => ⟨h.pre_of hpre, fun r hr => hpost r (h.res_of hr) _ (h.next_of r)⟩

theorem panic {msg : Panic} : Follows N strict (Fs.panic msg : FsM α) t post :=
  fun _ _ => ⟨trivial, fun r => r.elim⟩

theorem fields {f : InodeFields → FsM α} (hf : ∀ r, Follows N strict (f r) t.calm post) :
    Follows N strict (Fs.fields ip >>= f) t post :=
  .op (.fields ip) trivial fun r _ => (hf r).weaken
    { knows_calm with
      dirs := Set.subset_union_left
      nondir := Set.subset_union_left
      dead := Set.empty_subset _ }

end Follows

/-! ### The inode layer -/

def Use.take (t : Use) (ip : Inum) : Use := { t.calm with refs := ip ::ₘ t.refs }

theorem iget_follows (hip : ip ∈ N.named) : Follows N strict (iget ip) t fun _ => (t.take ip).Knows strict := by
  refine .op (.igetEntry ip) hip fun r _ => ?_
  cases r with
  | false => exact .panic
  | true => exact fun _ h => h

theorem acquiresleep_follows {site : LockSite} : Follows N strict (acquiresleep site ip) t fun _ l =>
      ip ∉ t.held ∧ Knows strict { t with held := insert ip t.held } l := by
  refine .op (.tryLock site ip) trivial fun r hr => ?_
  cases r with
  | true => exact fun _ h => ⟨hr rfl, h⟩
  | false => exact .last (.waitLock ip) trivial fun _ hr _ h => ⟨hr, h⟩

theorem ilock_follows (hip : t.Refers ip) :
    Follows N strict (ilock ip) t fun _ l => ip ∉ t.held ∧ (t.lock ip).Knows strict l := by
  refine Follows.op (.ref ip) trivial fun r _ => ?_
  split_ifs
  · exact .panic
  refine .seq_and acquiresleep_follows fun _ hnot => Follows.op (.load ip) hip fun type _ => ?_
  split_ifs with htype
  · exact Follows.panic
  refine fun _ h => ⟨hnot, h.less { Knows.refl with ready := ?_, live := ?_, last := Set.empty_subset _ }⟩
  · exact Set.insert_subset (.inr ⟨rfl, htype⟩) Set.subset_union_left
  · exact Set.insert_subset (.inr ⟨rfl, htype⟩) Set.subset_union_left

theorem iunlock_follows :
    Follows N strict (iunlock ip) t fun _ => Knows strict { t.calm with held := t.held \ {ip} } := by
  refine .op (.holdingsleep ip) trivial fun b _ => ?_
  cases b with
  | false => exact .panic
  | true =>
    refine .op (.ref ip) trivial fun r _ => ?_
    split_ifs
    · exact .panic
    · exact .last (.unlock ip) trivial fun _ _ _ h => h.less
        { Knows.refl with dead := Set.empty_subset _, last := Set.empty_subset _ }

/-- `iput` frees an inode only if no other reference to it must exist, as one does to every inode whose
links have not changed. -/
theorem iput_follows (hrefs : t.refs = ip ::ₘ m) (hns : t.nodes ⊆ ns)
    (hfree : ip ∈ ns ∨ ∀ i ∈ t.loose, i ∈ m) :
    Follows N strict (iput ip) t fun _ => (t.drop ip m ns).Knows strict := by
  have hmem : ip ∈ t.refs := hrefs ▸ Multiset.mem_cons_self ip m
  refine .seq_and acquiresleep_follows fun _ _ => Follows.op (.fields ip) trivial fun f _ => ?_
  -- the last two steps, from a state that still has the reference and the lock
  have hend : ∀ t₁ : Use, ({ t.drop ip m ns with refs := t.refs } : Use).Knows strict t₁ →
      Follows N strict (releasesleep ip >>= fun _ => atomic (.decRef ip)) t₁
        fun _ => (t.drop ip m ns).Knows strict := by
    intro t₁ h₁
    refine Follows.op (.unlock ip) trivial fun _ _ => Follows.last (.decRef ip) (h₁.refs.symm ▸ hmem : ip ∈ t₁.refs)
      fun _ _ l h => ?_
    refine h.less { h₁ with refs := ?_, held := ?_, ready := ?_, last := subset_rfl }
    · change t₁.refs.erase ip = m
      rw [h₁.refs]
      exact (congrArg (Multiset.erase · ip) hrefs).trans (Multiset.erase_cons_head ..)
    · exact fun i hi => ⟨h₁.held hi, hi.2⟩
    · exact fun i hi => ⟨h₁.ready hi, hi.2⟩
  have hkept : ∀ t₁ : Use, (t.drop ip t.refs t.nodes).Knows strict t₁ →
      ({ t.drop ip m ns with refs := t.refs } : Use).Knows strict t₁ :=
    fun t₁ h₁ => { h₁ with nodes := fun hs => (h₁.nodes hs).trans hns }
  have hquiet : (t.drop ip t.refs t.nodes).Knows strict
      (.next (.fields ip) { t with held := insert ip t.held } f) :=
    { Knows.refl with
      held := fun _ hi => .inr hi.1
      ready := Set.sdiff_subset
      dirs := fun _ hi => .inl hi.1
      nondir := Set.subset_union_left
      live := Set.sdiff_subset
      dead := Set.empty_subset _
      last := Set.empty_subset _ }
  by_cases hdead : f.valid = true ∧ f.nlink = 0
  · simp only [hdead, and_self, if_true]
    refine .op (.ref ip) trivial fun r hr => ?_
    by_cases hone : r = 1
    · subst hone
      simp only [if_true]
      refine .op (.ifree ip) ⟨hmem, ⟨rfl, hdead⟩, rfl, rfl⟩ fun _ _ => hend _ ?_
      refine { hquiet with
        ready := fun i hi => ⟨hi.1, hi.2⟩
        dirs := fun i hi => ⟨.inl hi.1, hi.2⟩
        live := fun i hi => ⟨hi.1, hi.2⟩
        dead := Set.empty_subset _
        last := Set.empty_subset _
        nodes := fun hs => Finset.insert_subset ?_ hns }
      -- a strict run has seen another reference, unless the inode's links have changed
      rcases hfree with hip | htight
      · exact hip
      have hcount : t.refs.count ip ≤ 1 := hr.1
      rw [hrefs, Multiset.count_cons_self] at hcount
      have hlast : ip ∉ m := fun hip => by
        have hpos := Multiset.count_pos.mpr hip
        omega
      have hspare : t.refs.count ip + 1 ≤ 1 := hr.2 hs hmem ⟨rfl, hdead⟩ fun hl => hlast (htight ip hl)
      rw [hrefs, Multiset.count_cons_self] at hspare
      omega
    · simp only [hone, if_false]
      exact hend _ (hkept _ { hquiet with last := Set.empty_subset _ })
  · simp only [hdead, if_false]
    exact hend _ (hkept _ hquiet)

theorem iunlockput_follows (hrefs : t.refs = ip ::ₘ m) (hns : t.nodes ⊆ ns)
    (hfree : ip ∈ ns ∨ ∀ i ∈ t.loose, i ∈ m) :
    Follows N strict (iunlockput ip) t fun _ => (t.drop ip m ns).Knows strict :=
  .seq iunlock_follows fun _ => .mono (iput_follows hrefs hns hfree) fun _ _ h =>
    h.less { Knows.refl with held := fun _ hi => ⟨hi, hi.2⟩ }

def Use.made (t : Use) (type : FileType) (ip : Inum) : Use :=
  { Use.next (.iallocEntry type) t (some ip) with refs := ip ::ₘ t.refs, dead := ∅, last := ∅ }

theorem ialloc_follows {type : FileType} :
    Follows N strict (ialloc type) t fun ip => (t.made type ip).Knows strict := by
  refine .op (.iallocEntry type) trivial fun r hr => ?_
  cases r with
  | none => exact .panic
  | some i => exact .seq (iget_follows (hr i rfl)) fun _ _ h => h

/-! ### Directories and paths -/

def Use.looked (t : Use) : Option (Inum × Nat) → Use
  | none => t.calm
  | some (ip, _) => t.take ip

theorem dirlookupFrom_follows {name : Name} (k off : Nat) (hready : dp ∈ t.ready) (hdir : dp ∈ t.dirs)
    (hoff : direntSize ∣ off) : Follows N strict (dirlookupFrom dp name k off) t fun r l =>
      (∀ x, r = some x → direntSize ∣ x.2) ∧ (t.looked r).Knows strict l := by
  induction k generalizing off with
  | zero => exact fun _ h => ⟨nofun, knows_calm.trans h⟩
  | succ k ih =>
    refine .op (.readDirent dp off) hready fun r hr => ?_
    have hnext := ih (off + direntSize) (Nat.dvd_add hoff (Nat.dvd_refl _))
    cases r with
    | none => exact .panic
    | some de =>
      dsimp only
      split_ifs with hzero
      · exact hnext
      · refine .seq (iget_follows (hr hdir hoff de rfl hzero)) fun _ _ h => ⟨fun x hx => ?_, h⟩
        obtain rfl := Option.some.inj hx
        exact hoff
      · exact hnext

theorem dirlookup_follows {name : Name} (hready : dp ∈ t.ready) :
    Follows N strict (dirlookup dp name) t fun r l =>
      (∀ x, r = some x → direntSize ∣ x.2) ∧ (t.looked r).Knows strict l := by
  refine .op (.fields dp) trivial fun f _ => ?_
  split_ifs with hdir
  · exact .panic
  · refine .mono (dirlookupFrom_follows _ _ (by exact hready) (.inr ⟨rfl, hready, not_not.mp hdir⟩)
      (Nat.dvd_zero _)) fun r l h => ⟨h.1, ?_⟩
    cases r <;>
      exact h.2.less { Knows.refl with dirs := Set.subset_union_left, nondir := Set.subset_union_left }

theorem emptyDirent_follows (k off : Nat) (hready : dp ∈ t.ready) (hoff : direntSize ∣ off) :
    Follows N strict (emptyDirent dp k off) t fun r l => direntSize ∣ r ∧ t.Knows strict l := by
  induction k generalizing off with
  | zero => exact fun _ h => ⟨hoff, h⟩
  | succ k ih =>
    refine .op (.readDirent dp off) hready fun r _ => ?_
    cases r with
    | none => exact .panic
    | some de =>
      dsimp only
      split_ifs
      · exact fun _ h => ⟨hoff, h⟩
      · exact ih (off + direntSize) (Nat.dvd_add hoff (Nat.dvd_refl _))

/-- An entry written, or a name found: then another inode has been looked at. -/
def Use.linked (t : Use) (ns : Finset Inum) (b : Bool) : Use :=
  if b then { t.calm with nodes := ns, extra := t.extra + 2 } else t.bare t.refs

theorem dirlink_follows {name : Name} {inum : Inum} (hready : dp ∈ t.ready) (hinum : inum ∈ t.refs)
    (hloose : ∀ i ∈ t.loose, i ∈ t.refs) (hns : insert dp t.nodes ⊆ ns) :
    Follows N strict (dirlink dp name inum) t fun b => (t.linked ns b).Knows strict := by
  refine .seq_and (dirlookup_follows hready) fun r _ => ?_
  cases r with
  | some found =>
    exact .seq (iput_follows rfl subset_rfl (.inr hloose)) fun _ _ h => h.bare_of rfl
  | none =>
    refine Follows.fields fun f => .seq_and (emptyDirent_follows _ _ hready (Nat.dvd_zero _)) fun off hoff => ?_
    refine Follows.op (.writeDirent dp off ⟨inum, name⟩) ⟨hready, hoff, fun _ => hinum⟩ fun b _ => ?_
    cases b with
    | false => exact .panic
    | true => exact fun _ h => h.less { Knows.refl with nodes := fun _ => hns }

theorem isdiremptyFrom_follows (k off : Nat) (hready : dp ∈ t.ready) :
    Follows N strict (isdiremptyFrom dp k off) t fun _ => t.Knows strict := by
  induction k generalizing off with
  | zero => exact fun _ h => h
  | succ k ih =>
    refine .op (.readDirent dp off) hready fun r _ => ?_
    cases r with
    | none => exact .panic
    | some de =>
      dsimp only
      split_ifs
      · exact fun _ h => h
      · exact ih (off + direntSize)

theorem isdirempty_follows (hready : dp ∈ t.ready) :
    Follows N strict (isdirempty dp) t fun _ => t.calm.Knows strict :=
  .fields fun _ => isdiremptyFrom_follows _ _ hready

/-- A walk ends with one reference more, or with those it started with; it logs nothing. -/
theorem namexElems_follows {parent : Bool} (names : List Name) (hloose : ∀ i ∈ t.loose, i ∈ m) :
    Follows N strict (namexElems parent names ip) (t.bare (ip ::ₘ m)) fun r =>
      (t.bare (r.elim m (·.1 ::ₘ m))).Knows strict := by
  induction names generalizing ip with
  | nil =>
    cases parent with
    | false => exact fun _ h => h
    | true =>
      exact .seq (iput_follows rfl subset_rfl (.inr hloose)) fun _ _ h => h.bare_of rfl
  | cons name rest ih =>
    refine .seq_and (ilock_follows (.inl (Multiset.mem_cons_self ip m))) fun _ _ =>
      Follows.fields fun f => ?_
    have hgiveUp : Follows N strict (iunlockput ip >>= fun _ => (pure none : FsM (Option (Inum × Name))))
        ((t.bare (ip ::ₘ m)).lock ip).calm fun r => (t.bare (r.elim m (·.1 ::ₘ m))).Knows strict :=
      .seq (iunlockput_follows rfl subset_rfl (Or.inr hloose)) fun _ _ h => h.bare_of rfl
    split_ifs
    · exact hgiveUp
    · exact .seq iunlock_follows fun _ _ h => h.bare_of rfl
    · refine .seq_and (dirlookup_follows (.inl rfl)) fun r _ => ?_
      cases r with
      | none => exact hgiveUp
      | some found =>
        refine .seq (iunlockput_follows (Multiset.cons_swap ..) subset_rfl
          (.inr fun i hi => Multiset.mem_cons_of_mem (hloose i hi))) fun _ => ?_
        exact fun l h => ih l (h.bare_of rfl)

theorem namex_follows {path : Path} {parent : Bool} (hroot : rootino ∈ N.named)
    (hcwd : ∀ c, t.cwd = some c → c ∈ m) (hloose : ∀ i ∈ t.loose, i ∈ m) :
    Follows N strict (namex path parent) (t.bare m) fun r =>
      (t.bare (r.elim m (·.1 ::ₘ m))).Knows strict := by
  have hstart : Follows N strict (namexStart path) (t.bare m) fun ip => (t.bare (ip ::ₘ m)).Knows strict := by
    unfold namexStart
    split_ifs
    · exact .seq (iget_follows hroot) fun _ _ h => h
    · exact .op .cwd trivial fun ip hip => .op (.idup ip) (hcwd ip hip) fun _ _ _ h => h
  rw [namex_eq]
  exact .seq hstart fun ip => namexElems_follows (elems path) hloose

theorem namei_follows {path : Path} (hroot : rootino ∈ N.named) (hcwd : ∀ c, t.cwd = some c → c ∈ m)
    (hloose : ∀ i ∈ t.loose, i ∈ m) : Follows N strict (namei path) (t.bare m) fun r =>
      (t.bare (r.elim m (· ::ₘ m))).Knows strict := by
  refine .seq (namex_follows hroot hcwd hloose) fun r => ?_
  cases r with
  | none | some found => exact fun _ h => h

end Functions

end Xv6.Disk
