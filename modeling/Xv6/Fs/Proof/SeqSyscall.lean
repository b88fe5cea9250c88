import Xv6.Fs.Proof.SeqCalls

/-!
# What each system call does to the tree

Each call starts and ends without credit. What it holds at the end is what it held before, but for
the current directory after `chdir` and the file after `open`.
-/

namespace Xv6.Fs

open Function (update update_of_ne)

open Xv6.Fs.Tree

variable {n : Nat} {φ : Flags} {G : Op → State n → Prop} [∀ o s, Decidable (G o s)] {p : Fin n}
  {s : State n} {t : Tree} {c refs m : Multiset Inum} {w : Option Inum} {ip dp : Inum}

/-! ### Creating -/

def newNode (type : FileType) (major minor : Int) (dents : List Dirent) : Inode :=
  { Inode.fresh type with major := major, minor := minor, nlink := 1, dents := dents }

variable {type : FileType} {major minor : Int}

theorem ialloc_runs :
    Runs φ G p (ialloc type) s fun ip s' => ip ≠ 0 ∧ ip < s.ninodes ∧ (s.ino ip).type = .free ∧
      ((s.setIno ip (.fresh type)).setRef ip (s.ref ip + 1)).Same s' := by
  cases hfree : s.freeInum with
  | none =>
    refine Runs.step (.iallocEntry type) (none, s) ?_ trivial fun _ => Runs.panic trivial
    simp [State.exec, State.iallocEntry, hfree]
  | some ip =>
    refine .step (.iallocEntry type) (some ip, s.setIno ip (.fresh type)) ?_ trivial fun _ => ?_
    · simp [State.exec, State.iallocEntry, hfree]
    · refine .seq iget_same ?_
      intro _ s' hsame
      have hfound := List.find?_some hfree
      have hmem := List.mem_of_find?_eq_some hfree
      simp only [decide_eq_true_eq] at hfound
      exact ⟨Nat.one_le_iff_ne_zero.mp hfound.1, List.mem_range.mp hmem, hfound.2, hsame⟩

theorem create_init_runs {α : Type} {rest : Inum → FsM α} {post : α → State n → Prop} (htype : type ≠ .free)
    (hrest : ∀ ip s', ip ≠ 0 → ip < s.ninodes → (s.ino ip).type = .free →
      ((s.setIno ip (newNode type major minor [])).setRef ip (s.ref ip + 1)).Same s' →
      Runs φ G p (rest ip) s' post) :
    Runs φ G p (do
      let ip ← ialloc type
      ilock ip
      initInode ip major minor
      rest ip) s post := by
  refine Runs.seq ialloc_runs ?_
  rintro ip s₁ ⟨hzero, hbound, hfree, hsame₁⟩
  have hino₁ : (s₁.ino ip) = .fresh type := by
    rw [hsame₁.ino]
    simp [State.setIno, State.setRef]
  refine Runs.seq (ilock_same fun _ => ?_) ?_
  · rw [hino₁]
    exact htype
  · rintro _ s₂ ⟨hsame₂, -⟩
    refine Runs.step (.initInode ip major minor) ((), s₂.initInode ip major minor) rfl trivial
      fun _ => hrest ip _ hzero hbound hfree ?_
    have hsame := hsame₁.trans hsame₂
    refine .of_eq ?_ hsame.ref hsame.cwd hsame.file hsame.ninodes
    change update s₂.ino ip _ = update s.ino ip _
    rw [hsame.ino]
    simp [State.setIno, State.setRef, newNode, Inode.fresh]

/-- The end of `create`: the new inode is in the tree `t'`, and gets its name. -/
theorem create_dirlink_runs (hG : Guards φ G) {name : Name} {ino : Inum → Inode}
    {t' : Tree} {s₁ : State n} (hinv : SeqInv φ p s t 0 (dp ::ₘ refs) w)
    (hown : ∀ i, w = some i → i ∈ refs) (htype : type ≠ .free) (hbound : ip < s.ninodes)
    (hfree : t.kind ip = .free) (hrep : Represents ino t') (hok : t'.Ok φ (t'.entryCredit dp ip))
    (hself : t'.kind ip = type) (hkind : ∀ j, j ≠ ip → t'.kind j = t.kind j)
    (hsame : (State.setRef { s with ino := ino } ip (s.ref ip + 1)).Same s₁)
    (hup : type = .dir → t'.up ip = dp ∧ t'.names ip = 0)
    (hlinked : φ.exact → 0 < t'.nlink dp → t'.Linked dp) : Runs φ G p (do
      if ← dirlink dp name ip then do
        iunlockput dp
        pure (some ip)
      else
        panic .createDirlink : FsM (Option Inum)) s₁ fun r s' =>
          ∃ ip t', r = some ip ∧ SeqInv φ p s' t' 0 (ip ::ₘ refs) w ∧ t'.kind ip = type := by
  have hown' : ∀ i, w = some i → i ∈ dp ::ₘ refs := fun i hi => Multiset.mem_cons_of_mem (hown i hi)
  have hinv₁ := ((hinv.setInoNew hrep hok hbound hfree hkind).addRef (fun _ => hself ▸ htype)
    hown').congr hsame
  rw [← Multiset.add_zero (t'.entryCredit dp ip)] at hinv₁
  refine .seq (dirlink_runs hG hinv₁ (fun i hi => Multiset.mem_cons_of_mem (hown' i hi))
    (hinv.ok.inv.ne_root_of_free hfree) (fun h => hup (hself.symm.trans h)) fun he _ => hlinked he) ?_
  intro ok s₂ hres
  cases ok with
  | false => exact .panic trivial
  | true =>
    obtain ⟨t₂, hinv₂, hkind₂⟩ := hres
    rw [Multiset.cons_swap] at hinv₂
    refine .seq (iunlockput_runs hG hinv₂) ?_
    rintro _ s₃ ⟨t₃, hinv₃, hshrinks⟩
    refine ⟨ip, t₃, rfl, hinv₃, ?_⟩
    rw [hshrinks.kind ip (Multiset.mem_cons_self _ _), hkind₂, hself]

theorem create_new_runs (hG : Guards φ G) {name : Name}
    (hinv : SeqInv φ p s t 0 (dp ::ₘ refs) w) (hown : ∀ i, w = some i → i ∈ refs)
    (hdir : t.kind dp = .dir) (htype : type ≠ .free) : Runs φ G p (do
      let ip ← ialloc type
      ilock ip
      initInode ip major minor
      if type = .dir then do
        addNlink dp 1
        createDots ip dp
      if ← dirlink dp name ip then do
        iunlockput dp
        pure (some ip)
      else
        panic .createDirlink : FsM (Option Inum)) s fun r s' =>
          ∃ ip t', r = some ip ∧ SeqInv φ p s' t' 0 (ip ::ₘ refs) w ∧ t'.kind ip = type := by
  refine create_init_runs htype fun ip s₁ hzero hbound hfree hsame => ?_
  have hfree' : t.kind ip = .free := (hinv.rep.kind ip).symm.trans hfree
  have hdi : dp ≠ ip := by
    rintro rfl
    rw [hfree'] at hdir
    cases hdir
  have hlinked : φ.exact → 0 < t.nlink dp → t.Linked dp := fun he =>
    (hinv.ok.exact he).linked (d := dp) (by rw [hdir]; decide) (by simp)
  by_cases hisdir : type = .dir
  · subst hisdir
    simp only [if_true]
    have hino₁ : s₁.ino = update s.ino ip (newNode .dir major minor []) := hsame.ino
    refine .step (.addNlink dp 1) ((), s₁.addNlink dp 1) rfl trivial fun hG' => ?_
    refine .seq (createDots_runs ?_ ?_ hzero) ?_
    · simp [State.addNlink, State.setIno, hino₁, update_of_ne hdi.symm, newNode, Inode.fresh]
    · simp [State.addNlink, State.setIno, hino₁, update_of_ne hdi.symm, newNode]
    · rintro _ s₂ rfl
      -- the two inodes that have changed since the start
      have hino₂ : ((s₁.addNlink dp 1).setIno ip { (s₁.addNlink dp 1).ino ip with
          dents := [⟨ip, dot⟩, ⟨dp, dotdot⟩] }).ino = update (update s.ino dp
            { s.ino dp with nlink := (s.ino dp).nlink + 1 }) ip
              (newNode .dir major minor [⟨ip, dot⟩, ⟨dp, dotdot⟩]) := by
        funext j
        by_cases hji : j = ip
        · subst hji
          simp [State.addNlink, State.setIno, hino₁, update_of_ne hdi.symm, newNode]
        · by_cases hjd : j = dp
          · subst hjd
            simp [State.addNlink, State.setIno, hino₁, update_of_ne hji]
          · simp [State.addNlink, State.setIno, hino₁, update_of_ne hji, update_of_ne hjd]
      have hself : (t.makeDir ip dp).kind ip = .dir := by simp [Tree.makeDir]
      have hentry : (t.makeDir ip dp).entryCredit dp ip = ip ::ₘ dp ::ₘ 0 := if_pos hself
      refine create_dirlink_runs hG hinv hown htype hbound hfree'
        (hinv.rep.makeDir hinv.ok.inv hfree' hdir rfl rfl rfl) ?_ hself (fun j hj => ?_)
        (.of_eq hino₂ hsame.ref hsame.cwd hsame.file hsame.ninodes) (fun _ => ⟨?_, ?_⟩)
        fun he _ => hlinked he ?_
      · rw [hentry]
        exact ⟨hinv.ok.inv.makeDir hzero hfree' hdir, fun hd => hinv.ok.distinct hd,
          fun he => (hinv.ok.exact he).makeDir hinv.ok.inv hfree' hdir,
          fun hl => (hinv.ok.up hl).makeDir hdir⟩
      · simp [Tree.makeDir, update_of_ne hj]
      · simp [Tree.makeDir]
      · exact hinv.ok.inv.names_free hfree'
      · -- the guard was met before `dp->nlink++`
        have hpos := hG.exact he _ _ hG' Int.one_pos
        rw [hino₁, update_of_ne hdi, hinv.rep.kind, hinv.rep.nlink] at hpos
        exact hpos hdir
  · simp only [hisdir, if_false]
    have hself : (t.make ip type).kind ip = type := by simp [Tree.make]
    have hentry : (t.make ip type).entryCredit dp ip = ip ::ₘ 0 := if_neg (by rwa [hself])
    have hrep : Represents (update s.ino ip (newNode type major minor [])) (t.make ip type) :=
      hinv.rep.make hisdir rfl
    refine create_dirlink_runs hG hinv hown htype hbound hfree' hrep ?_ hself
      (fun j hj => ?_) hsame (fun h => absurd h hisdir) fun he hpos => hlinked he ?_
    · rw [hentry]
      exact ⟨hinv.ok.inv.make hzero hfree' (fun h => absurd h hisdir) htype, fun hd => hinv.ok.distinct hd,
        fun he => (hinv.ok.exact he).make hinv.ok.inv hfree', fun hl => (hinv.ok.up hl).make hfree' hisdir⟩
    · simp [Tree.make, update_of_ne hj]
    · simpa [Tree.make, update_of_ne hdi] using hpos

theorem create_runs (hG : Guards φ G) {path : Path}
    (hinv : SeqInv φ p s t 0 refs w) (hown : ∀ i, w = some i → i ∈ refs) (htype : type ≠ .free) :
    Runs φ G p (create path type major minor) s fun r s' => ∃ t',
      match r with
      | none => SeqInv φ p s' t' 0 refs w
      | some ip => SeqInv φ p s' t' 0 (ip ::ₘ refs) w ∧ t'.kind ip = type := by
  refine nameiparent_ilock_runs hG hinv hown (fun _ t' hinv' => ⟨t', hinv'⟩) fun dp name s₂ t₁ hinv₂ _ => ?_
  refine .seq (dirlookup_runs hinv₂ fun i hi => Multiset.mem_cons_of_mem (hown i hi)) ?_
  rintro r s₃ ⟨-, hdir, hr⟩
  cases r with
  | none =>
    refine (create_new_runs hG hr.1 hown hdir htype).mono ?_
    rintro r s' ⟨ip, t', rfl, hinv', hkind⟩
    exact ⟨t', hinv', hkind⟩
  | some found =>
    obtain ⟨ip, off⟩ := found
    have hinv₃ : SeqInv φ p s₃ t₁ 0 (dp ::ₘ ip ::ₘ refs) w := by
      rw [Multiset.cons_swap]
      exact hr.1
    refine .seq (iunlockput_runs hG hinv₃) ?_
    rintro _ s₄ ⟨t₄, hinv₄, -⟩
    refine .seq (ilock_runs hinv₄ fun hl => hinv₄.live hl ip (Multiset.mem_cons_self _ _)) ?_
    rintro _ s₅ ⟨hinv₅, -, -⟩
    refine .step (.fields ip) (s₅.fields ip, s₅) rfl trivial fun _ => ?_
    by_cases hfile : type = .file ∧ (s₅.fields ip).type = .file
    · simp only [hfile, and_self, if_true]
      exact ⟨t₄, hinv₅, ((hinv₅.rep.kind ip).symm.trans hfile.2)⟩
    · simp only [hfile, if_false]
      refine .seq (iunlockput_runs hG hinv₅) ?_
      rintro _ s₆ ⟨t₆, hinv₆, -⟩
      exact ⟨t₆, hinv₆⟩

/-! ### The calls on names -/

/-- The end of a call of process `p`: no credit, and its current directory is among its
references. -/
def Finished (φ : Flags) (p : Fin n) (s' : State n) : Prop :=
  ∃ t' refs' w', SeqInv φ p s' t' 0 refs' w' ∧ ∀ i, w' = some i → i ∈ refs'

theorem endOp_runs (r : Int) (hinv : SeqInv φ p s t 0 refs w) (hown : ∀ i, w = some i → i ∈ refs) :
    Runs φ G p (do endOp; pure r : FsM Int) s fun _ => Finished φ p :=
  .step .endOp ((), s) rfl trivial fun _ => ⟨t, refs, w, hinv, hown⟩

theorem iunlockput_end_runs (hG : Guards φ G) (r : Int) (hinv : SeqInv φ p s t 0 (ip ::ₘ refs) w)
    (hown : ∀ i, w = some i → i ∈ refs) :
    Runs φ G p (do iunlockput ip; endOp; pure r : FsM Int) s fun _ => Finished φ p := by
  refine .seq (iunlockput_runs hG hinv) ?_
  rintro _ s₁ ⟨t₁, hinv₁, -⟩
  exact endOp_runs r hinv₁ hown

theorem create_iunlockput_runs (hG : Guards φ G) {path : Path}
    (hinv : SeqInv φ p s t 0 refs w) (hown : ∀ i, w = some i → i ∈ refs) (htype : type ≠ .free) :
    Runs φ G p (do
      beginOp
      match ← create path type major minor with
      | none => do
          endOp
          pure (-1)
      | some ip => do
          iunlockput ip
          endOp
          pure 0 : FsM Int) s fun _ => Finished φ p := by
  refine .step .beginOp ((), s) rfl trivial fun _ => ?_
  refine .seq (create_runs hG hinv hown htype) ?_
  rintro r s₁ ⟨t₁, hr⟩
  cases r with
  | none => exact endOp_runs _ hr hown
  | some ip => exact iunlockput_end_runs hG _ hr.1 hown

theorem SeqInv.decrNlink {d : Inum} (hinv : SeqInv φ p s t (d ::ₘ c) refs w) :
    SeqInv φ p (s.addNlink d (-1)) (t.addNlink d (-1)) c refs w :=
  hinv.setIno (hinv.rep.addNlink (-1)) ⟨hinv.ok.inv.decr, fun hd => hinv.ok.distinct hd,
    fun he => (hinv.ok.exact he).decr, fun hl => hinv.ok.up hl⟩ rfl

section

variable (hG : Guards φ G)
include hG

theorem linkBad_runs (hinv : SeqInv φ p s t {ip} (ip ::ₘ refs) w)
    (hown : ∀ i, w = some i → i ∈ refs) : Runs φ G p (linkBad ip) s fun _ => Finished φ p := by
  refine .seq (ilock_runs hinv fun hl => hinv.live hl ip (Multiset.mem_cons_self _ _)) ?_
  rintro _ s₁ ⟨hinv₁, -, -⟩
  refine .step (.addNlink ip (-1)) ((), s₁.addNlink ip (-1)) rfl trivial fun _ => ?_
  exact iunlockput_end_runs hG _ hinv₁.decrNlink hown

theorem sysLink_runs {old new : Path} (hinv : SeqInv φ p s t 0 refs w)
    (hown : ∀ i, w = some i → i ∈ refs) : Runs φ G p (sysLink old new) s fun _ => Finished φ p := by
  refine .step .beginOp ((), s) rfl trivial fun _ => ?_
  refine namei_ilock_runs hG hinv hown (fun _ _ hinv' => endOp_runs _ hinv' hown)
    fun ip s₂ t₁ hinv₂ hlive => ?_
  refine .step (.fields ip) (s₂.fields ip, s₂) rfl trivial fun _ => ?_
  by_cases hdir : (s₂.fields ip).type = .dir
  · simp only [hdir, if_true]
    exact iunlockput_end_runs hG _ hinv₂ hown
  simp only [hdir, if_false]
  have hkind : t₁.kind ip ≠ .dir := hinv₂.rep.kind ip ▸ hdir
  refine .step (.addNlink ip 1) ((), s₂.addNlink ip 1) rfl trivial fun _ => ?_
  have hok : (t₁.addNlink ip 1).Ok φ {ip} :=
    ⟨hinv₂.ok.inv.incr hlive, fun hd => hinv₂.ok.distinct hd,
      fun he => (hinv₂.ok.exact he).incr, fun hl => hinv₂.ok.up hl⟩
  have hinv₃ : SeqInv φ p (s₂.addNlink ip 1) (t₁.addNlink ip 1) {ip} (ip ::ₘ refs) w :=
    hinv₂.setIno (hinv₂.rep.addNlink 1) hok rfl
  refine .seq (iunlock_runs hinv₃) ?_
  rintro _ s₄ ⟨hinv₄, -⟩
  have hown₁ : ∀ i, w = some i → i ∈ ip ::ₘ refs := fun i hi =>
    Multiset.mem_cons_of_mem (hown i hi)
  refine nameiparent_ilock_runs hG hinv₄ hown₁ (fun _ _ hinv' => linkBad_runs hG hinv' hown)
    fun dp name s₆ t₅ hinv₆ hshrinks => ?_
  have hkind₅ : t₅.kind ip ≠ .dir := by
    rw [hshrinks.kind ip (Multiset.mem_cons_self _ _)]
    exact hkind
  have hentry : t₅.entryCredit dp ip + 0 = {ip} := (Multiset.add_zero _).trans (if_neg hkind₅)
  rw [← hentry] at hinv₆
  refine .seq (dirlink_runs hG hinv₆ (fun i hi => Multiset.mem_cons_of_mem (hown₁ i hi))
    ?_ (fun h => absurd h hkind₅) fun he hdp hpos => ?_) ?_
  · rintro rfl
    exact hkind₅ hinv₆.ok.inv.root
  · refine (hinv₆.ok.exact he).linked (by rw [hdp]; decide) ?_ hpos
    rw [hentry, Multiset.count_singleton, if_neg]
    rintro rfl
    exact hkind₅ hdp
  · intro ok s₇ hok
    cases ok with
    | true =>
      obtain ⟨t₇, hinv₇, -⟩ := hok
      refine .seq (iunlockput_runs hG hinv₇) ?_
      rintro _ s₈ ⟨t₈, hinv₈, -⟩
      refine .seq (iput_runs hG hinv₈) ?_
      rintro _ s₉ ⟨t₉, hinv₉, -⟩
      exact endOp_runs _ hinv₉ hown
    | false =>
      obtain ⟨t₇, hinv₇, -⟩ := hok
      rw [hentry] at hinv₇
      refine .seq (iunlockput_runs hG hinv₇) ?_
      rintro _ s₈ ⟨t₈, hinv₈, -⟩
      exact linkBad_runs hG hinv₈ hown

theorem unlink_end_runs (hinv : SeqInv φ p s t {ip} (dp ::ₘ ip ::ₘ refs) w)
    (hown : ∀ i, w = some i → i ∈ refs) : Runs φ G p (do
      iunlockput dp
      addNlink ip (-1)
      iunlockput ip
      endOp
      pure 0 : FsM Int) s fun _ => Finished φ p := by
  refine .seq (iunlockput_runs hG hinv) ?_
  rintro _ s₁ ⟨t₁, hinv₁, -⟩
  refine .step (.addNlink ip (-1)) ((), s₁.addNlink ip (-1)) rfl trivial fun _ => ?_
  exact iunlockput_end_runs hG _ hinv₁.decrNlink hown

theorem unlinkEntry_runs {name : Name} {off : Nat} (hinv : SeqInv φ p s t 0 (dp ::ₘ ip ::ₘ refs) w)
    (hown : ∀ i, w = some i → i ∈ refs)
    (hdir : t.kind dp = .dir) (hget : (s.ino dp).dents[off / direntSize]? = some ⟨ip, name⟩)
    (hzero : ip ≠ 0) (hname : ¬ IsDot name) (hempty : t.kind ip = .dir → ∀ x j, (ip, x, j) ∉ t.edges) :
    Runs φ G p (unlinkEntry dp ip off (t.kind ip)) s fun _ => Finished φ p := by
  cases hwrite : writeSlot (s.ino dp).dents (off / direntSize) ⟨0, []⟩ with
  | none =>
    refine .step (.writeDirent dp off ⟨0, []⟩) (false, s) ?_ trivial fun _ =>
      .panic trivial
    simp only [State.exec, State.writeDirent]
    rw [hwrite]
  | some dents' =>
    refine Runs.step (.writeDirent dp off ⟨0, []⟩)
      (true, s.setIno dp { s.ino dp with dents := dents' }) ?_ trivial fun _ => ?_
    · simp only [State.exec, State.writeDirent]
      rw [hwrite]
    · obtain ⟨l, hedge, hrep⟩ := hinv.rep.unlink hdir hget hzero hname hwrite
      have hok : (t.unlink dp (l, name) ip).Ok φ (t.entryCredit dp ip + 0) :=
        ⟨hinv.ok.inv.unlink hedge, fun hd => (hinv.ok.distinct hd).mono (Finset.erase_subset _ _),
          fun he => (hinv.ok.exact he).unlink hinv.ok.inv hedge hempty, fun hl => hinv.ok.up hl⟩
      have hinv₁ := hinv.setIno hrep hok rfl
      by_cases hkind : t.kind ip = .dir
      · simp only [hkind, if_true]
        have hentry : t.entryCredit dp ip + 0 = dp ::ₘ {ip} := by
          unfold entryCredit
          rw [if_pos hkind, Multiset.add_zero]
          exact Multiset.pair_comm ip dp
        rw [hentry] at hinv₁
        refine .step (.addNlink dp (-1)) (_, _) rfl trivial fun _ => ?_
        exact unlink_end_runs hG hinv₁.decrNlink hown
      · simp only [hkind, if_false]
        have hentry : t.entryCredit dp ip + 0 = {ip} := (Multiset.add_zero _).trans (if_neg hkind)
        rw [hentry] at hinv₁
        exact unlink_end_runs hG hinv₁ hown

variable {path : Path} {omode : UInt32}

theorem sysUnlink_runs (hinv : SeqInv φ p s t 0 refs w)
    (hown : ∀ i, w = some i → i ∈ refs) : Runs φ G p (sysUnlink path) s fun _ => Finished φ p := by
  refine .step .beginOp ((), s) rfl trivial fun _ => ?_
  refine nameiparent_ilock_runs hG hinv hown (fun _ _ hinv' => endOp_runs _ hinv' hown)
    fun dp name s₂ t₁ hinv₂ _ => ?_
  by_cases hdot : IsDot name
  · simp only [hdot, if_true]
    exact iunlockput_end_runs hG _ hinv₂ hown
  simp only [hdot, if_false]
  refine .seq (dirlookup_runs hinv₂ fun i hi => Multiset.mem_cons_of_mem (hown i hi)) ?_
  rintro r s₃ ⟨hino₃, hdir, hr⟩
  cases r with
  | none => exact iunlockput_end_runs hG _ hr.1 hown
  | some found =>
    obtain ⟨ip, off⟩ := found
    obtain ⟨hinv₃, hzero, hget⟩ := hr
    refine .seq (ilock_runs hinv₃ fun hl =>
      hinv₃.live hl ip (Multiset.mem_cons_self _ _)) ?_
    rintro _ s₄ ⟨hinv₄, hino₄, -⟩
    have hinv₄' : SeqInv φ p s₄ t₁ 0 (dp ::ₘ ip ::ₘ refs) w := by
      rw [Multiset.cons_swap]
      exact hinv₄
    have hget₄ : (s₄.ino dp).dents[off / direntSize]? = some ⟨ip, name⟩ := by
      rw [hino₄, hino₃]
      exact hget
    refine .step (.fields ip) (s₄.fields ip, s₄) rfl trivial fun _ => ?_
    have htype : (s₄.fields ip).type = t₁.kind ip := hinv₄.rep.kind ip
    by_cases hnlink : (s₄.fields ip).nlink < 1
    · simp only [hnlink, if_true]
      exact .panic trivial
    simp only [hnlink, if_false, htype]
    by_cases hkind : t₁.kind ip = .dir
    · rw [if_pos hkind]
      refine .seq (isdirempty_runs hinv₄.rep hkind) ?_
      rintro b s₅ ⟨rfl, hempty⟩
      cases b with
      | true =>
        exact unlinkEntry_runs hG hinv₄' hown hdir hget₄ hzero hdot fun _ => hempty rfl
      | false =>
        refine .seq (iunlockput_runs hG hinv₄) ?_
        rintro _ s₆ ⟨t₆, hinv₆, -⟩
        exact iunlockput_end_runs hG _ hinv₆ hown
    · rw [if_neg hkind]
      exact unlinkEntry_runs hG hinv₄' hown hdir hget₄ hzero hdot fun h => absurd h hkind

theorem sysChdir_runs (hinv : SeqInv φ p s t 0 refs w)
    (hown : ∀ i, w = some i → i ∈ refs) : Runs φ G p (sysChdir path) s fun _ => Finished φ p := by
  refine .step .beginOp ((), s) rfl trivial fun _ => ?_
  refine namei_ilock_runs hG hinv hown (fun _ _ hinv' => endOp_runs _ hinv' hown)
    fun ip s₂ t₁ hinv₂ hlive => ?_
  refine .step (.fields ip) (s₂.fields ip, s₂) rfl trivial fun _ => ?_
  by_cases hdir : (s₂.fields ip).type = .dir
  · simp only [hdir, ne_eq, not_true_eq_false, if_false]
    refine .seq (iunlock_runs hinv₂) ?_
    rintro _ s₃ ⟨hinv₃, -⟩
    cases hcwd : s₃.cwd p with
    | none =>
      refine .atomic_bind (o := .cwd) trivial fun r s' hexec _ => ?_
      simp [State.exec, hcwd] at hexec
    | some old =>
      refine .step .cwd (old, s₃) (by simp [State.exec, hcwd]) trivial fun _ => ?_
      have hmem := hown old (hinv₃.own.symm.trans hcwd)
      have hinv₃' : SeqInv φ p s₃ t₁ 0 (old ::ₘ ip ::ₘ refs.erase old) w := by
        rw [Multiset.cons_swap, Multiset.cons_erase hmem]
        exact hinv₃
      refine .seq (iput_runs hG hinv₃') ?_
      rintro _ s₄ ⟨t₄, hinv₄, hshrinks⟩
      refine .step .endOp ((), s₄) rfl trivial fun _ => ?_
      refine .step (.setCwd (some ip)) (_, _) rfl trivial fun _ => ?_
      refine ⟨t₄, ip ::ₘ refs.erase old, some ip, ?_, fun i hi => ?_⟩
      · refine hinv₄.setCwd fun i hi => ?_
        obtain rfl : ip = i := by simpa using hi
        rw [hshrinks.kind ip (Multiset.mem_cons_self _ _)]
        exact hlive
      · obtain rfl : ip = i := by simpa using hi
        exact Multiset.mem_cons_self _ _
  · simp only [ne_eq, hdir, not_false_eq_true, if_true]
    exact iunlockput_end_runs hG _ hinv₂ hown

theorem execInode_runs (hinv : SeqInv φ p s t 0 refs w)
    (hown : ∀ i, w = some i → i ∈ refs) : Runs φ G p (execInode path) s fun _ => Finished φ p := by
  refine .step .beginOp ((), s) rfl trivial fun _ => ?_
  refine namei_ilock_runs hG hinv hown (fun _ _ hinv' => endOp_runs _ hinv' hown) fun ip s₂ t₁ hinv₂ _ => ?_
  refine .step (.readProgram ip) (_, s₂) rfl trivial fun _ => ?_
  exact iunlockput_end_runs hG _ hinv₂ hown

/-! ### The calls on open files -/

theorem fileclose_runs {f : Nat} (hinv : SeqInv φ p s t c refs w) :
    Runs φ G p (fileclose f) s fun _ s' => ∃ t', SeqInv φ p s' t' c refs w ∧ Shrinks refs t t' := by
  by_cases hbad : (s.file f).ref < 1
  · refine Runs.step (.fileDrop f) (.bad, s) ?_ trivial fun _ => Runs.panic trivial
    simp [State.exec, State.fileDrop, hbad]
  by_cases hkept : 1 < (s.file f).ref
  · refine .step (.fileDrop f)
      (.kept, s.setFile f { s.file f with ref := (s.file f).ref - 1 }) ?_ trivial fun _ => ?_
    · simp [State.exec, State.fileDrop, hbad, hkept]
    · refine ⟨t, hinv.setFile_same rfl rfl fun hzero => ?_, .refl⟩
      simp only at hzero
      omega
  · refine .step (.fileDrop f) (.last (s.file f).fields, s.setFile f
      { ref := 0, fields := { (s.file f).fields with ip := none } }) ?_ trivial fun _ => ?_
    · simp [State.exec, State.fileDrop, hbad, hkept]
    · cases hip : (s.file f).fields.ip with
      | none =>
        simp only [hip]
        exact ⟨t, hinv.setFile_same hip.symm rfl fun _ => rfl, .refl⟩
      | some i =>
        simp only [hip]
        refine .step .beginOp (_, _) rfl trivial fun _ => ?_
        refine .seq (iput_runs hG (hinv.closeFile hip rfl)) ?_
        rintro _ s₁ ⟨t₁, hinv₁, hshrinks⟩
        exact .last .endOp ((), s₁) rfl trivial ⟨t₁, hinv₁, hshrinks⟩

theorem openFile_runs (hinv : SeqInv φ p s t 0 (ip ::ₘ refs) w)
    (hown : ∀ i, w = some i → i ∈ refs) (hkind : t.kind ip ≠ .free) (hdir : t.kind ip = .dir → omode = 0) :
    Runs φ G p (openFile ip omode) s fun _ => Finished φ p := by
  cases hfree : s.freeFile with
  | none =>
    refine Runs.step .filealloc (none, s) ?_ trivial fun _ => iunlockput_end_runs hG _ hinv hown
    simp [State.exec, State.filealloc, hfree]
  | some f =>
    have hzero : (s.file f).ref = 0 := by simpa using List.find?_some hfree
    have hf : f < nfile := List.mem_range.mp (List.mem_of_find?_eq_some hfree)
    have hnone := hinv.unused f hzero
    refine .step .filealloc (some f, s.setFile f { s.file f with ref := 1 }) ?_ trivial fun _ => ?_
    · simp [State.exec, State.filealloc, hfree]
    · have hinv₁ : SeqInv φ p (s.setFile f { s.file f with ref := 1 }) t 0 (ip ::ₘ refs) w :=
        hinv.setFile_same rfl rfl (by rintro ⟨⟩)
      have hfile₁ : (s.setFile f { s.file f with ref := 1 }).file f = { s.file f with ref := 1 } := by
        simp [State.setFile]
      generalize s.setFile f { s.file f with ref := 1 } = s₁ at hinv₁ hfile₁
      cases hfd : s₁.freeFd p with
      | none =>
        refine .step (.fdalloc f) (none, s₁) ?_ trivial fun _ => ?_
        · simp [State.exec, State.fdalloc, hfd]
        · refine .seq (fileclose_runs hG hinv₁) ?_
          rintro _ s₂ ⟨t₂, hinv₂, -⟩
          exact iunlockput_end_runs hG _ hinv₂ hown
      | some fd =>
        refine .step (.fdalloc f) (some fd, s₁.setFd p fd (some f)) ?_ trivial fun _ => ?_
        · simp [State.exec, State.fdalloc, hfd]
        · refine .seq iunlock_same ?_
          intro _ s₂ hsame
          have hfd : s₁.Same (s₁.setFd p fd (some f)) := .of_eq rfl rfl rfl rfl rfl
          have hsame₁ : s₁.Same s₂ := hfd.trans hsame
          have hinv₂ := hinv₁.congr hsame₁
          have hfile₂ : s₂.file f = { s.file f with ref := 1 } := by rw [hsame₁.file, hfile₁]
          refine .step .endOp ((), s₂) rfl trivial fun _ => ?_
          refine .step (.fileInit f ip _ _) (_, _) rfl trivial fun _ => ?_
          refine ⟨t, refs, w, hinv₂.openFile hf ?_ rfl hkind ?_ ?_, hown⟩
          · rw [hfile₂]
            exact hnone
          · intro hwr hisdir
            -- a directory was opened with `omode = 0`, which asks for no writing
            simp [hdir hisdir] at hwr
          · rw [hfile₂]
            exact Nat.one_ne_zero

theorem openExisting_runs (hinv : SeqInv φ p s t 0 refs w) (hown : ∀ i, w = some i → i ∈ refs) :
    Runs φ G p (openExisting path omode) s fun r s' => ∃ t',
      match r with
      | none => SeqInv φ p s' t' 0 refs w
      | some ip => SeqInv φ p s' t' 0 (ip ::ₘ refs) w ∧ t'.kind ip ≠ .free ∧
          (t'.kind ip = .dir → omode = 0) := by
  refine namei_ilock_runs hG hinv hown (fun _ t' hinv' => ⟨t', hinv'⟩) fun ip s₂ t₁ hinv₂ hlive => ?_
  refine .step (.fields ip) (s₂.fields ip, s₂) rfl trivial fun _ => ?_
  by_cases hdir : (s₂.fields ip).type = .dir ∧ omode ≠ 0
  · simp only [hdir, ne_eq, not_false_eq_true, and_self, if_true]
    refine .seq (iunlockput_runs hG hinv₂) ?_
    rintro _ s₃ ⟨t₃, hinv₃, -⟩
    exact ⟨t₃, hinv₃⟩
  · simp only [hdir, if_false]
    refine ⟨t₁, hinv₂, hlive, fun hisdir => ?_⟩
    by_contra hne
    exact hdir ⟨(hinv₂.rep.kind ip).trans hisdir, hne⟩

theorem sysOpen_runs (hinv : SeqInv φ p s t 0 refs w) (hown : ∀ i, w = some i → i ∈ refs) :
    Runs φ G p (sysOpen path omode) s fun _ => Finished φ p := by
  refine .step .beginOp ((), s) rfl trivial fun _ => ?_
  by_cases hcreate : omode &&& oCreate != 0
  · simp only [hcreate, if_true]
    refine .seq (create_runs hG hinv hown (by decide)) ?_
    rintro r s₁ ⟨t₁, hr⟩
    cases r with
    | none => exact endOp_runs _ hr hown
    | some ip =>
      refine openFile_runs hG hr.1 hown ?_ fun hdir => ?_
      · rw [hr.2]
        decide
      · rw [hr.2] at hdir
        cases hdir
  · simp only [hcreate]
    refine .seq (openExisting_runs hG hinv hown) ?_
    rintro r s₁ ⟨t₁, hr⟩
    cases r with
    | none => exact endOp_runs _ hr hown
    | some ip => exact openFile_runs hG hr.1 hown hr.2.1 hr.2.2

theorem sysClose_runs {fd : Nat} (hinv : SeqInv φ p s t 0 refs w)
    (hown : ∀ i, w = some i → i ∈ refs) : Runs φ G p (sysClose fd) s fun _ => Finished φ p := by
  refine .step (.argfd fd) (_, s) rfl trivial fun _ => ?_
  cases (if fd < nofile then s.ofile p fd else none) with
  | none => exact ⟨t, refs, w, hinv, hown⟩
  | some f =>
    refine .step (.clearFd fd) (_, _) rfl trivial fun _ => ?_
    have hinv₁ : SeqInv φ p (s.setFd p fd none) t 0 refs w := hinv.congr ⟨rfl, rfl, rfl, rfl, rfl⟩
    refine .seq (fileclose_runs hG hinv₁) ?_
    rintro _ s₂ ⟨t₂, hinv₂, -⟩
    exact ⟨t₂, refs, w, hinv₂, hown⟩

end

theorem SeqInv.writei {off : Nat} {src : List UInt8} (hinv : SeqInv φ p s t c refs w) :
    SeqInv φ p (s.writei ip off src).2 t c refs w ∧ (s.writei ip off src).2.file = s.file := by
  unfold State.writei
  by_cases hdev : (s.ino ip).type = .dev
  · simp only [hdev, if_true]
    exact ⟨hinv, trivial⟩
  · by_cases hbig : (s.ino ip).size < off ∨ maxfile * bsize < off + src.length
    · simp only [hdev, hbig, if_true, if_false]
      exact ⟨hinv, trivial⟩
    · simp only [hdev, hbig, if_false]
      exact ⟨hinv.setIno (hinv.rep.setNode rfl rfl rfl) hinv.ok rfl, rfl⟩

theorem filewriteLoop_runs {f : Nat} (fuel : Nat) (rest : List UInt8)
    (hinv : SeqInv φ p s t c refs w) (hip : (s.file f).fields.ip = some ip)
    (hwr : (s.file f).fields.writable = true) :
    Runs φ G p (filewriteLoop f ip fuel rest) s fun _ s' => SeqInv φ p s' t c refs w := by
  induction fuel generalizing s rest with
  | zero => exact hinv
  | succ fuel ih =>
    unfold filewriteLoop
    by_cases hempty : rest.isEmpty = true
    · simp only [hempty, if_true]
      exact hinv
    simp only [hempty]
    obtain ⟨-, hkind, hdir⟩ := hinv.file f ip hip
    refine .step .beginOp ((), s) rfl trivial fun _ => ?_
    refine .seq (ilock_same fun _ => (hinv.rep.kind ip).symm ▸ hkind) ?_
    rintro _ s₁ ⟨hsame₁, -⟩
    have hinv₁ := hinv.congr hsame₁
    have htype : (s₁.ino ip).type ≠ .dir := by
      rw [hinv₁.rep.kind ip]
      exact hdir hwr
    refine .step (.file f) ((s₁.file f).fields, s₁) rfl trivial fun _ => ?_
    refine .step (.writei ip _ _) (s₁.writei ip _ _) (if_neg htype) htype fun _ => ?_
    obtain ⟨hinv₂, hfile₂⟩ :
        SeqInv φ p (s₁.writei ip (s₁.file f).fields.off (rest.take filewriteMax)).2 t c refs w ∧
          (s₁.writei ip (s₁.file f).fields.off (rest.take filewriteMax)).2.file = s₁.file :=
      hinv₁.writei
    generalize s₁.writei ip (s₁.file f).fields.off (rest.take filewriteMax) = x at hinv₂ hfile₂ ⊢
    obtain ⟨r, s₂⟩ := x
    have hfile : s₂.file = s.file := hfile₂.trans hsame₁.file
    -- what follows the update of the offset
    have hend : ∀ s₃, SeqInv φ p s₃ t c refs w → (s₃.file f).fields.ip = some ip →
        (s₃.file f).fields.writable = true → Runs φ G p (do
          iunlock ip
          endOp
          if r < 0 then
            pure false
          else if r ≠ (rest.take filewriteMax).length then
            panic .shortFilewrite
          else
            filewriteLoop f ip fuel (rest.drop filewriteMax) : FsM Bool) s₃
          fun _ s' => SeqInv φ p s' t c refs w := by
      intro s₃ hinv₃ hip₃ hwr₃
      refine .seq iunlock_same ?_
      intro _ s₄ hsame₄
      refine .step .endOp ((), s₄) rfl trivial fun _ => ?_
      by_cases hneg : r < 0
      · simp only [hneg, if_true]
        exact hinv₃.congr hsame₄
      · by_cases hshort : r = (rest.take filewriteMax).length
        · simp only [hshort, if_false, ne_eq, not_true_eq_false]
          exact ih _ (hinv₃.congr hsame₄) (by rw [hsame₄.file]; exact hip₃)
            (by rw [hsame₄.file]; exact hwr₃)
        · simp only [hneg, if_false, ne_eq, hshort, not_false_eq_true, if_true]
          exact .panic trivial
    by_cases hpos : 0 < r
    · simp only [hpos, if_true]
      refine .step (.addOff f r.toNat) ((), s₂.addOff f r.toNat) rfl trivial fun _ => ?_
      refine hend _ (hinv₂.setFile_same rfl rfl fun hzero => hinv₂.unused f hzero) ?_ ?_
      · simpa [State.addOff, State.setFile, hfile] using hip
      · simpa [State.addOff, State.setFile, hfile] using hwr
    · simp only [hpos, if_false]
      exact hend s₂ hinv₂ (hfile ▸ hip) (hfile ▸ hwr)

theorem sysWrite_runs {fd : Nat} {src : List UInt8} (hinv : SeqInv φ p s t 0 refs w)
    (hown : ∀ i, w = some i → i ∈ refs) : Runs φ G p (sysWrite fd src) s fun _ => Finished φ p := by
  refine .step (.argfd fd) (_, s) rfl trivial fun _ => ?_
  cases (if fd < nofile then s.ofile p fd else none) with
  | none => exact ⟨t, refs, w, hinv, hown⟩
  | some f =>
    refine .step (.file f) ((s.file f).fields, s) rfl trivial fun _ => ?_
    by_cases hwr : (s.file f).fields.writable = true
    · simp only [hwr, if_true]
      cases hip : (s.file f).fields.ip with
      | none => exact .panic trivial
      | some ip =>
        refine .seq (filewriteLoop_runs src.length src hinv hip hwr) ?_
        intro b s₁ hinv₁
        cases b with
        | true | false => exact ⟨t, refs, w, hinv₁, hown⟩
    · simp only [hwr]
      exact ⟨t, refs, w, hinv, hown⟩

theorem exitFiles_runs (hG : Guards φ G) (fds : List Nat) (hinv : SeqInv φ p s t c refs w) :
    Runs φ G p (exitFiles fds) s fun _ s' => ∃ t', SeqInv φ p s' t' c refs w := by
  induction fds generalizing s t with
  | nil => exact ⟨t, hinv⟩
  | cons fd fds ih =>
    refine .step (.argfd fd) (_, s) rfl trivial fun _ => ?_
    cases (if fd < nofile then s.ofile p fd else none) with
    | none => exact ih hinv
    | some f =>
      refine .seq (fileclose_runs hG hinv) ?_
      rintro _ s₁ ⟨t₁, hinv₁, -⟩
      refine .step (.clearFd fd) ((), s₁.setFd p fd none) rfl trivial fun _ => ?_
      exact ih (hinv₁.congr ⟨rfl, rfl, rfl, rfl, rfl⟩)

theorem exitInodes_runs (hG : Guards φ G) (hinv : SeqInv φ p s t 0 refs w)
    (hown : ∀ i, w = some i → i ∈ refs) : Runs φ G p exitInodes s fun _ => Finished φ p := by
  refine .seq (exitFiles_runs hG _ hinv) ?_
  rintro _ s₁ ⟨t₁, hinv₁⟩
  refine .step .beginOp ((), s₁) rfl trivial fun _ => ?_
  cases hcwd : s₁.cwd p with
  | none =>
    refine .atomic_bind (o := .cwd) trivial fun r s' hexec _ => ?_
    simp [State.exec, hcwd] at hexec
  | some old =>
    refine .step .cwd (old, s₁) (by simp [State.exec, hcwd]) trivial fun _ => ?_
    have hmem := hown old (hinv₁.own.symm.trans hcwd)
    rw [← Multiset.cons_erase hmem] at hinv₁
    refine .seq (iput_runs hG hinv₁) ?_
    rintro _ s₂ ⟨t₂, hinv₂, -⟩
    refine .step .endOp ((), s₂) rfl trivial fun _ => ?_
    refine .step (.setCwd none) (_, _) rfl trivial fun _ => ?_
    exact ⟨t₂, refs.erase old, none, hinv₂.setCwd (by rintro _ ⟨⟩), by rintro _ ⟨⟩⟩

/-- Every call, from any state between two calls. -/
theorem Call.runs (hG : Guards φ G) (call : Call) (hinv : SeqInv φ p s t 0 refs w)
    (hown : ∀ i, w = some i → i ∈ refs) : Runs φ G p call.prog s fun _ => Finished φ p := by
  cases call with
  | «open» path omode => exact sysOpen_runs hG hinv hown
  | mkdir path | mknod path major minor => exact create_iunlockput_runs hG hinv hown (by decide)
  | link old new => exact sysLink_runs hG hinv hown
  | unlink path => exact sysUnlink_runs hG hinv hown
  | chdir path => exact sysChdir_runs hG hinv hown
  | exec path => exact execInode_runs hG hinv hown
  | close fd => exact sysClose_runs hG hinv hown
  | write fd src => exact sysWrite_runs hinv hown
  | exit => exact exitInodes_runs hG hinv hown

end Xv6.Fs
