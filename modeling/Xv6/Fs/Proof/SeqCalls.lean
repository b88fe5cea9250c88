import Xv6.Fs.Proof.SeqInv
import Xv6.Fs.Components

/-!
# What each function does to the tree

One lemma per function of `fs.c` and `sysfile.c`, for a process that runs alone. A function that only
reads leaves the inodes as they are; a walk may free inodes without links; the others are moves on
the tree, paid for with credit.
-/

namespace Xv6.Fs

open Xv6.Fs.Tree

variable {n : Nat} {φ : Flags} {G : Op → State n → Prop} [∀ o s, Decidable (G o s)] {p : Fin n}
  {s : State n} {t : Tree} {c refs m : Multiset Inum} {w : Option Inum} {ip dp : Inum}

theorem Runs.seq {α β : Type} {x : FsM α} {f : α → FsM β} {mid : α → State n → Prop}
    {post : β → State n → Prop} (hx : Runs φ G p x s mid)
    (hf : ∀ a s', mid a s' → Runs φ G p (f a) s' post) : Runs φ G p (x >>= f) s post :=
  .bind (hx.mono hf)

/-! ### The inode layer -/

theorem acquiresleep_runs {site : LockSite} :
    Runs φ G p (acquiresleep site ip) s fun _ s' => s' = s.setLock ip (some p) := by
  cases hlock : s.lock ip with
  | none =>
    refine Runs.step (.tryLock site ip) (true, s.setLock ip (some p)) ?_ trivial fun _ => rfl
    simp [State.exec, State.tryLock, hlock]
  | some q =>
    refine .step (.tryLock site ip) (false, s) ?_ trivial fun _ => ?_
    · simp [State.exec, State.tryLock, hlock]
    · -- no other process runs, so the lock stays taken
      refine Prog.wp_guard trivial fun r s' hexec => ?_
      simp [State.exec, hlock] at hexec

theorem ilock_same (hlive : φ.live → (s.ino ip).type ≠ .free) :
    Runs φ G p (ilock ip) s fun _ s' => s.Same s' ∧ (s.ino ip).type ≠ .free := by
  refine Runs.step (.ref ip) (_, _) rfl trivial fun _ => ?_
  by_cases hr : s.ref ip < 1
  · simp only [hr, if_true]
    exact Runs.panic trivial
  simp only [hr, if_false]
  refine .seq acquiresleep_runs ?_
  rintro _ _ rfl
  refine .step (.load ip) ((s.setLock ip (some p)).load ip) rfl trivial fun _ => ?_
  have hload : ((s.setLock ip (some p)).load ip).1 = (s.ino ip).type := by
    unfold State.load
    split_ifs <;> rfl
  have hsame : s.Same ((s.setLock ip (some p)).load ip).2 := by
    unfold State.load
    split_ifs
    · exact ⟨rfl, rfl, rfl, rfl, rfl⟩
    · exact ⟨rfl, rfl, rfl, rfl, rfl⟩
  rw [hload]
  by_cases htype : (s.ino ip).type = .free
  · simp only [htype, if_true]
    exact .panic fun hl => hlive hl htype
  · simp only [htype, if_false]
    exact ⟨hsame, htype⟩

theorem ilock_runs (hinv : SeqInv φ p s t c refs w) (hlive : φ.live → t.kind ip ≠ .free) :
    Runs φ G p (ilock ip) s fun _ s' =>
      SeqInv φ p s' t c refs w ∧ s'.ino = s.ino ∧ t.kind ip ≠ .free := by
  refine (ilock_same fun hl => ?_).mono ?_
  · rw [hinv.rep.kind ip]
    exact hlive hl
  · rintro _ s' ⟨hsame, htype⟩
    exact ⟨hinv.congr hsame, hsame.ino, hinv.rep.kind ip ▸ htype⟩

theorem iunlock_same : Runs φ G p (iunlock ip) s fun _ s' => s.Same s' := by
  refine .step (.holdingsleep ip) ((s.lock ip).isSome, s) rfl trivial fun _ => ?_
  cases (s.lock ip).isSome with
  | false => exact .panic trivial
  | true =>
    refine .step (.ref ip) (_, _) rfl trivial fun _ => ?_
    by_cases hr : s.ref ip < 1
    · simp only [hr, if_true]
      exact .panic trivial
    · simp only [hr, if_false]
      exact .last (.unlock ip) ((), s.setLock ip none) rfl trivial ⟨rfl, rfl, rfl, rfl, rfl⟩

theorem iunlock_runs (hinv : SeqInv φ p s t c refs w) :
    Runs φ G p (iunlock ip) s fun _ s' => SeqInv φ p s' t c refs w ∧ s'.ino = s.ino :=
  iunlock_same.mono fun _ _ hsame => ⟨hinv.congr hsame, hsame.ino⟩

theorem iput_end_runs {s' : State n} (hinv : SeqInv φ p (s'.setRef ip (s'.ref ip - 1)) t c m w) :
    Runs φ G p (releasesleep ip >>= fun _ => atomic (.decRef ip)) s' fun _ s'' =>
      SeqInv φ p s'' t c m w := by
  refine .step (.unlock ip) ((), s'.setLock ip none) rfl trivial fun _ => ?_
  exact .last (.decRef ip) (_, _) rfl trivial (hinv.congr ⟨rfl, rfl, rfl, rfl, rfl⟩)

theorem iput_runs (hG : Guards φ G) (hinv : SeqInv φ p s t c (ip ::ₘ m) w) :
    Runs φ G p (iput ip) s fun _ s' =>
      ∃ t', SeqInv φ p s' t' c m w ∧ Shrinks m t t' := by
  refine .seq acquiresleep_runs ?_
  rintro _ _ rfl
  have hlocked : SeqInv φ p (s.setLock ip (some p)) t c (ip ::ₘ m) w :=
    hinv.congr ⟨rfl, rfl, rfl, rfl, rfl⟩
  generalize s.setLock ip (some p) = s₁ at hlocked ⊢
  refine .step (.fields ip) (s₁.fields ip, s₁) rfl trivial fun _ => ?_
  have hdrop : Runs φ G p (releasesleep ip >>= fun _ => atomic (.decRef ip)) s₁ fun _ s' =>
      ∃ t', SeqInv φ p s' t' c m w ∧ Shrinks m t t' :=
    (iput_end_runs hlocked.decRef).mono fun _ s' h => ⟨t, h, .refl⟩
  by_cases hdead : (s₁.fields ip).valid = true ∧ (s₁.fields ip).nlink = 0
  · simp only [hdead, and_self, if_true]
    refine .step (.ref ip) (_, _) rfl trivial fun _ => ?_
    by_cases hone : s₁.ref ip = 1
    · simp only [hone, if_true]
      refine .step (.ifree ip) ((), s₁.ifree ip) rfl trivial fun hG' => ?_
      have hnlink : t.nlink ip = 0 := (hlocked.rep.nlink ip).symm.trans hdead.2
      have hup : φ.live → t.kind ip = .dir → ∀ d, d ≠ ip → t.kind d = .dir → t.up d ≠ ip := by
        intro hl hdir d hd hkind heq
        obtain ⟨rest, hdents, -⟩ := hlocked.rep.dents d hkind
        refine hG.live hl _ _ hG' ((hlocked.rep.kind ip).trans hdir) d
          (hlocked.bound d (by rw [hkind]; decide)) hd ((hlocked.rep.kind d).trans hkind) ?_
        rw [hdents, heq]
        simp
      have hfreed := hlocked.reclaim hnlink hone hup
      have hfreed' : SeqInv φ p ((s₁.ifree ip).setRef ip ((s₁.ifree ip).ref ip - 1)) (t.reclaim ip) c
          m w := hfreed.congr ⟨rfl, rfl, rfl, rfl, rfl⟩
      exact (iput_end_runs hfreed').mono fun _ s' h =>
        ⟨t.reclaim ip, h, hlocked.shrinks_reclaim hone⟩
    · simp only [hone, if_false]
      exact hdrop
  · simp only [hdead, if_false]
    exact hdrop

theorem iunlockput_runs (hG : Guards φ G) (hinv : SeqInv φ p s t c (ip ::ₘ m) w) :
    Runs φ G p (iunlockput ip) s fun _ s' =>
      ∃ t', SeqInv φ p s' t' c m w ∧ Shrinks m t t' := by
  refine .seq (iunlock_runs hinv) ?_
  rintro _ s' ⟨hinv', -⟩
  exact iput_runs hG hinv'

theorem iget_same : Runs φ G p (iget ip) s fun _ s' => (s.setRef ip (s.ref ip + 1)).Same s' := by
  by_cases hpos : 0 < s.ref ip
  · refine .step (.igetEntry ip) (true, s.setRef ip (s.ref ip + 1)) ?_ trivial fun _ => ?_
    · simp [State.exec, State.igetEntry, hpos]
    · exact ⟨rfl, rfl, rfl, rfl, rfl⟩
  · have hzero : s.ref ip = 0 := by omega
    by_cases hroom : s.active < ninode
    · refine .step (.igetEntry ip) (true, (s.setRef ip 1).setValid ip false) ?_ trivial fun _ => ?_
      · simp [State.exec, State.igetEntry, hpos, hroom]
      · exact .of_eq rfl (by rw [hzero]; rfl) rfl rfl rfl
    · refine Runs.step (.igetEntry ip) (false, s) ?_ trivial fun _ => Runs.panic trivial
      simp [State.exec, State.igetEntry, hpos, hroom]

theorem iget_runs (hinv : SeqInv φ p s t c refs w) (hlive : φ.live → t.kind ip ≠ .free)
    (hown : ∀ i, w = some i → i ∈ refs) :
    Runs φ G p (iget ip) s fun _ s' => SeqInv φ p s' t c (ip ::ₘ refs) w ∧ s'.ino = s.ino := by
  refine iget_same.mono ?_
  intro _ s' hsame
  exact ⟨(hinv.addRef hlive hown).congr hsame, hsame.ino⟩

/-! ### Directories -/

theorem slots_size (node : Inode) (hdir : node.type = .dir) : slots node.size = node.dents.length := by
  unfold slots Inode.size direntSize
  rw [if_pos hdir]
  omega

theorem readDirent_runs {α : Type} {k : Nat} {f : Option Dirent → FsM α} {post : α → State n → Prop}
    (hk : k < (s.ino dp).dents.length)
    (hf : ∀ de, (s.ino dp).dents[k]? = some de → Runs φ G p (f (some de)) s post) :
    Runs φ G p (readDirent dp (direntSize * k) >>= f) s post := by
  have hde := List.getElem?_eq_getElem hk
  refine .step (.readDirent dp (direntSize * k)) (some _, s) ?_ trivial fun _ => hf _ hde
  simp only [State.exec]
  rw [Nat.mul_div_cancel_left k (by decide), hde]

variable {name : Name}

theorem dirlookupFrom_runs {post : Option (Inum × Nat) → State n → Prop} (fuel k : Nat)
    (hlen : k + fuel = (s.ino dp).dents.length)
    (hbefore : ∀ l de, l < k → (s.ino dp).dents[l]? = some de → de.inum ≠ 0 → name ≠ de.name)
    (hnone : (∀ de ∈ (s.ino dp).dents, de.inum ≠ 0 → name ≠ de.name) → post none s)
    (hfound : ∀ l inum, (s.ino dp).dents[l]? = some ⟨inum, name⟩ → inum ≠ 0 →
      Runs φ G p (do iget inum; pure (some (inum, direntSize * l))) s post) :
    Runs φ G p (dirlookupFrom dp name fuel (direntSize * k)) s post := by
  induction fuel generalizing k with
  | zero =>
    refine hnone fun de hmem hlive => ?_
    obtain ⟨l, hl⟩ := List.mem_iff_getElem?.mp hmem
    have hlt := (List.getElem?_eq_some_iff.mp hl).1
    exact hbefore l de (by omega) hl hlive
  | succ fuel ih =>
    refine readDirent_runs (by omega) fun de hde => ?_
    have hnext : (de.inum ≠ 0 → name ≠ de.name) → Runs φ G p
        (dirlookupFrom dp name fuel (direntSize * k + direntSize)) s post := fun hskip =>
      ih (k + 1) (by omega) fun l de' hl hget hlive => by
        rcases Nat.lt_succ_iff_lt_or_eq.mp hl with hlt | rfl
        · exact hbefore l de' hlt hget hlive
        · rw [hde, Option.some.injEq] at hget
          exact hget ▸ hskip (hget ▸ hlive)
    by_cases hzero : de.inum = 0
    · simp only [hzero, if_true]
      exact hnext fun h => absurd hzero h
    · by_cases hname : name = de.name
      · subst hname
        simp only [hzero, if_true, if_false]
        exact hfound k de.inum hde hzero
      · simp only [hzero, hname, if_false]
        exact hnext fun _ => hname

theorem dirlookup_cases {post : Option (Inum × Nat) → State n → Prop} (hnone : (s.ino dp).type = .dir →
      (∀ de ∈ (s.ino dp).dents, de.inum ≠ 0 → name ≠ de.name) → post none s)
    (hfound : (s.ino dp).type = .dir → ∀ l inum, (s.ino dp).dents[l]? = some ⟨inum, name⟩ →
      inum ≠ 0 → Runs φ G p (do iget inum; pure (some (inum, direntSize * l))) s post) :
    Runs φ G p (dirlookup dp name) s post := by
  refine .step (.fields dp) (s.fields dp, s) rfl trivial fun _ => ?_
  by_cases htype : (s.fields dp).type = .dir
  · simp only [htype, ne_eq, not_true_eq_false, if_false]
    refine dirlookupFrom_runs _ 0 ?_ (fun l de hl => absurd hl (Nat.not_lt_zero l)) (hnone htype)
      (hfound htype)
    rw [Nat.zero_add]
    exact slots_size (s.ino dp) htype
  · simp only [ne_eq, htype, not_false_eq_true, if_true]
    exact .panic trivial

theorem dirlookup_runs (hinv : SeqInv φ p s t c refs w) (hown : ∀ i, w = some i → i ∈ refs) :
    Runs φ G p (dirlookup dp name) s fun r s' =>
      s'.ino = s.ino ∧ t.kind dp = .dir ∧
        match r with
        | none => SeqInv φ p s' t c refs w ∧ ∀ de ∈ (s.ino dp).dents, de.inum ≠ 0 → name ≠ de.name
        | some (ip, off) => SeqInv φ p s' t c (ip ::ₘ refs) w ∧ ip ≠ 0 ∧
            (s.ino dp).dents[off / direntSize]? = some ⟨ip, name⟩ := by
  have hkind := hinv.rep.kind dp
  refine dirlookup_cases (fun htype habsent => ⟨rfl, hkind.symm.trans htype, hinv, habsent⟩)
    fun htype l inum hget hzero => ?_
  have hdir : t.kind dp = .dir := hkind.symm.trans htype
  have hlive : φ.live → t.kind inum ≠ .free := by
    intro hl
    rcases hinv.rep.cases_of_mem hdir (List.mem_of_getElem? hget) hzero with heq | heq | ⟨l, hedge⟩
    · cases heq
      rw [hdir]
      decide
    · cases heq
      rw [hinv.ok.up hl dp hdir]
      decide
    · exact hinv.ok.inv.edge_kind hedge
  refine .seq (iget_runs hinv hlive hown) ?_
  rintro _ s' ⟨hinv', hino⟩
  refine ⟨hino, hdir, hinv', hzero, ?_⟩
  rw [Nat.mul_div_cancel_left l (by decide), hget]

theorem emptyDirent_runs (fuel k : Nat) (hlen : k + fuel = (s.ino dp).dents.length) :
    Runs φ G p (emptyDirent dp fuel (direntSize * k)) s fun off s' => s' = s ∧
      ∃ l, off = direntSize * l ∧ ∀ old, (s.ino dp).dents[l]? = some old → old.inum = 0 := by
  induction fuel generalizing k with
  | zero =>
    refine ⟨rfl, k, rfl, fun old hold => ?_⟩
    have hlt := (List.getElem?_eq_some_iff.mp hold).1
    omega
  | succ fuel ih =>
    refine readDirent_runs (by omega) fun de hde => ?_
    by_cases hzero : de.inum = 0
    · simp only [hzero, if_true]
      refine ⟨rfl, k, rfl, fun old hold => ?_⟩
      rw [hde, Option.some.injEq] at hold
      exact hold ▸ hzero
    · simp only [hzero, if_false]
      exact ih (k + 1) (by omega)

def Appended (G : Op → State n → Prop) (dp : Inum) (name : Name) (inum : Inum) (s s' : State n) :
    Prop :=
  ∃ k dents', (∀ old, (s.ino dp).dents[k]? = some old → old.inum = 0) ∧
    writeSlot (s.ino dp).dents k ⟨inum, name⟩ = some dents' ∧
    s' = s.setIno dp { s.ino dp with dents := dents' } ∧ G (.writeDirent dp (direntSize * k) ⟨inum, name⟩) s

theorem dirlink_write_runs {inum : Inum} (htype : (s.ino dp).type = .dir) : Runs φ G p (do
      let f ← fields dp
      let off ← emptyDirent dp (slots f.size) 0
      if ← writeDirent dp off ⟨inum, name⟩ then
        pure true
      else
        panic .dirlink : FsM Bool) s fun ok s' => ok = true ∧ Appended G dp name inum s s' := by
  refine .step (.fields dp) (s.fields dp, s) rfl trivial fun _ => ?_
  refine .seq (emptyDirent_runs _ 0 ?_) ?_
  · rw [Nat.zero_add]
    exact slots_size (s.ino dp) htype
  · rintro off s' ⟨rfl, k, rfl, hempty⟩
    have hoff : direntSize * k / direntSize = k := Nat.mul_div_cancel_left k (by decide)
    cases hwrite : writeSlot (s'.ino dp).dents k ⟨inum, name⟩ with
    | none =>
      refine .step (.writeDirent dp _ _) (false, s') ?_ trivial fun _ => .panic trivial
      simp only [State.exec, State.writeDirent]
      rw [hoff, hwrite]
    | some dents' =>
      refine Runs.step (.writeDirent dp _ _)
        (true, s'.setIno dp { s'.ino dp with dents := dents' }) ?_ trivial fun hG' => ?_
      · simp only [State.exec, State.writeDirent]
        rw [hoff, hwrite]
      · exact ⟨rfl, k, dents', hempty, hwrite, rfl, hG'⟩

theorem dirlink_absent {inum : Inum} (htype : (s.ino dp).type = .dir)
    (habsent : ∀ de ∈ (s.ino dp).dents, de.inum ≠ 0 → name ≠ de.name) :
    Runs φ G p (dirlink dp name inum) s fun ok s' => ok = true ∧ Appended G dp name inum s s' := by
  have hlookup : Runs φ G p (dirlookup dp name) s fun r s' => r = none ∧ s' = s :=
    dirlookup_cases (fun _ _ => ⟨rfl, rfl⟩) fun _ l inum hget hzero =>
      absurd rfl (habsent _ (List.mem_of_getElem? hget) hzero)
  refine .seq hlookup ?_
  rintro _ _ ⟨rfl, rfl⟩
  exact dirlink_write_runs htype

theorem mem_entryCredit : ip ∈ t.entryCredit dp ip := by
  unfold entryCredit
  split_ifs <;> simp

/-- A new name for `ip` in `dp`: the entry takes the credit, or the name exists and the credit is
still there. -/
theorem dirlink_runs (hG : Guards φ G)
    (hinv : SeqInv φ p s t (t.entryCredit dp ip + c) refs w) (hown : ∀ i, w = some i → i ∈ refs)
    (hroot : ip ≠ rootino) (hup : t.kind ip = .dir → t.up ip = dp ∧ t.names ip = 0)
    (hlinked : φ.exact → t.kind dp = .dir → 0 < t.nlink dp → t.Linked dp) :
    Runs φ G p (dirlink dp name ip) s fun ok s' =>
      match ok with
      | true => ∃ t', SeqInv φ p s' t' c refs w ∧ t'.kind = t.kind
      | false => ∃ t', SeqInv φ p s' t' (t.entryCredit dp ip + c) refs w ∧ Shrinks refs t t' := by
  refine .seq (dirlookup_runs hinv hown) ?_
  rintro r s₁ ⟨hino, hdir, hr⟩
  cases r with
  | some found =>
    refine .seq (iput_runs hG hr.1) ?_
    rintro _ s₂ ⟨t', hinv', hshrinks⟩
    exact ⟨t', hinv', hshrinks⟩
  | none =>
    obtain ⟨hinv₁, habsent⟩ := hr
    have htype : (s₁.ino dp).type = .dir := (hinv₁.rep.kind dp).trans hdir
    refine (dirlink_write_runs htype).mono ?_
    rintro ok s' ⟨rfl, k, dents', hempty, hwrite, rfl, hG'⟩
    have hcredit : ip ∈ t.entryCredit dp ip + c := Multiset.mem_add.mpr (.inl mem_entryCredit)
    have hzero : ip ≠ 0 := hinv.ok.inv.ne_zero (hinv.ok.inv.credit ip hcredit)
    obtain ⟨l, hfresh, hrep⟩ := hinv₁.rep.link hinv₁.ok.inv hdir hempty hzero hwrite
    -- `.` and `..` are always there
    have hname : ¬ IsDot name := by
      obtain ⟨rest, hdents, -⟩ := hinv.rep.dents dp hdir
      rw [hdents] at habsent
      rintro (rfl | rfl)
      · exact habsent ⟨dp, dot⟩ (by simp) (hinv.ok.inv.ne_zero (by rw [hdir]; decide)) rfl
      · exact habsent ⟨t.up dp, dotdot⟩ (by simp) (hinv.ok.inv.up_zero dp hdir) rfl
    have hnone : ∀ l j, (dp, (l, name), j) ∉ t.edges := by
      intro l j hmem
      have hentry := hinv.rep.mem_of_edge hinv.ok.inv hmem
      exact habsent _ hentry (hinv.ok.inv.edge_zero hmem) rfl
    refine ⟨t.link dp (l, name) ip, hinv₁.setIno hrep ⟨?_, fun hd => ?_, fun he => ?_, fun hl => ?_⟩ rfl,
      rfl⟩
    · exact hinv₁.ok.inv.link hdir hzero hroot hname (hfresh _ _) hup
    · exact (hinv₁.ok.distinct hd).link hnone
    · refine (hinv₁.ok.exact he).link (hfresh _ _) (hlinked he hdir ?_)
      rw [← hinv₁.rep.nlink dp]
      exact hG.exact he _ _ hG' hzero hname
    · exact hinv₁.ok.up hl

theorem createDots_runs (htype : (s.ino ip).type = .dir) (hdents : (s.ino ip).dents = []) (hzero : ip ≠ 0) :
    Runs φ G p (createDots ip dp) s fun _ s' =>
      s' = s.setIno ip { s.ino ip with dents := [⟨ip, dot⟩, ⟨dp, dotdot⟩] } := by
  refine .seq (dirlink_absent htype (by simp [hdents])) ?_
  rintro _ s₁ ⟨rfl, k, dents₁, -, hwrite, rfl, -⟩
  obtain rfl : dents₁ = [⟨ip, dot⟩] := by
    rw [hdents] at hwrite
    unfold writeSlot at hwrite
    split_ifs at hwrite with hlt
    · simp at hlt
    · exact (Option.some.inj hwrite).symm
  refine .seq (dirlink_absent (by simpa [State.setIno] using htype) ?_) ?_
  · simp [State.setIno, dot, dotdot]
  · rintro _ s₂ ⟨rfl, l, dents₂, hempty, hwrite₂, rfl, -⟩
    obtain rfl : dents₂ = [⟨ip, dot⟩, ⟨dp, dotdot⟩] := by
      simp only [State.setIno, Function.update_self] at hempty hwrite₂
      unfold writeSlot at hwrite₂
      split_ifs at hwrite₂ with hlt
      · have hl : l = 0 := by simpa using hlt
        subst hl
        exact absurd (hempty ⟨ip, dot⟩ rfl) hzero
      · exact (Option.some.inj hwrite₂).symm
    change _ = _
    simp [State.setIno]

theorem isdiremptyFrom_runs (fuel k : Nat) (hlen : k + fuel = (s.ino ip).dents.length)
    (hbefore : ∀ l de, 2 ≤ l → l < k → (s.ino ip).dents[l]? = some de → de.inum = 0) :
    Runs φ G p (isdiremptyFrom ip fuel (direntSize * k)) s fun r s' => s' = s ∧
      (r = true → ∀ l de, 2 ≤ l → (s.ino ip).dents[l]? = some de → de.inum = 0) := by
  induction fuel generalizing k with
  | zero =>
    refine ⟨rfl, fun _ l de hl hget => hbefore l de hl ?_ hget⟩
    have hlt := (List.getElem?_eq_some_iff.mp hget).1
    omega
  | succ fuel ih =>
    refine readDirent_runs (by omega) fun de hde => ?_
    by_cases hzero : de.inum = 0
    · simp only [hzero, ne_eq, not_true_eq_false, if_false]
      refine ih (k + 1) (by omega) fun l de' hl hlt hget => ?_
      rcases Nat.lt_succ_iff_lt_or_eq.mp hlt with hlt | rfl
      · exact hbefore l de' hl hlt hget
      · rw [hde, Option.some.injEq] at hget
        exact hget ▸ hzero
    · simp only [ne_eq, hzero, not_false_eq_true, if_true]
      exact ⟨rfl, nofun⟩

theorem isdirempty_runs (hrep : Represents s.ino t) (hdir : t.kind ip = .dir) :
    Runs φ G p (isdirempty ip) s fun r s' => s' = s ∧ (r = true → ∀ x j, (ip, x, j) ∉ t.edges) := by
  have htype : (s.ino ip).type = .dir := (hrep.kind ip).trans hdir
  obtain ⟨rest, hdents, hedges⟩ := hrep.dents ip hdir
  refine .step (.fields ip) (s.fields ip, s) rfl trivial fun _ => ?_
  have hslots : slots ((s.fields ip).size - 2 * direntSize) = rest.length := by
    have hsize : (s.fields ip).size = direntSize * (s.ino ip).dents.length := if_pos htype
    rw [hsize, hdents]
    simp only [slots, direntSize, List.length_cons]
    omega
  rw [hslots]
  refine (isdiremptyFrom_runs rest.length 2 (by rw [hdents]; simp; omega) fun l de hl hlt =>
    absurd hlt (by omega)).mono ?_
  rintro r s' ⟨rfl, hempty⟩
  refine ⟨rfl, fun hr => ?_⟩
  rintro ⟨k, x⟩ j hmem
  obtain ⟨hget, hj⟩ := (hedges k x j).mp hmem
  exact hj (hempty hr (k + 2) ⟨j, x⟩ (by omega) (by rw [hdents]; simpa using hget))

/-! ### Paths -/

def Walk (φ : Flags) (p : Fin n) (t : Tree) (c m : Multiset Inum) (w : Option Inum)
    (r : Option Inum) (s' : State n) : Prop :=
  ∃ t', SeqInv φ p s' t' c (r.elim m (· ::ₘ m)) w ∧ Shrinks m t t'

theorem namexElems_runs (hG : Guards φ G) {parent : Bool} (names : List Name)
    (hinv : SeqInv φ p s t c (ip ::ₘ m) w) (hown : ∀ i, w = some i → i ∈ m) :
    Runs φ G p (namexElems parent names ip) s fun r => Walk φ p t c m w (r.map Prod.fst) := by
  induction names generalizing s t ip with
  | nil =>
    cases parent with
    | false => exact ⟨t, hinv, .refl⟩
    | true =>
      refine .seq (iput_runs hG hinv) ?_
      rintro _ s' ⟨t', hinv', hshrinks⟩
      exact ⟨t', hinv', hshrinks⟩
  | cons name rest ih =>
    refine .seq (ilock_runs hinv fun hl => hinv.live hl ip (Multiset.mem_cons_self ip m)) ?_
    rintro _ s₁ ⟨hinv₁, -, -⟩
    -- giving up
    have hstop : ∀ s₂, SeqInv φ p s₂ t c (ip ::ₘ m) w →
        Runs φ G p (iunlockput ip >>= fun _ => (pure none : FsM (Option (Inum × Name)))) s₂
          fun r => Walk φ p t c m w (r.map Prod.fst) := by
      intro s₂ hinv₂
      refine .seq (iunlockput_runs hG hinv₂) ?_
      rintro _ s₃ ⟨t', hinv₃, hshrinks⟩
      exact ⟨t', hinv₃, hshrinks⟩
    refine .step (.fields ip) (s₁.fields ip, s₁) rfl trivial fun _ => ?_
    by_cases hdir : (s₁.fields ip).type = .dir
    · by_cases hlast : parent = true ∧ rest = []
      · simp only [hdir, hlast, ne_eq, not_true_eq_false, if_false, and_self, if_true]
        refine .seq (iunlock_runs hinv₁) ?_
        rintro _ s₂ ⟨hinv₂, -⟩
        exact ⟨t, hinv₂, .refl⟩
      · simp only [hdir, hlast, ne_eq, not_true_eq_false, if_false]
        refine .seq (dirlookup_runs hinv₁ fun i hi => Multiset.mem_cons_of_mem (hown i hi)) ?_
        rintro r s₂ ⟨-, -, hr⟩
        cases r with
        | none => exact hstop s₂ hr.1
        | some found =>
          obtain ⟨nextIp, off⟩ := found
          have hinv₂ : SeqInv φ p s₂ t c (ip ::ₘ nextIp ::ₘ m) w := by
            rw [Multiset.cons_swap]
            exact hr.1
          refine .seq (iunlockput_runs hG hinv₂) ?_
          rintro _ s₃ ⟨t₃, hinv₃, hshrinks₃⟩
          refine (ih hinv₃).mono ?_
          rintro r s₄ ⟨t₄, hinv₄, hshrinks₄⟩
          exact ⟨t₄, hinv₄, (hshrinks₃.mono fun i hi => Multiset.mem_cons_of_mem hi).trans hshrinks₄⟩
    · simp only [ne_eq, hdir, not_false_eq_true, if_true]
      exact hstop s₁ hinv₁

section

variable (hG : Guards φ G) (hinv : SeqInv φ p s t c refs w) (hown : ∀ i, w = some i → i ∈ refs)
include hG hinv hown

variable {path : Path}

theorem namex_runs {parent : Bool} :
    Runs φ G p (namex path parent) s fun r => Walk φ p t c refs w (r.map Prod.fst) := by
  have hstart : Runs φ G p (namexStart path) s fun ip s' => SeqInv φ p s' t c (ip ::ₘ refs) w := by
    unfold namexStart
    by_cases hroot : path.head? = some slash
    · simp only [hroot, if_true]
      refine .seq (iget_runs hinv (fun _ => ?_) hown) ?_
      · rw [hinv.ok.inv.root]
        decide
      · rintro _ s' ⟨hinv', -⟩
        exact hinv'
    · simp only [hroot, if_false]
      cases hcwd : s.cwd p with
      | none =>
        refine .atomic_bind (o := .cwd) trivial fun r s' hexec _ => ?_
        simp [State.exec, hcwd] at hexec
      | some ip =>
        refine .step .cwd (ip, s) (by simp [State.exec, hcwd]) trivial fun _ => ?_
        refine .step (.idup ip) ((), s.setRef ip (s.ref ip + 1)) rfl trivial fun _ => ?_
        have hw : w = some ip := hinv.own.symm.trans hcwd
        exact hinv.addRef (fun _ => hinv.own_kind ip hw (hown ip hw)) hown
  rw [namex_eq]
  refine .seq hstart ?_
  intro ip s' hinv'
  exact namexElems_runs hG (elems path) hinv' hown

theorem nameiparent_ilock_runs {α : Type} {fail : FsM α} {rest : Inum → Name → FsM α}
    {post : α → State n → Prop} (hfail : ∀ s' t', SeqInv φ p s' t' c refs w → Runs φ G p fail s' post)
    (hrest : ∀ dp name s' t', SeqInv φ p s' t' c (dp ::ₘ refs) w → Shrinks refs t t' →
      Runs φ G p (rest dp name) s' post) :
    Runs φ G p (do
      match ← nameiparent path with
      | none => fail
      | some (dp, name) => do
          ilock dp
          rest dp name) s post := by
  refine .seq (namex_runs hG hinv hown) ?_
  rintro r s₁ ⟨t₁, hinv₁, hshrinks⟩
  cases r with
  | none => exact hfail s₁ t₁ hinv₁
  | some parent =>
    refine .seq (ilock_runs hinv₁ fun hl => hinv₁.live hl _ (Multiset.mem_cons_self _ _)) ?_
    rintro _ s₂ ⟨hinv₂, -, -⟩
    exact hrest _ _ s₂ t₁ hinv₂ hshrinks

theorem namei_ilock_runs {α : Type} {fail : FsM α} {rest : Inum → FsM α} {post : α → State n → Prop}
    (hfail : ∀ s' t', SeqInv φ p s' t' c refs w → Runs φ G p fail s' post)
    (hrest : ∀ ip s' t', SeqInv φ p s' t' c (ip ::ₘ refs) w → t'.kind ip ≠ .free →
      Runs φ G p (rest ip) s' post) :
    Runs φ G p (do
      match ← namei path with
      | none => fail
      | some ip => do
          ilock ip
          rest ip) s post := by
  have hnamei : Runs φ G p (namei path) s (Walk φ p t c refs w) := by
    refine .seq (namex_runs hG hinv hown) fun r s' hwalk => ?_
    cases r with
    | none | some found => exact hwalk
  refine .seq hnamei ?_
  rintro r s₁ ⟨t₁, hinv₁, -⟩
  cases r with
  | none => exact hfail s₁ t₁ hinv₁
  | some ip =>
    refine .seq (ilock_runs hinv₁ fun hl => hinv₁.live hl ip (Multiset.mem_cons_self _ _)) ?_
    rintro _ s₂ ⟨hinv₂, -, hlive⟩
    exact hrest ip s₂ t₁ hinv₂ hlive

end

end Xv6.Fs
