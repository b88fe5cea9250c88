import Xv6.Fs.Proof.AccountCalls
import Xv6.Fs.Proof.HoldInv

/-!
# The lock protocol is sound

The shared state agrees with what every process knows, at each step of any interleaving. The order
behind the protocol is the time at which an inode was last allocated: a directory's entries other
than `.` and `..` name directories allocated after it.
-/

namespace Xv6.Fs

open Hold

open Function (update_self update_of_ne)

variable {n : Nat}

def State.Names (s : State n) (d i : Inum) : Prop :=
  (s.ino d).type = .dir ∧ ∃ de ∈ (s.ino d).dents, de.inum = i ∧ i ≠ 0 ∧ ¬ IsDot de.name

structure Hold.Correct (s : State n) (birth : Inum → Nat) (l : Hold) : Prop where
  dirs : ∀ d ∈ l.dirs, d ∈ l.held ∧ (s.ino d).type = .dir
  below : ∀ x ∈ l.below, x.1 ∈ l.dirs ∧ ((s.ino x.2).type = .dir → birth x.1 < birth x.2)
  nondir : ∀ i ∈ l.nondir, i ∈ l.refs ∧ (s.ino i).type ≠ .dir ∧ (s.ino i).type ≠ .free

/-- The invariant of the interleaving: `birth` is the allocation time of an inode and `clk` the
present. -/
structure LockInv (s : State n) (T : Fin n → Hold) (birth : Inum → Nat) (clk : Nat) : Prop where
  holds : HoldInv s (fun _ => ∅) T
  correct : ∀ p, (T p).Correct s birth
  born : ∀ i, birth i < clk
  entry : ∀ d i, s.Names d i → (s.ino i).type = .dir → birth d < birth i
  last : ∀ p q, p ≠ q → ∀ i ∈ (T p).last, i ∉ (T q).nondir

/-- Some birth times make the shared state agree with what the processes know. -/
def LockJ (s : State n) (T : Fin n → Hold) : Prop := ∃ birth clk, LockInv s T birth clk

theorem Hold.Correct.frame {s s' : State n} {birth : Inum → Nat} {l : Hold}
    (hcorrect : l.Correct s birth) (htype : ∀ i, (s'.ino i).type = (s.ino i).type) :
    l.Correct s' birth where
  dirs d hd := by
    rw [htype]
    exact hcorrect.dirs d hd
  below x hx := by
    rw [htype]
    exact hcorrect.below x hx
  nondir i hi := by
    rw [htype]
    exact hcorrect.nondir i hi

namespace LockInv

variable {s s' : State n} {T : Fin n → Hold} {birth birth' : Inum → Nat} {clk clk' : Nat} {p : Fin n}
  {l' : Hold} {ip dp : Inum}

theorem lock_iff (hinv : LockInv s T birth clk) (p : Fin n) (i : Inum) :
    s.lock i = some p ↔ i ∈ (T p).held :=
  ((hinv.holds.sound p).lock i).trans (or_iff_left (Set.notMem_empty i))

theorem update (hinv : LockInv s T birth clk)
    (hholds : HoldInv s' (fun _ => ∅) (Function.update T p l')) (hself : l'.Correct s' birth')
    (hothers : ∀ q, q ≠ p → (T q).Correct s' birth') (hborn : ∀ i, birth' i < clk')
    (hentry : ∀ d i, s'.Names d i → (s'.ino i).type = .dir → birth' d < birth' i)
    (hlast : ∀ i ∈ l'.last, ∀ q, q ≠ p → i ∉ (T q).nondir)
    (hnondir : ∀ i ∈ l'.nondir, ∀ q, q ≠ p → i ∉ (T q).last) :
    LockInv s' (Function.update T p l') birth' clk' where
  holds := hholds
  correct q := by
    by_cases hq : q = p
    · subst hq
      simpa using hself
    · simpa [update_of_ne hq] using hothers q hq
  born := hborn
  entry := hentry
  last q r hne i hi := by
    by_cases hq : q = p
    · subst hq
      rw [update_self] at hi
      rw [update_of_ne (Ne.symm hne)]
      exact hlast i hi r (Ne.symm hne)
    · rw [update_of_ne hq] at hi
      by_cases hr : r = p
      · subst hr
        rw [update_self]
        exact fun hmem => hnondir i hmem q hq hi
      · rw [update_of_ne hr]
        exact hinv.last q r hne i hi

theorem names_congr (htype : ∀ i, (s'.ino i).type = (s.ino i).type)
    (hdents : ∀ i, (s'.ino i).dents = (s.ino i).dents) {d i : Inum} (hnames : s'.Names d i) :
    s.Names d i := by
  obtain ⟨hd, hde⟩ := hnames
  rw [htype] at hd
  rw [hdents] at hde
  exact ⟨hd, hde⟩

theorem learn (hinv : LockInv s T birth clk) (hholds : HoldInv s' (fun _ => ∅) (Function.update T p l'))
    (htype : ∀ i, (s'.ino i).type = (s.ino i).type) (hdents : ∀ i, (s'.ino i).dents = (s.ino i).dents)
    (hself : l'.Correct s birth) (hlast : ∀ i ∈ l'.last, i ∈ (T p).last ∨ ∀ q, q ≠ p → i ∉ (T q).refs)
    (hnondir : ∀ i ∈ l'.nondir, i ∈ (T p).nondir ∨ i ∈ (T p).held) : LockJ s' (Function.update T p l') := by
  refine ⟨birth, clk, hinv.update hholds (hself.frame htype) (fun q _ => (hinv.correct q).frame htype)
    hinv.born (fun d i hnames hdir => ?_) (fun i hi q hq hmem => ?_) fun i hi q hq hmem => ?_⟩
  · exact hinv.entry d i (names_congr htype hdents hnames) (htype i ▸ hdir)
  · rcases hlast i hi with hold | hnoref
    · exact hinv.last p q hq.symm i hold hmem
    · exact hnoref q hq ((hinv.correct q).nondir i hmem).1
  · rcases hnondir i hi with hold | hheld
    · exact hinv.last q p hq i hmem hold
    · exact hinv.holds.held_disjoint hq ((hinv.holds.sound q).last i hmem) hheld

theorem tell (hinv : LockInv s T birth clk)
    (hholds : HoldInv s' (fun _ => ∅) (Function.update T p l')) (hino : s'.ino = s.ino)
    (hself : l'.Correct s birth) (hlast : l'.last = (T p).last) (hnondir : l'.nondir = (T p).nondir) :
    LockJ s' (Function.update T p l') :=
  hinv.learn hholds (fun i => by rw [hino]) (fun i => by rw [hino]) hself
    (fun _ hi => .inl (hlast ▸ hi)) fun _ hi => .inl (hnondir ▸ hi)

/-! ### The operations that change types and entries -/

/-- Freeing an inode makes it no directory: the processes that knew it as anything are the one
that holds its lock. -/
theorem ifree (hinv : LockInv s T birth clk) (hlast : ip ∈ (T p).last)
    (hholds : HoldInv (s.ifree ip) (fun _ => ∅)
      (Function.update T p (lockProtocol.next (.ifree ip) (T p) ()))) :
    LockInv (s.ifree ip) (Function.update T p (lockProtocol.next (.ifree ip) (T p) ())) birth clk := by
  have hheld := (hinv.holds.sound p).last ip hlast
  have hino : ∀ i, i ≠ ip → (s.ifree ip).ino i = s.ino i := fun i hi => update_of_ne hi ..
  have hfreed : ((s.ifree ip).ino ip).type = .free := by
    simp [State.ifree, State.setIno, State.setValid, Inode.freed]
  have hbelow : ∀ d i, ((s.ino i).type = .dir → birth d < birth i) →
      ((s.ifree ip).ino i).type = .dir → birth d < birth i := by
    intro d i hold hdir
    by_cases hi : i = ip
    · subst hi
      rw [hfreed] at hdir
      cases hdir
    · exact hold (hino i hi ▸ hdir)
  refine hinv.update hholds ?_ (fun q hq => ?_) hinv.born (fun d i hnames hdir => ?_)
    (fun i hi q hq => hinv.last p q hq.symm i hi) (fun i hi q hq hmem => hinv.last q p hq i hmem hi.1)
  · have hcorrect := hinv.correct p
    exact
      { dirs := fun d hd => ⟨(hcorrect.dirs d hd.1).1, hino d hd.2 ▸ (hcorrect.dirs d hd.1).2⟩
        below := fun x hx => ⟨⟨(hcorrect.below x hx.1).1, hx.2⟩, hbelow x.1 x.2 (hcorrect.below x hx.1).2⟩
        nondir := fun i hi => ⟨(hcorrect.nondir i hi.1).1, hino i hi.2 ▸ (hcorrect.nondir i hi.1).2⟩ }
  · have hcorrect := hinv.correct q
    refine
      { dirs := fun d hd => ⟨(hcorrect.dirs d hd).1, ?_⟩
        below := fun x hx => ⟨(hcorrect.below x hx).1, hbelow x.1 x.2 (hcorrect.below x hx).2⟩
        nondir := fun i hi => ⟨(hcorrect.nondir i hi).1, ?_⟩ }
    · rw [hino d]
      · exact (hcorrect.dirs d hd).2
      · rintro rfl
        exact hinv.holds.held_disjoint hq (hcorrect.dirs d hd).1 hheld
    · rw [hino i]
      · exact (hcorrect.nondir i hi).2
      · rintro rfl
        exact hinv.last p q hq.symm i hlast hi
  · obtain ⟨hd, de, hde, hnamed⟩ := hnames
    have hdne : d ≠ ip := by
      rintro rfl
      rw [hfreed] at hd
      cases hd
    rw [hino d hdne] at hd hde
    exact hbelow d i (hinv.entry d i ⟨hd, de, hde, hnamed⟩) hdir

theorem iallocEntry (hinv : LockInv s T birth clk) {type : FileType} (hfree : (s.ino ip).type = .free)
    (hholds : HoldInv (s.setIno ip (.fresh type)) (fun _ => ∅)
      (Function.update T p (lockProtocol.next (.iallocEntry type) (T p) (some ip)))) :
    LockInv (s.setIno ip (.fresh type))
      (Function.update T p (lockProtocol.next (.iallocEntry type) (T p) (some ip)))
      (Function.update birth ip clk) (clk + 1) := by
  have hino : ∀ i, i ≠ ip → (s.setIno ip (.fresh type)).ino i = s.ino i := fun i hi => update_of_ne hi ..
  have hne : ∀ i, (s.ino i).type ≠ .free → i ≠ ip := by
    rintro i hi rfl
    exact hi hfree
  have hdne : ∀ d, (s.ino d).type = .dir → d ≠ ip := fun d hd => hne d (by rw [hd]; decide)
  have hbelow : ∀ d i, (s.ino d).type = .dir → ((s.ino i).type = .dir → birth d < birth i) →
      ((s.setIno ip (.fresh type)).ino i).type = .dir →
      Function.update birth ip clk d < Function.update birth ip clk i := by
    intro d i hd hold hdir
    rw [update_of_ne (hdne d hd)]
    by_cases hi : i = ip
    · subst hi
      rw [update_self]
      exact hinv.born d
    · rw [update_of_ne hi]
      exact hold (hino i hi ▸ hdir)
  have hcorrect : ∀ q, (T q).Correct (s.setIno ip (.fresh type)) (Function.update birth ip clk) := by
    intro q
    have hold := hinv.correct q
    refine
      { dirs := fun d hd => ⟨(hold.dirs d hd).1, ?_⟩
        below := fun x hx => ⟨(hold.below x hx).1,
          hbelow x.1 x.2 (hold.dirs _ (hold.below x hx).1).2 (hold.below x hx).2⟩
        nondir := fun i hi => ⟨(hold.nondir i hi).1, ?_⟩ }
    · rw [hino d (hdne d (hold.dirs d hd).2)]
      exact (hold.dirs d hd).2
    · rw [hino i (hne i (hold.nondir i hi).2.2)]
      exact (hold.nondir i hi).2
  refine hinv.update hholds ?_ (fun q _ => hcorrect q) (fun i => ?_) (fun d i hnames hdir => ?_)
    (fun i hi q hq => hinv.last p q hq.symm i hi) (fun i hi q hq hmem => hinv.last q p hq i hmem hi)
  · refine { hcorrect p with below := ?_ }
    rintro x (hx | ⟨hdir, hx⟩)
    · exact (hcorrect p).below x hx
    · obtain rfl : ip = x.2 := by simpa using hx
      refine ⟨hdir, fun _ => ?_⟩
      rw [update_self, update_of_ne (hdne _ ((hinv.correct p).dirs _ hdir).2)]
      exact hinv.born _
  · by_cases hi : i = ip
    · simp [hi]
    · rw [update_of_ne hi]
      exact Nat.lt_succ_of_lt (hinv.born i)
  · obtain ⟨hd, de, hde, hnamed⟩ := hnames
    have hdip : d ≠ ip := by
      rintro rfl
      simp [State.setIno, Inode.fresh] at hde
    rw [hino d hdip] at hd hde
    exact hbelow d i hd (hinv.entry d i ⟨hd, de, hde, hnamed⟩) hdir

theorem mem_writeSlot {dents dents' : List Dirent} {k : Nat} {de x : Dirent}
    (hwrite : writeSlot dents k de = some dents') (hx : x ∈ dents') : x ∈ dents ∨ x = de := by
  unfold writeSlot at hwrite
  split_ifs at hwrite with hlt happend
  · cases hwrite
    rcases List.mem_or_eq_of_mem_set hx with hold | hnew
    · exact .inl hold
    · exact .inr hnew
  · cases hwrite
    simpa using hx

section

variable (hinv : LockInv s T birth clk)
include hinv

theorem names_writeDirent {off : Nat} {de : Dirent}
    (hpre : lockProtocol.pre (.writeDirent dp off de) (T p)) {d i : Inum}
    (hnames : (s.writeDirent dp off de).2.Names d i) (hdir : (s.ino i).type = .dir) :
    birth d < birth i := by
  unfold State.writeDirent at hnames
  cases hwrite : writeSlot (s.ino dp).dents (off / direntSize) de with
  | none =>
    rw [hwrite] at hnames
    exact hinv.entry d i hnames hdir
  | some dents =>
    rw [hwrite] at hnames
    obtain ⟨hd, x, hx, hnamed⟩ := hnames
    have hd' : (s.ino d).type = .dir := by
      have htype := type_setIno (by rfl : ({ s.ino dp with dents := dents } : Inode).type = _) d
      exact htype.symm.trans hd
    by_cases hdp : d = dp
    · subst hdp
      have hx' : x ∈ dents := by simpa [State.setIno] using hx
      rcases mem_writeSlot hwrite hx' with hold | rfl
      · exact hinv.entry d i ⟨hd', x, hold, hnamed⟩ hdir
      · obtain ⟨rfl, hzero, hdot⟩ := hnamed
        rcases hpre.2 hzero with hisdot | hbelow | hnondir
        · exact absurd hisdot hdot
        · exact ((hinv.correct p).below _ hbelow).2 hdir
        · exact absurd hdir ((hinv.correct p).nondir _ hnondir).2.1
    · refine hinv.entry d i ⟨hd', x, ?_, hnamed⟩ hdir
      simpa [State.setIno, update_of_ne hdp] using hx

/-! ### The operations that teach -/

/-- A process that waits in `iput` has learnt that the inode is below all it has locked. -/
theorem correct_iputWait (hnames : ∀ d ∈ (T p).held, s.Names d ip) :
    (Hold.next (.tryLock .iput ip) (T p) false).Correct s birth := by
  have hcorrect := hinv.correct p
  refine { hcorrect with dirs := ?_, below := ?_ }
  · rintro d (hd | hd)
    · exact hcorrect.dirs d hd
    · exact ⟨hd, (hnames d hd).1⟩
  · rintro x (hx | ⟨hd, rfl⟩)
    · exact ⟨.inl (hcorrect.below x hx).1, (hcorrect.below x hx).2⟩
    · exact ⟨.inr hd, hinv.entry _ _ (hnames _ hd)⟩

theorem correct_unlock : (Hold.next (.unlock ip) (T p) ()).Correct s birth := by
  have hcorrect := hinv.correct p
  have hnodup := (hinv.holds.sound p).nodup
  exact { hcorrect with
    dirs := fun d hd => ⟨hnodup.mem_erase_iff.mpr ⟨hd.2, (hcorrect.dirs d hd.1).1⟩,
      (hcorrect.dirs d hd.1).2⟩
    below := fun x hx => ⟨⟨(hcorrect.below x hx.1).1, hx.2⟩, (hcorrect.below x hx.1).2⟩ }

theorem correct_lock : ({ T p with held := ip :: (T p).held } : Hold).Correct s birth :=
  { hinv.correct p with
    dirs := fun d hd => ⟨List.mem_cons_of_mem _ ((hinv.correct p).dirs d hd).1,
      ((hinv.correct p).dirs d hd).2⟩ }

theorem correct_addRef : ({ T p with refs := ip ::ₘ (T p).refs } : Hold).Correct s birth :=
  { hinv.correct p with
    nondir := fun i hi => ⟨Multiset.mem_cons_of_mem ((hinv.correct p).nondir i hi).1,
      ((hinv.correct p).nondir i hi).2⟩ }

theorem correct_fields : (Hold.next (.fields ip) (T p) (s.fields ip)).Correct s birth := by
  have hcorrect := hinv.correct p
  refine
    { dirs := ?_
      below := fun x hx => ⟨.inl (hcorrect.below x hx).1, (hcorrect.below x hx).2⟩
      nondir := ?_ }
  · rintro d (hd | ⟨rfl, hheld, htype⟩)
    · exact hcorrect.dirs d hd
    · exact ⟨hheld, htype⟩
  · rintro i (hi | ⟨rfl, -, hmem, htype⟩)
    · exact hcorrect.nondir i hi
    · exact ⟨hmem, htype⟩

theorem correct_readDirent {off : Nat} :
    (Hold.next (.readDirent dp off) (T p) (s.ino dp).dents[off / direntSize]?).Correct s birth := by
  have hcorrect := hinv.correct p
  refine { hcorrect with below := ?_ }
  rintro x (hx | ⟨rfl, hdir, de, hde, hnamed, hzero, hdot⟩)
  · exact hcorrect.below x hx
  · refine ⟨hdir, hinv.entry _ _ ⟨(hcorrect.dirs _ hdir).2, de, ?_, hnamed, hnamed ▸ hzero, hdot⟩⟩
    exact List.mem_of_getElem? hde

theorem last_ref {i : Inum} (hi : i ∈ (Hold.next (.ref ip) (T p) (s.ref ip)).last) :
    i ∈ (T p).last ∨ ∀ q, q ≠ p → i ∉ (T q).refs := by
  obtain hi | ⟨rfl, -, hmem, hone⟩ := hi
  · exact .inl hi
  · refine .inr fun q hq hmemq => ?_
    have htwo := add_le_sum (fun q => (T q).refs.count i) hq
    have hle := hinv.holds.refs_le i
    have hp := Multiset.count_pos.mpr hmem
    have hq := Multiset.count_pos.mpr hmemq
    have hone' : s.ref i = 1 := hone
    omega

end

end LockInv

/-! ### Every operation -/

/-- Process `p`, holding an inode lock, finds in `iput` that the lock it asks for is taken, and the
inode is not one that the directories it has locked name by an entry other than `.` and `..`. -/
def State.OutOfOrder (s : State n) (p : Fin n) (o : Op) : Prop :=
  ∃ ip d, o = .tryLock .iput ip ∧ s.lock ip ≠ none ∧ s.lock d = some p ∧ ¬ s.Names d ip

def fsSem : Sem (Fin n) Op Op.Res (State n) := fun p o s r s' => s.exec p o = some (r, s')

/-- The steps of process `p` that do not wait against the order of the directory tree. -/
def orderedSem : Sem (Fin n) Op Op.Res (State n) := fun p o s r s' =>
  fsSem p o s r s' ∧ ¬ s.OutOfOrder p o

theorem lockJ_step {p : Fin n} {o : Op} {s s' : State n} {T : Fin n → Hold} {r : o.Res}
    (hJ : LockJ s T) (hpre : lockProtocol.pre o (T p)) (hsem : orderedSem p o s r s') :
    lockProtocol.res o (T p) r ∧ LockJ s' (Function.update T p (lockProtocol.next o (T p) r)) := by
  obtain ⟨birth, clk, hinv⟩ := hJ
  obtain ⟨hexec, horder⟩ := hsem
  obtain ⟨hres, -, hholds⟩ := hinv.holds.step hpre hexec
  refine ⟨hres, ?_⟩
  unfold fsSem at hexec
  have hcorrect := hinv.correct p
  cases o with
  | igetEntry ip =>
    obtain ⟨rfl, rfl⟩ := eq_of_some_eq_pair hexec
    unfold State.igetEntry at hholds ⊢
    split_ifs at hholds ⊢
    · exact hinv.tell hholds rfl hinv.correct_addRef rfl rfl
    · exact hinv.tell hholds rfl hinv.correct_addRef rfl rfl
    · exact hinv.tell hholds rfl { hcorrect with } rfl rfl
  | idup ip =>
    cases hexec
    exact hinv.tell hholds rfl hinv.correct_addRef rfl rfl
  | tryLock site ip =>
    obtain ⟨rfl, rfl⟩ := eq_of_some_eq_pair hexec
    cases hlock : s.lock ip with
    | none =>
      simp only [State.tryLock, hlock] at hholds ⊢
      cases site <;> exact hinv.tell hholds rfl hinv.correct_lock rfl rfl
    | some q =>
      simp only [State.tryLock, hlock] at hholds ⊢
      cases site with
      | ilock =>
        exact hinv.tell hholds rfl hcorrect rfl rfl
      | iput =>
        refine hinv.learn hholds (fun _ => rfl) (fun _ => rfl)
          (hinv.correct_iputWait fun d hd => ?_) (fun _ => .inl) fun _ => .inl
        by_contra hnames
        exact horder ⟨ip, d, rfl, by rw [hlock]; rintro ⟨⟩, (hinv.lock_iff p d).mpr hd, hnames⟩
  | waitLock ip =>
    obtain ⟨hlock, heq⟩ := Option.ite_none_right_eq_some.mp hexec
    cases heq
    exact hinv.tell hholds rfl hinv.correct_lock rfl rfl
  | unlock ip =>
    cases hexec
    exact hinv.learn hholds (fun _ => rfl) (fun _ => rfl) hinv.correct_unlock
      (fun _ hi => .inl hi.1) fun _ => .inl
  | load ip =>
    obtain ⟨rfl, rfl⟩ := eq_of_some_eq_pair hexec
    unfold State.load at hholds ⊢
    split_ifs at hholds ⊢ <;>
    · exact hinv.tell hholds rfl { hcorrect with } rfl rfl
  | fields ip =>
    cases hexec
    refine hinv.learn hholds (fun _ => rfl) (fun _ => rfl) hinv.correct_fields (fun _ => .inl) ?_
    rintro i (hi | ⟨rfl, hheld, -⟩)
    · exact .inl hi
    · exact .inr hheld
  | ref ip =>
    cases hexec
    exact hinv.learn hholds (fun _ => rfl) (fun _ => rfl) { hcorrect with }
      (fun _ hi => hinv.last_ref hi) fun _ => .inl
  | decRef ip =>
    cases hexec
    exact hinv.learn hholds (fun _ => rfl) (fun _ => rfl)
      { hcorrect with nondir := fun i hi => ⟨hi.2, (hcorrect.nondir i hi.1).2⟩ } (fun _ => .inl)
      fun _ hi => .inl hi.1
  | ifree ip =>
    cases hexec
    exact ⟨birth, clk, hinv.ifree hpre hholds⟩
  | iallocEntry type =>
    obtain ⟨rfl, rfl⟩ := eq_of_some_eq_pair hexec
    unfold State.iallocEntry at hholds ⊢
    cases hfree : s.freeInum with
    | none =>
      rw [hfree] at hholds
      refine hinv.learn hholds (fun _ => rfl) (fun _ => rfl) { hcorrect with below := ?_ }
        (fun _ => .inl) fun _ => .inl
      rintro x (hx | ⟨-, hx⟩)
      · exact hcorrect.below x hx
      · cases hx
    | some ip =>
      rw [hfree] at hholds
      have hfound := List.find?_some hfree
      simp only [decide_eq_true_eq] at hfound
      exact ⟨_, _, hinv.iallocEntry hfound.2 hholds⟩
  | initInode ip major minor =>
    cases hexec
    refine hinv.learn hholds (fun i => type_setIno (by rfl) i) (fun i => ?_) hcorrect (fun _ => .inl)
      fun _ => .inl
    by_cases hi : i = ip
    · simp [State.initInode, State.setIno, hi]
    · simp [State.initInode, State.setIno, update_of_ne hi]
  | addNlink ip d =>
    cases hexec
    refine hinv.learn hholds (fun i => type_setIno (by rfl) i) (fun i => ?_) hcorrect (fun _ => .inl)
      fun _ => .inl
    by_cases hi : i = ip
    · simp [State.addNlink, State.setIno, hi]
    · simp [State.addNlink, State.setIno, update_of_ne hi]
  | readDirent dp off =>
    cases hexec
    exact hinv.tell hholds rfl hinv.correct_readDirent rfl rfl
  | writeDirent dp off de =>
    obtain ⟨rfl, rfl⟩ := eq_of_some_eq_pair hexec
    have htype : ∀ i, ((s.writeDirent dp off de).2.ino i).type = (s.ino i).type := by
      intro i
      unfold State.writeDirent
      cases writeSlot (s.ino dp).dents (off / direntSize) de with
      | none => rfl
      | some dents => exact type_setIno (by rfl) i
    exact ⟨birth, clk, hinv.update hholds (hcorrect.frame htype)
      (fun q _ => (hinv.correct q).frame htype) hinv.born
      (fun d i hnames hdir => hinv.names_writeDirent hpre hnames (htype i ▸ hdir))
      (fun i hi q hq => hinv.last p q hq.symm i hi) fun i hi q hq hmem => hinv.last q p hq i hmem hi⟩
  | writei ip off src | addOff f k => exact hpre.elim
  | filealloc =>
    obtain ⟨rfl, rfl⟩ := eq_of_some_eq_pair hexec
    unfold State.filealloc at hholds ⊢
    cases hfree : s.freeFile <;>
    · rw [hfree] at hholds
      exact hinv.tell hholds rfl { hcorrect with } rfl rfl
  | fdalloc f =>
    obtain ⟨rfl, rfl⟩ := eq_of_some_eq_pair hexec
    unfold State.fdalloc at hholds ⊢
    cases hfree : s.freeFd p <;>
    · rw [hfree] at hholds
      exact hinv.tell hholds rfl hcorrect rfl rfl
  | fileDrop f =>
    obtain ⟨rfl, rfl⟩ := eq_of_some_eq_pair hexec
    simp only [State.fileDrop] at hholds ⊢
    split_ifs at hholds ⊢ <;>
    · exact hinv.tell hholds rfl { hcorrect with } rfl rfl
  | panic msg => cases hexec
  | cwd =>
    obtain ⟨ip, -, heq⟩ := Option.map_eq_some_iff.mp hexec
    cases heq
    exact hinv.tell hholds rfl hcorrect rfl rfl
  | beginOp | endOp | setCwd _ | holdingsleep _ | readProgram _ | argfd _ | clearFd _ | file _
  | fileInit _ _ _ _ =>
    cases hexec
    exact hinv.tell hholds rfl { hcorrect with } rfl rfl

end Xv6.Fs
