import Xv6.Fs.LockOrder
import Xv6.Lib.Count

/-!
# What processes hold is so

The shared state agrees with the locks, references, current directory and new files of every process, at
each step of any interleaving. A process may hold locks besides those of its call, in `outer`.
-/

namespace Xv6.Fs

open Hold

open Function (update update_self update_of_ne)

variable {n : Nat}

structure Hold.Sound (s : State n) (outer : Set Inum) (p : Fin n) (l : Hold) : Prop where
  lock : ∀ i, s.lock i = some p ↔ i ∈ l.held ∨ i ∈ outer
  apart : ∀ i ∈ l.held, i ∉ outer
  nodup : l.held.Nodup
  cwd : s.cwd p = l.cwd
  live : ∀ i ∈ l.live, i ∈ l.held ∧ (s.ino i).type ≠ .free
  last : ∀ i ∈ l.last, i ∈ l.held
  files : ∀ f ∈ l.files, (s.file f).fields.ip = none ∧ 0 < (s.file f).ref

structure HoldInv (s : State n) (outer : Fin n → Set Inum) (T : Fin n → Hold) : Prop where
  sound : ∀ p, (T p).Sound s (outer p) p
  refs_le : ∀ i, ∑ p, (T p).refs.count i ≤ s.ref i
  files : ∀ p q, p ≠ q → ∀ f ∈ (T p).files, f ∉ (T q).files
  unused : ∀ f, (s.file f).ref = 0 → (s.file f).fields.ip = none

def State.Counts (s s' : State n) (l l' : Hold) : Prop :=
  ∀ i, s'.ref i + l.refs.count i = s.ref i + l'.refs.count i

theorem Hold.Sound.frame {s s' : State n} {outer : Set Inum} {q : Fin n} {l : Hold}
    (hsound : l.Sound s outer q) (hlock : ∀ i, s'.lock i = some q ↔ s.lock i = some q)
    (hcwd : s'.cwd q = s.cwd q) (htype : ∀ i ∈ l.live, (s'.ino i).type = (s.ino i).type)
    (hfile : ∀ f ∈ l.files, s'.file f = s.file f) : l.Sound s' outer q :=
  { hsound with
    lock := fun i => (hlock i).trans (hsound.lock i)
    cwd := hcwd.trans hsound.cwd
    live := fun i hi => htype i hi ▸ hsound.live i hi
    files := fun f hf => hfile f hf ▸ hsound.files f hf }

namespace HoldInv

/-- Process `p` comes to have `l'` in a step to `s'`. -/
abbrev Goes (s : State n) (outer : Fin n → Set Inum) (T : Fin n → Hold) (p : Fin n) (s' : State n)
    (l' : Hold) : Prop :=
  s.Counts s' (T p) l' ∧ HoldInv s' outer (update T p l')

variable {s s' : State n} {outer : Fin n → Set Inum} {T : Fin n → Hold} {p : Fin n} {l' : Hold} {ip : Inum}

section

variable (hinv : HoldInv s outer T)
include hinv

theorem lock_ne {q : Fin n} (hne : p ≠ q) {i : Inum} (hp : i ∈ (T p).held) : s.lock i ≠ some q := by
  rw [((hinv.sound p).lock i).mpr (.inl hp), ne_eq, Option.some.injEq]
  exact hne

theorem held_disjoint {q : Fin n} (hne : p ≠ q) {i : Inum} (hp : i ∈ (T p).held) : i ∉ (T q).held :=
  fun hq => hinv.lock_ne hne hp (((hinv.sound q).lock i).mpr (.inl hq))

theorem count_le (p : Fin n) (i : Inum) : (T p).refs.count i ≤ s.ref i :=
  le_trans (le_sum (fun q => (T q).refs.count i) p) (hinv.refs_le i)

theorem mine : ∀ f ∈ (T p).files, ∀ q, q ≠ p → f ∉ (T q).files :=
  fun f hf q hq => hinv.files p q hq.symm f hf

theorem update (hself : l'.Sound s' (outer p) p) (hothers : ∀ q, q ≠ p → (T q).Sound s' (outer q) q)
    (hcounts : s.Counts s' (T p) l') (hfiles : ∀ f ∈ l'.files, ∀ q, q ≠ p → f ∉ (T q).files)
    (hunused : ∀ f, (s'.file f).ref = 0 → (s'.file f).fields.ip = none) :
    Goes s outer T p s' l' := by
  refine ⟨hcounts, fun q => ?_, fun i => ?_, fun q r hne f hf => ?_, hunused⟩
  · by_cases hq : q = p
    · subst hq
      simpa using hself
    · simpa [update_of_ne hq] using hothers q hq
  · have hsum := sum_update_add (fun l : Hold => l.refs.count i) T p l'
    have hle := hinv.refs_le i
    have hcount := hcounts i
    omega
  · by_cases hq : q = p
    · subst hq
      rw [update_self] at hf
      rw [update_of_ne hne.symm]
      exact hfiles f hf r hne.symm
    · rw [update_of_ne hq] at hf
      by_cases hr : r = p
      · subst hr
        rw [update_self]
        exact fun hmem => hfiles f hmem q hq hf
      · rw [update_of_ne hr]
        exact hinv.files q r hne f hf

theorem still (htype : ∀ i, (s.ino i).type ≠ .free → (s'.ino i).type = (s.ino i).type)
    (hlive' : ∀ i ∈ l'.live, i ∈ (T p).live ∨ i ∈ (T p).held ∧ (s.ino i).type ≠ .free)
    (hlast' : ∀ i ∈ l'.last, i ∈ (T p).held) (hfiles' : l'.files = (T p).files := by rfl)
    (hlock : s'.lock = s.lock := by rfl) (href : s'.ref = s.ref := by rfl)
    (hcwd : s'.cwd = s.cwd := by rfl) (hfile : s'.file = s.file := by rfl)
    (hheld' : l'.held = (T p).held := by rfl) (hrefs' : l'.refs = (T p).refs := by rfl)
    (hcwd' : l'.cwd = (T p).cwd := by rfl) :
    Goes s outer T p s' l' := by
  have hsound : ∀ q, (T q).Sound s' (outer q) q := fun q =>
    (hinv.sound q).frame (fun i => by rw [hlock]) (by rw [hcwd])
      (fun i hi => htype i ((hinv.sound q).live i hi).2) fun f _ => by rw [hfile]
  refine hinv.update ?_ (fun q _ => hsound q) (fun i => by rw [href, hrefs'])
    (fun f hf q hq => hinv.files p q hq.symm f (hfiles' ▸ hf)) (by rw [hfile]; exact hinv.unused)
  refine ⟨?_, ?_, ?_, hcwd' ▸ (hsound p).cwd, fun i hi => ?_, ?_, ?_⟩
  · rw [hheld']
    exact (hsound p).lock
  · rw [hheld']
    exact (hsound p).apart
  · rw [hheld']
    exact (hsound p).nodup
  · rw [hheld']
    rcases hlive' i hi with hold | ⟨hheld, hne⟩
    · exact (hsound p).live i hold
    · exact ⟨hheld, htype i hne ▸ hne⟩
  · rw [hheld']
    exact hlast'
  · rw [hfiles']
    exact (hsound p).files

/-! ### One lemma per operation -/

theorem lock (hfree : s.lock ip = none) :
    ip ∉ (T p).held ∧ Goes s outer T p (s.setLock ip (some p)) { T p with held := ip :: (T p).held } := by
  have hsound := hinv.sound p
  have hnone : ∀ q, ¬ (ip ∈ (T q).held ∨ ip ∈ outer q) := by
    intro q hq
    have hlock := ((hinv.sound q).lock ip).mpr hq
    rw [hfree] at hlock
    cases hlock
  have hother : ∀ i, i ≠ ip → (s.setLock ip (some p)).lock i = s.lock i := fun i hi => update_of_ne hi ..
  have hself : (s.setLock ip (some p)).lock ip = some p := update_self ..
  refine ⟨fun hmem => hnone p (.inl hmem), hinv.update ?_ (fun q hq => ?_) (fun _ => rfl)
    hinv.mine hinv.unused⟩
  · refine { hsound with
      lock := fun i => ?_
      apart := ?_
      nodup := List.nodup_cons.mpr ⟨fun hmem => hnone p (.inl hmem), hsound.nodup⟩
      live := fun i hi => ⟨List.mem_cons_of_mem _ (hsound.live i hi).1, (hsound.live i hi).2⟩
      last := fun i hi => List.mem_cons_of_mem _ (hsound.last i hi) }
    · by_cases hi : i = ip
      · subst hi
        simp [hself]
      · rw [hother i hi, hsound.lock i]
        simp [hi]
    · rintro i hi
      rcases List.mem_cons.mp hi with rfl | hold
      · exact fun hout => hnone p (.inr hout)
      · exact hsound.apart i hold
  · refine (hinv.sound q).frame (fun i => ?_) rfl (fun _ _ => rfl) fun _ _ => rfl
    by_cases hi : i = ip
    · subst hi
      rw [hself, hfree]
      simp [hq.symm]
    · rw [hother i hi]

theorem unlock (hheld : ip ∈ (T p).held) :
    Goes s outer T p (s.setLock ip none) (Hold.next (.unlock ip) (T p) ()) := by
  have hsound := hinv.sound p
  have herase : ∀ i, i ∈ (T p).held.erase ip ↔ i ≠ ip ∧ i ∈ (T p).held := fun i =>
    hsound.nodup.mem_erase_iff
  have hother : ∀ i, i ≠ ip → (s.setLock ip none).lock i = s.lock i := fun i hi => update_of_ne hi ..
  have hself : (s.setLock ip none).lock ip = none := update_self ..
  refine hinv.update ?_ (fun q hq => ?_) (fun _ => rfl) hinv.mine hinv.unused
  · refine { hsound with
      lock := fun i => ?_
      apart := fun i hi => hsound.apart i ((herase i).mp hi).2
      nodup := hsound.nodup.erase ip
      live := fun i hi => ⟨(herase i).mpr ⟨hi.2, (hsound.live i hi.1).1⟩, (hsound.live i hi.1).2⟩
      last := fun i hi => (herase i).mpr ⟨hi.2, hsound.last i hi.1⟩ }
    change (s.setLock ip none).lock i = some p ↔ i ∈ (T p).held.erase ip ∨ i ∈ outer p
    rw [herase]
    by_cases hi : i = ip
    · subst hi
      simp [hself, hsound.apart i hheld]
    · rw [hother i hi, hsound.lock i]
      simp [hi]
  · refine (hinv.sound q).frame (fun i => ?_) rfl (fun _ _ => rfl) fun _ _ => rfl
    by_cases hi : i = ip
    · subst hi
      rw [hself]
      exact ⟨nofun, fun hlock => absurd hlock (hinv.lock_ne hq.symm hheld)⟩
    · rw [hother i hi]

theorem setRefs {ref : Inum → Nat} {valid : Inum → Bool} {refs : Multiset Inum} {nondir : Set Inum}
    (hcounts : ∀ i, ref i + (T p).refs.count i = s.ref i + refs.count i) :
    Goes s outer T p { s with ref := ref, valid := valid } { T p with refs := refs, nondir := nondir } :=
  hinv.update { hinv.sound p with } (fun q _ => { hinv.sound q with }) hcounts hinv.mine hinv.unused

end

section

variable (hinv : HoldInv s outer T)
include hinv

theorem decRef (hmem : ip ∈ (T p).refs) :
    Goes s outer T p (s.setRef ip (s.ref ip - 1)) (Hold.next (.decRef ip) (T p) ()) := by
  refine hinv.setRefs fun i => ?_
  have hpos := (Multiset.count_pos.mpr hmem).trans_le (hinv.count_le p ip)
  have hcount := update_sub_count hpos ((T p).refs.erase ip) i
  rwa [Multiset.cons_erase hmem] at hcount

/-- Of an inode that is freed, only the process that holds its lock knew that it was allocated. -/
theorem ifree (hlast : ip ∈ (T p).last) :
    Goes s outer T p (s.ifree ip) (Hold.next (.ifree ip) (T p) ()) := by
  have hheld := (hinv.sound p).last ip hlast
  have htype : ∀ i, i ≠ ip → ((s.ifree ip).ino i).type = (s.ino i).type := by
    intro i hi
    simp [State.ifree, State.setIno, State.setValid, update_of_ne hi]
  refine hinv.update ?_ (fun q hq => ?_) (fun _ => rfl) hinv.mine hinv.unused
  · have hsound := hinv.sound p
    exact { hsound with
      live := fun i hi => ⟨(hsound.live i hi.1).1, htype i hi.2 ▸ (hsound.live i hi.1).2⟩ }
  · refine (hinv.sound q).frame (fun _ => .rfl) rfl (fun i hi => htype i ?_) fun _ _ => rfl
    rintro rfl
    exact hinv.held_disjoint hq ((hinv.sound q).live i hi).1 hheld

theorem setCwd {cwd : Option Inum} :
    Goes s outer T p { s with cwd := Function.update s.cwd p cwd } { T p with cwd := cwd } :=
  hinv.update { hinv.sound p with cwd := update_self .. }
    (fun q hq => (hinv.sound q).frame (fun _ => .rfl) (update_of_ne hq ..) (fun _ _ => rfl)
      fun _ _ => rfl) (fun _ => rfl) hinv.mine hinv.unused

theorem setFile {f : Nat} {fl : File} {files : Set Nat} (hmine : ∀ q, q ≠ p → f ∉ (T q).files)
    (hunused : fl.ref = 0 → fl.fields.ip = none)
    (hfiles : ∀ g ∈ files, g ∈ (T p).files ∧ g ≠ f ∨ g = f ∧ fl.fields.ip = none ∧ 0 < fl.ref) :
    Goes s outer T p (s.setFile f fl) { T p with files := files } := by
  have hother : ∀ g, g ≠ f → (s.setFile f fl).file g = s.file g := fun g hg => update_of_ne hg ..
  have hself : (s.setFile f fl).file f = fl := update_self ..
  refine hinv.update ?_ (fun q hq => (hinv.sound q).frame (fun _ => .rfl) rfl (fun _ _ => rfl)
    fun g hg => ?_) (fun _ => rfl) (fun g hg q hq => ?_) (fun g => ?_)
  · refine { hinv.sound p with files := fun g hg => ?_ }
    rcases hfiles g hg with ⟨hold, hne⟩ | ⟨rfl, hnew⟩
    · rw [hother g hne]
      exact (hinv.sound p).files g hold
    · rw [hself]
      exact hnew
  · refine hother g ?_
    rintro rfl
    exact hmine q hq hg
  · rcases hfiles g hg with ⟨hold, -⟩ | ⟨rfl, -⟩
    · exact hinv.files p q hq.symm g hold
    · exact hmine q hq
  · by_cases hg : g = f
    · subst hg
      rw [hself]
      exact hunused
    · rw [hother g hg]
      exact hinv.unused g

theorem filealloc : Goes s outer T p s.filealloc.2 (Hold.next .filealloc (T p) s.filealloc.1) := by
  unfold State.filealloc
  cases hfree : s.freeFile with
  | none =>
    refine hinv.still (fun _ _ => rfl) (fun _ hi => .inl hi) (hinv.sound p).last ?_
    ext f
    simp [Hold.next]
  | some f =>
    have hzero : (s.file f).ref = 0 := by simpa using List.find?_some hfree
    have hnew : ∀ q, f ∉ (T q).files := fun q hf =>
      absurd ((hinv.sound q).files f hf).2 (by omega)
    refine hinv.setFile (fun q _ => hnew q) (fun _ => hinv.unused f hzero) ?_
    rintro g (hg | hg)
    · refine .inl ⟨hg, ?_⟩
      rintro rfl
      exact hnew p hg
    · obtain rfl : g = f := by simpa using hg
      exact .inr ⟨rfl, hinv.unused g hzero, Nat.one_pos⟩

theorem fileDrop {f : Nat} (hf : f ∈ (T p).files) : Hold.res (.fileDrop f) (T p) (s.fileDrop f).1 ∧
      Goes s outer T p (s.fileDrop f).2 (Hold.next (.fileDrop f) (T p) (s.fileDrop f).1) := by
  have hmine := (hinv.sound p).files f hf
  have hother : ∀ q, q ≠ p → f ∉ (T q).files := fun q hq => hinv.files p q hq.symm f hf
  simp only [State.fileDrop]
  split_ifs with hbad hkept
  · exact absurd hmine.2 (by omega)
  · exact ⟨trivial, hinv.setFile hother (fun _ => hmine.1) fun g hg => .inl hg⟩
  · exact ⟨hmine.1, hinv.setFile hother (fun _ => rfl) fun g hg => .inl hg⟩

end

end HoldInv

/-! ### Every operation -/

theorem eq_of_some_eq_pair {α β : Type} {x : α × β} {a : α} {b : β} (h : some x = some (a, b)) :
    a = x.1 ∧ b = x.2 := by
  cases h
  exact ⟨rfl, rfl⟩

theorem type_setIno {s : State n} {ip : Inum} {node : Inode} (htype : node.type = (s.ino ip).type)
    (i : Inum) : ((s.setIno ip node).ino i).type = (s.ino i).type := by
  by_cases hi : i = ip
  · subst hi
    change (Function.update s.ino i node i).type = _
    rw [update_self, htype]
  · change (Function.update s.ino ip node i).type = _
    rw [update_of_ne hi]

theorem HoldInv.step {p : Fin n} {o : Op} {s s' : State n} {outer : Fin n → Set Inum}
    {T : Fin n → Hold} {r : o.Res} (hinv : HoldInv s outer T) (hpre : Hold.pre o (T p))
    (hexec : s.exec p o = some (r, s')) :
    Hold.res o (T p) r ∧ Goes s outer T p s' (Hold.next o (T p) r) := by
  have hlast := (hinv.sound p).last
  -- an operation that neither changes the state nor tells the process anything
  have hkeep : Goes s outer T p s (T p) :=
    hinv.still (fun _ _ => rfl) (fun _ hi => Or.inl hi) hlast
  cases o with
  | beginOp | endOp | holdingsleep ip | readProgram ip | argfd fd | file f =>
    cases hexec; exact ⟨trivial, hkeep⟩
  | cwd =>
    obtain ⟨ip, hcwd, heq⟩ := Option.map_eq_some_iff.mp hexec
    cases heq
    exact ⟨(hinv.sound p).cwd.symm.trans hcwd, hkeep⟩
  | setCwd ip => cases hexec; exact ⟨trivial, hinv.setCwd⟩
  | igetEntry ip =>
    obtain ⟨rfl, rfl⟩ := eq_of_some_eq_pair hexec
    refine ⟨trivial, ?_⟩
    unfold State.igetEntry
    split_ifs with hpos hroom
    · exact hinv.setRefs (update_add_count s.ref (T p).refs ip)
    · have hzero : s.ref ip = 0 := by omega
      have hcounts := update_add_count s.ref (T p).refs ip
      rw [hzero] at hcounts
      exact hinv.setRefs hcounts
    · exact hkeep
  | idup ip => cases hexec; exact ⟨trivial, hinv.setRefs (update_add_count s.ref (T p).refs ip)⟩
  | tryLock site ip =>
    obtain ⟨rfl, rfl⟩ := eq_of_some_eq_pair hexec
    cases hlock : s.lock ip with
    | none =>
      obtain ⟨hnot, hinv'⟩ := hinv.lock (p := p) hlock
      simp only [State.tryLock, hlock]
      exact ⟨fun _ => hnot, by cases site <;> exact hinv'⟩
    | some q =>
      simp only [State.tryLock, hlock]
      refine ⟨nofun, ?_⟩
      cases site <;> exact hinv.still (fun _ _ => rfl) (fun _ hi => .inl hi) hlast
  | waitLock ip =>
    obtain ⟨hlock, heq⟩ := Option.ite_none_right_eq_some.mp hexec
    cases heq
    exact hinv.lock hlock
  | unlock ip => cases hexec; exact ⟨trivial, hinv.unlock hpre⟩
  | load ip =>
    obtain ⟨rfl, rfl⟩ := eq_of_some_eq_pair hexec
    refine ⟨trivial, ?_⟩
    unfold State.load
    split_ifs <;>
    · refine hinv.still (fun _ _ => rfl) ?_ hlast
      rintro i (hi | ⟨rfl, hheld, htype⟩)
      · exact .inl hi
      · exact .inr ⟨hheld, htype⟩
  | fields ip =>
    cases hexec
    exact ⟨fun hlive => ((hinv.sound p).live ip hlive).2,
      hinv.still (fun _ _ => rfl) (fun _ hi => .inl hi) hlast⟩
  | ref ip =>
    cases hexec
    refine ⟨hinv.count_le p ip, hinv.still (fun _ _ => rfl) (fun _ hi => .inl hi) ?_⟩
    rintro i (hi | ⟨rfl, hheld, -⟩)
    · exact hlast i hi
    · exact hheld
  | decRef ip => cases hexec; exact ⟨trivial, hinv.decRef hpre⟩
  | ifree ip => cases hexec; exact ⟨trivial, hinv.ifree hpre⟩
  | iallocEntry type =>
    obtain ⟨rfl, rfl⟩ := eq_of_some_eq_pair hexec
    refine ⟨trivial, ?_⟩
    unfold State.iallocEntry
    cases hfree : s.freeInum with
    | none =>
      exact hinv.still (fun _ _ => rfl) (fun _ hi => .inl hi) hlast
    | some ip =>
      have hfound := List.find?_some hfree
      simp only [decide_eq_true_eq] at hfound
      refine hinv.still (fun i hi => ?_) (fun _ hi => .inl hi) hlast
      have hne : i ≠ ip := by
        rintro rfl
        exact hi hfound.2
      exact congrArg Inode.type (update_of_ne hne ..)
  | initInode ip major minor | addNlink ip d =>
    cases hexec
    exact ⟨trivial, hinv.still (fun i _ => type_setIno (by rfl) i) (fun _ hi => .inl hi) hlast⟩
  | readDirent dp off | clearFd fd =>
    cases hexec
    exact ⟨trivial, hinv.still (fun _ _ => rfl) (fun _ hi => .inl hi) hlast⟩
  | writeDirent dp off de =>
    obtain ⟨rfl, rfl⟩ := eq_of_some_eq_pair hexec
    refine ⟨trivial, ?_⟩
    unfold State.writeDirent
    cases writeSlot (s.ino dp).dents (off / direntSize) de with
    | none => exact hkeep
    | some dents =>
      exact hinv.still (fun i _ => type_setIno (by rfl) i) (fun _ hi => .inl hi) hlast
  | writei ip off src | addOff f k => exact hpre.elim
  | filealloc =>
    obtain ⟨rfl, rfl⟩ := eq_of_some_eq_pair hexec
    exact ⟨trivial, hinv.filealloc⟩
  | fdalloc f =>
    obtain ⟨rfl, rfl⟩ := eq_of_some_eq_pair hexec
    refine ⟨trivial, ?_⟩
    unfold State.fdalloc
    cases s.freeFd p with
    | none => exact hkeep
    | some fd =>
      exact hinv.still (fun _ _ => rfl) (fun _ hi => .inl hi) hlast
  | fileInit f ip readable writable =>
    cases hexec
    have hmine := (hinv.sound p).files f hpre
    refine ⟨trivial, hinv.setFile (hinv.mine f hpre) (fun hzero => ?_) fun g hg => .inl hg⟩
    exact absurd hmine.2 (by simp only at hzero; omega)
  | fileDrop f =>
    obtain ⟨rfl, rfl⟩ := eq_of_some_eq_pair hexec
    exact hinv.fileDrop hpre
  | panic msg => cases hexec

end Xv6.Fs
