import Xv6.Fs.Proof.TreeRep
import Xv6.Lib.Count
import Mathlib.Data.Fintype.Card
import Mathlib.Algebra.BigOperators.Ring.Finset

/-!
# Calls that run one after another

The invariant inside a call of process `p`, when no other process runs: the inodes represent a tree,
up to the credit `c` that the call owes, and every reference count covers the other processes'
current directories, the open files and the references `refs` that the call holds. Its own current
directory `w` counts among those.
-/

namespace Xv6.Fs

open Function (update update_self update_of_ne)

open Xv6.Fs.Tree

variable {n : Nat}

def State.cwds (s : State n) (p : Fin n) (i : Inum) : Nat :=
  (Finset.univ.filter fun q => q ≠ p ∧ s.cwd q = some i).card

def State.opens (s : State n) (i : Inum) : Nat :=
  ((Finset.range nfile).filter fun f => (s.file f).fields.ip = some i).card

structure SeqInv (φ : Flags) (p : Fin n) (s : State n) (t : Tree) (c refs : Multiset Inum)
    (w : Option Inum) : Prop where
  rep : Represents s.ino t
  ok : t.Ok φ c
  bound : ∀ i, t.kind i ≠ .free → i < s.ninodes
  refs_le : ∀ i, s.cwds p i + s.opens i + refs.count i ≤ s.ref i
  own : s.cwd p = w
  own_kind : ∀ i, w = some i → i ∈ refs → t.kind i ≠ .free
  cwd : ∀ q i, q ≠ p → s.cwd q = some i → t.kind i ≠ .free
  file : ∀ f i, (s.file f).fields.ip = some i →
    f < nfile ∧ t.kind i ≠ .free ∧ ((s.file f).fields.writable = true → t.kind i ≠ .dir)
  unused : ∀ f, (s.file f).ref = 0 → (s.file f).fields.ip = none
  live : φ.live → ∀ i ∈ refs, t.kind i ≠ .free

/-- No entry is added to a directory without links, and none such gets its first link. -/
def FillsLinked : Op → State n → Prop
  | .addNlink ip v, s => 0 < v → (s.ino ip).type = .dir → 0 < (s.ino ip).nlink
  | .writeDirent dp _ de, s => de.inum ≠ 0 → ¬ IsDot de.name → 0 < (s.ino dp).nlink
  | _, _ => True

instance (o : Op) (s : State n) : Decidable (FillsLinked o s) := by
  cases o <;> unfold FillsLinked <;> infer_instance

def FreesNoParent : Op → State n → Prop
  | .ifree ip, s => (s.ino ip).type = .dir →
      ∀ d, d < s.ninodes → d ≠ ip → (s.ino d).type = .dir → ⟨ip, dotdot⟩ ∉ (s.ino d).dents
  | _, _ => True

instance (o : Op) (s : State n) : Decidable (FreesNoParent o s) := by
  cases o <;> unfold FreesNoParent <;> infer_instance

/-- Where a call may stop short: anywhere but at a write over directory entries and, in the runs
that keep parents, at `ilock`'s panic. -/
def Stop (live : Prop) : Op → State n → Prop
  | .panic .ilockNoType, _ => ¬ live
  | .writei ip _ _, s => (s.ino ip).type ≠ .dir
  | _, _ => True

/-- The condition `G` on steps provides what the claimed properties need. -/
structure Guards (φ : Flags) (G : Op → State n → Prop) : Prop where
  exact : φ.exact → ∀ o s, G o s → FillsLinked o s
  live : φ.live → ∀ o s, G o s → FreesNoParent o s

section Runs

variable (φ : Flags) (G : Op → State n → Prop) [∀ o s, Decidable (G o s)] (p : Fin n) {α β : Type}

/-- Every run of `x` by process `p` from `s` ends in `post`, or stops where it may. -/
def Runs (x : FsM α) (s : State n) (post : α → State n → Prop) : Prop :=
  x.wp (Exec.guard (State.exec p) G) (Stop φ.live) post s

variable {φ G p}

variable {s : State n} {post : α → State n → Prop}

theorem Runs.bind {x : FsM α} {f : α → FsM β} {post : β → State n → Prop}
    (hx : Runs φ G p x s fun a s' => Runs φ G p (f a) s' post) : Runs φ G p (x >>= f) s post :=
  (Prog.wp_bind x f post s).mpr hx

theorem Runs.mono {x : FsM α} {post' : α → State n → Prop}
    (hx : Runs φ G p x s post) (hpost : ∀ a s', post a s' → post' a s') : Runs φ G p x s post' :=
  Prog.wp_mono hx hpost

theorem Runs.atomic_bind {o : Op} {f : o.Res → FsM α} (hstop : Stop φ.live o s)
    (hf : ∀ r s', State.exec p o s = some (r, s') → G o s → Runs φ G p (f r) s' post) :
    Runs φ G p (atomic o >>= f) s post :=
  Prog.wp_guard hstop hf

theorem Runs.step (o : Op) (x : o.Res × State n) {f : o.Res → FsM α}
    (hexec : State.exec p o s = some x) (hstop : Stop φ.live o s)
    (hf : G o s → Runs φ G p (f x.1) x.2 post) : Runs φ G p (atomic o >>= f) s post := by
  refine .atomic_bind hstop fun r s' hexec' hG => ?_
  rw [hexec, Option.some.injEq] at hexec'
  subst hexec'
  exact hf hG

theorem Runs.last (o : Op) (x : o.Res × State n) {post : o.Res → State n → Prop}
    (hexec : State.exec p o s = some x) (hstop : Stop φ.live o s) (hpost : post x.1 x.2) :
    Runs φ G p (atomic o) s post := by
  refine Prog.wp_guard hstop fun r s' hexec' hG => ?_
  rw [hexec, Option.some.injEq] at hexec'
  subst hexec'
  exact hpost

theorem Runs.panic {msg : Panic}
    (hmsg : Stop φ.live (.panic msg) s) : Runs φ G p (Fs.panic msg) s post := by
  refine Prog.wp_guard hmsg fun r => r.elim

end Runs

/-! ### Steps that keep the invariant -/

/-- What a call may do to the tree while it walks with the references `m`: free inodes without links
that `m` does not keep. -/
structure Tree.Shrinks (m : Multiset Inum) (t t' : Tree) : Prop where
  nlink : t'.nlink = t.nlink
  kind : ∀ i ∈ m, t'.kind i = t.kind i
  edges : t'.edges ⊆ t.edges

namespace Tree.Shrinks

variable {m m' : Multiset Inum} {t t' t'' : Tree}

theorem refl : Shrinks m t t := ⟨rfl, fun _ _ => rfl, fun _ h => h⟩

theorem trans (h : Shrinks m t t') (h' : Shrinks m t' t'') : Shrinks m t t'' where
  nlink := h'.nlink.trans h.nlink
  kind i hi := (h'.kind i hi).trans (h.kind i hi)
  edges := fun _ hmem => h.edges (h'.edges hmem)

theorem mono (h : Shrinks m t t') (hm : ∀ i ∈ m', i ∈ m) : Shrinks m' t t' :=
  ⟨h.nlink, fun i hi => h.kind i (hm i hi), h.edges⟩

end Tree.Shrinks

/-- States that differ in locks, `valid` flags and descriptors only. -/
structure State.Same (s s' : State n) : Prop where
  ino : s'.ino = s.ino
  ref : s'.ref = s.ref
  cwd : s'.cwd = s.cwd
  file : s'.file = s.file
  ninodes : s'.ninodes = s.ninodes

variable {s : State n}

theorem State.Same.of_eq {s' : State n} (hino : s'.ino = s.ino) (href : s'.ref = s.ref)
    (hcwd : s'.cwd = s.cwd) (hfile : s'.file = s.file) (hninodes : s'.ninodes = s.ninodes) :
    s.Same s' := ⟨hino, href, hcwd, hfile, hninodes⟩

theorem State.Same.trans {s' s'' : State n} (h : s.Same s') (h' : s'.Same s'') : s.Same s'' :=
  ⟨h'.ino.trans h.ino, h'.ref.trans h.ref, h'.cwd.trans h.cwd, h'.file.trans h.file,
    h'.ninodes.trans h.ninodes⟩

theorem State.opens_setFile {f : Nat} (hf : f < nfile) (fl : File) (j : Inum) :
    (s.setFile f fl).opens j + (if (s.file f).fields.ip = some j then 1 else 0)
      = s.opens j + if fl.fields.ip = some j then 1 else 0 := by
  unfold State.opens
  rw [Finset.card_filter, Finset.card_filter]
  have hsum := sum_update_add_of_mem (Finset.mem_range.mpr hf)
    (fun _ (g : File) => if g.fields.ip = some j then 1 else 0) s.file fl
  exact hsum

theorem State.opens_setFile_same {f : Nat} {fl : File} (hip : fl.fields.ip = (s.file f).fields.ip) (j : Inum) :
    (s.setFile f fl).opens j = s.opens j := by
  unfold State.opens
  congr 1
  refine Finset.filter_congr fun g _ => ?_
  by_cases hgf : g = f
  · subst hgf
    simp [State.setFile, hip]
  · simp [State.setFile, update_of_ne hgf]

theorem State.opens_closeFile {f : Nat} {fl : File} {i : Inum} (hf : f < nfile)
    (hold : (s.file f).fields.ip = some i) (hip : fl.fields.ip = none) (m : Multiset Inum) (j : Inum) :
    (s.setFile f fl).opens j + (i ::ₘ m).count j = s.opens j + m.count j := by
  have hopens := State.opens_setFile hf fl j (s := s)
  rw [hold, hip] at hopens
  simp only [Option.some.injEq, reduceCtorEq, if_false, eq_comm (a := i)] at hopens
  rw [Multiset.count_cons]
  omega

theorem State.opens_openFile {f : Nat} {fl : File} {i : Inum} (hf : f < nfile)
    (hold : (s.file f).fields.ip = none) (hip : fl.fields.ip = some i) (m : Multiset Inum) (j : Inum) :
    (s.setFile f fl).opens j + m.count j = s.opens j + (i ::ₘ m).count j := by
  have hopens := State.opens_setFile hf fl j (s := s)
  rw [hold, hip] at hopens
  simp only [Option.some.injEq, reduceCtorEq, if_false, eq_comm (a := i)] at hopens
  rw [Multiset.count_cons]
  omega

theorem State.cwds_setCwd (p : Fin n) (w : Option Inum) (i : Inum) :
    State.cwds { s with cwd := update s.cwd p w } p i = s.cwds p i := by
  unfold State.cwds
  congr 1
  refine Finset.filter_congr fun q _ => and_congr_right fun hq => ?_
  simp [update_of_ne hq]

namespace SeqInv

variable {φ : Flags} {p : Fin n} {s s' : State n} {t t' : Tree} {c c' refs m : Multiset Inum}
  {w : Option Inum} {ip : Inum}

theorem congr (hinv : SeqInv φ p s t c refs w) (hsame : s.Same s') : SeqInv φ p s' t c refs w where
  rep := by
    rw [hsame.ino]
    exact hinv.rep
  ok := hinv.ok
  bound := by
    rw [hsame.ninodes]
    exact hinv.bound
  refs_le := by
    unfold State.cwds State.opens
    rw [hsame.cwd, hsame.file, hsame.ref]
    exact hinv.refs_le
  own := by
    rw [hsame.cwd]
    exact hinv.own
  own_kind := hinv.own_kind
  cwd := by
    rw [hsame.cwd]
    exact hinv.cwd
  file := by
    rw [hsame.file]
    exact hinv.file
  unused := by
    rw [hsame.file]
    exact hinv.unused
  live := hinv.live

theorem setIno (hinv : SeqInv φ p s t c refs w) {ino : Inum → Inode} (hrep : Represents ino t')
    (hok : t'.Ok φ c') (hkind : t'.kind = t.kind) : SeqInv φ p { s with ino := ino } t' c' refs w where
  rep := hrep
  ok := hok
  bound := by
    rw [hkind]
    exact hinv.bound
  refs_le := hinv.refs_le
  own := hinv.own
  own_kind := by
    rw [hkind]
    exact hinv.own_kind
  cwd := by
    rw [hkind]
    exact hinv.cwd
  file := by
    rw [hkind]
    exact hinv.file
  unused := hinv.unused
  live := by
    rw [hkind]
    exact hinv.live

theorem setInoNew (hinv : SeqInv φ p s t c refs w) {ino : Inum → Inode} (hrep : Represents ino t')
    (hok : t'.Ok φ c') (hbound : ip < s.ninodes) (hfree : t.kind ip = .free)
    (hkind : ∀ j, j ≠ ip → t'.kind j = t.kind j) : SeqInv φ p { s with ino := ino } t' c' refs w := by
  by_cases hlive : t'.kind ip = .free
  · refine hinv.setIno hrep hok (funext fun j => ?_)
    by_cases hj : j = ip
    · rw [hj, hlive, hfree]
    · exact hkind j hj
  have hkeep : ∀ j, t.kind j ≠ .free → t'.kind j = t.kind j := by
    intro j hj
    refine hkind j ?_
    rintro rfl
    exact hj hfree
  refine { hinv with
    rep := hrep, ok := hok, bound := fun j hj => ?_, own_kind := fun j hw hj => ?_
    cwd := fun q j hq hj => ?_, file := fun f j hf => ?_, live := fun hl j hj => ?_ }
  · by_cases hjp : j = ip
    · exact hjp ▸ hbound
    · exact hinv.bound j (hkind j hjp ▸ hj)
  · have hold := hinv.own_kind j hw hj
    rw [hkeep j hold]
    exact hold
  · have hold := hinv.cwd q j hq hj
    rw [hkeep j hold]
    exact hold
  · obtain ⟨hlt, hold, hwr⟩ := hinv.file f j hf
    rw [hkeep j hold]
    exact ⟨hlt, hold, hwr⟩
  · have hold := hinv.live hl j hj
    rw [hkeep j hold]
    exact hold

theorem addRef (hinv : SeqInv φ p s t c refs w) (hlive : φ.live → t.kind ip ≠ .free)
    (hown : ∀ i, w = some i → i ∈ refs) : SeqInv φ p (s.setRef ip (s.ref ip + 1)) t c (ip ::ₘ refs) w := by
  refine { hinv with
    refs_le := fun i => ?_, own_kind := fun i hw _ => hinv.own_kind i hw (hown i hw)
    live := fun hl i hi => ?_ }
  · have hle := hinv.refs_le i
    have hcount := update_add_count s.ref refs ip i
    change s.cwds p i + s.opens i + _ ≤ update s.ref ip _ i
    omega
  · rcases Multiset.mem_cons.mp hi with rfl | hold
    · exact hlive hl
    · exact hinv.live hl i hold

theorem decRef (hinv : SeqInv φ p s t c (ip ::ₘ m) w) :
    SeqInv φ p (s.setRef ip (s.ref ip - 1)) t c m w := by
  refine { hinv with
    refs_le := fun i => ?_
    own_kind := fun i hw hi => hinv.own_kind i hw (Multiset.mem_cons_of_mem hi)
    live := fun hl i hi => hinv.live hl i (Multiset.mem_cons_of_mem hi) }
  have hle := hinv.refs_le i
  have hpos := hinv.refs_le ip
  rw [Multiset.count_cons_self] at hpos
  have hcount := update_sub_count (by omega : 0 < s.ref ip) m i
  change s.cwds p i + s.opens i + _ ≤ update s.ref ip _ i
  omega

theorem setCwd {w' : Option Inum} (hinv : SeqInv φ p s t c refs w)
    (hkind : ∀ i, w' = some i → t.kind i ≠ .free) :
    SeqInv φ p { s with cwd := update s.cwd p w' } t c refs w' := by
  refine { hinv with
    refs_le := fun i => ?_, own := by simp, own_kind := fun i hi _ => hkind i hi
    cwd := fun q i hq hi => ?_ }
  · rw [State.cwds_setCwd]
    exact hinv.refs_le i
  · refine hinv.cwd q i hq ?_
    simpa [update_of_ne hq] using hi

variable {f : Nat} {fl : File}

theorem setFile {refs' : Multiset Inum} (hinv : SeqInv φ p s t c refs w)
    (hopens : ∀ j, (s.setFile f fl).opens j + refs'.count j ≤ s.opens j + refs.count j)
    (hfile : ∀ i, fl.fields.ip = some i →
      f < nfile ∧ t.kind i ≠ .free ∧ (fl.fields.writable = true → t.kind i ≠ .dir))
    (hunused : fl.ref = 0 → fl.fields.ip = none)
    (hrefs : ∀ i ∈ refs', i ∈ refs ∨ t.kind i ≠ .free) :
    SeqInv φ p (s.setFile f fl) t c refs' w := by
  have hother : ∀ g, g ≠ f → (s.setFile f fl).file g = s.file g := by
    intro g hg
    simp [State.setFile, update_of_ne hg]
  have hself : (s.setFile f fl).file f = fl := by simp [State.setFile]
  refine { hinv with
    refs_le := fun j => ?_, own_kind := fun i hw hi => ?_, file := fun g i hg => ?_
    unused := fun g => ?_, live := fun hl i hi => ?_ }
  · have hle := hinv.refs_le j
    have hj := hopens j
    change s.cwds p j + _ + _ ≤ s.ref j
    omega
  · rcases hrefs i hi with hold | hkind
    · exact hinv.own_kind i hw hold
    · exact hkind
  · by_cases hgf : g = f
    · subst hgf
      rw [hself] at hg ⊢
      exact hfile i hg
    · rw [hother g hgf] at hg ⊢
      exact hinv.file g i hg
  · by_cases hgf : g = f
    · subst hgf
      rw [hself]
      exact hunused
    · rw [hother g hgf]
      exact hinv.unused g
  · rcases hrefs i hi with hold | hkind
    · exact hinv.live hl i hold
    · exact hkind

theorem setFile_same (hinv : SeqInv φ p s t c refs w) (hip : fl.fields.ip = (s.file f).fields.ip)
    (hwr : fl.fields.writable = (s.file f).fields.writable)
    (hunused : fl.ref = 0 → fl.fields.ip = none) : SeqInv φ p (s.setFile f fl) t c refs w := by
  refine hinv.setFile (fun j => by rw [State.opens_setFile_same hip]) (fun i hi => ?_) hunused fun i hi =>
    .inl hi
  rw [hip] at hi
  rw [hwr]
  exact hinv.file f i hi

theorem closeFile {i : Inum} (hinv : SeqInv φ p s t c refs w)
    (hi : (s.file f).fields.ip = some i) (hip : fl.fields.ip = none) :
    SeqInv φ p (s.setFile f fl) t c (i ::ₘ refs) w := by
  obtain ⟨hf, hkind, -⟩ := hinv.file f i hi
  refine hinv.setFile (fun j => (State.opens_closeFile hf hi hip refs j).le) (fun j hj => ?_) (fun _ => hip)
    fun j hj => ?_
  · rw [hip] at hj
    cases hj
  · rcases Multiset.mem_cons.mp hj with rfl | hold
    · exact .inr hkind
    · exact .inl hold

theorem openFile {i : Inum} (hinv : SeqInv φ p s t c (i ::ₘ refs) w)
    (hf : f < nfile) (hnone : (s.file f).fields.ip = none) (hip : fl.fields.ip = some i)
    (hkind : t.kind i ≠ .free) (hwr : fl.fields.writable = true → t.kind i ≠ .dir)
    (href : fl.ref ≠ 0) : SeqInv φ p (s.setFile f fl) t c refs w := by
  refine hinv.setFile (fun j => (State.opens_openFile hf hnone hip refs j).le) (fun j hj => ?_)
    (fun h => absurd h href) fun j hj => .inl (Multiset.mem_cons_of_mem hj)
  rw [hip, Option.some.injEq] at hj
  subst hj
  exact ⟨hf, hkind, hwr⟩

theorem reclaim (hinv : SeqInv φ p s t c (ip ::ₘ m) w) (hnlink : t.nlink ip = 0) (hone : s.ref ip = 1)
    (hup : φ.live → t.kind ip = .dir → ∀ d, d ≠ ip → t.kind d = .dir → t.up d ≠ ip) :
    SeqInv φ p ((s.setIno ip (s.ino ip).freed).setRef ip (s.ref ip - 1)) (t.reclaim ip) c m w := by
  have hle := hinv.refs_le ip
  rw [Multiset.count_cons_self, hone] at hle
  -- the one reference is the one that goes
  have hcwds : s.cwds p ip = 0 := by omega
  have hopens : s.opens ip = 0 := by omega
  have hm : ip ∉ m := Multiset.count_eq_zero.mp (by omega)
  have hkind : ∀ j, j ≠ ip → (t.reclaim ip).kind j = t.kind j := fun j hj => by
    simp [Tree.reclaim, update_of_ne hj]
  have hne : ∀ j ∈ m, j ≠ ip := by
    rintro j hj rfl
    exact hm hj
  refine { hinv.decRef with
    rep := hinv.rep.reclaim
    ok := ⟨hinv.ok.inv.reclaim hnlink, fun hd => (hinv.ok.distinct hd).mono (Finset.filter_subset _ _),
      fun he => (hinv.ok.exact he).reclaim hinv.ok.inv hnlink, fun hl => (hinv.ok.up hl).reclaim (hup hl)⟩
    bound := fun j hj => ?_, own_kind := fun j hw hj => ?_, cwd := fun q j hq hj => ?_
    file := fun f j hf => ?_, live := fun hl j hj => ?_ }
  · have hjp : j ≠ ip := by
      rintro rfl
      simp [Tree.reclaim] at hj
    exact hinv.bound j (hkind j hjp ▸ hj)
  · rw [hkind j (hne j hj)]
    exact hinv.own_kind j hw (Multiset.mem_cons_of_mem hj)
  · have hjp : j ≠ ip := by
      rintro rfl
      refine Finset.filter_eq_empty_iff.mp (Finset.card_eq_zero.mp hcwds) (Finset.mem_univ q) ⟨hq, hj⟩
    rw [hkind j hjp]
    exact hinv.cwd q j hq hj
  · have hold := hinv.file f j hf
    have hjp : j ≠ ip := by
      rintro rfl
      exact Finset.filter_eq_empty_iff.mp (Finset.card_eq_zero.mp hopens) (Finset.mem_range.mpr hold.1) hf
    rw [hkind j hjp]
    exact hold
  · rw [hkind j (hne j hj)]
    exact hinv.live hl j (Multiset.mem_cons_of_mem hj)

theorem shrinks_reclaim (hinv : SeqInv φ p s t c (ip ::ₘ m) w) (hone : s.ref ip = 1) :
    Shrinks m t (t.reclaim ip) where
  nlink := rfl
  kind i hi := by
    have hle := hinv.refs_le ip
    rw [Multiset.count_cons_self, hone] at hle
    have hip : i ≠ ip := by
      rintro rfl
      exact absurd (Multiset.count_pos.mpr hi) (by omega)
    simp [Tree.reclaim, update_of_ne hip]
  edges := Finset.filter_subset _ _

end SeqInv

end Xv6.Fs
