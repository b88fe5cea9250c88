import Xv6.Disk.UseSyscall
import Xv6.Disk.Update

/-!
# The invariant inside a call

What a call knows is true of the disk, the inode cache and the tables; cached inodes agree with the
disk; reference counts cover the other processes' current directories, the open files and the call's
own references. In a strict run, the blocks logged since `begin_op` are those that the call has counted,
and an inode without links that the call has left alone is in use elsewhere.
-/

namespace Xv6.Disk

open Function (update update_self update_of_ne)

open Fs (Inum Op FileType InodeFields FileFields)

variable {n : Nat}

structure Inv (N : Nodes) (strict : Prop) (p : Fin n) (s : State n) (l : Use) : Prop where
  ninodes : s.disk.sb.ninodes = N.count
  sound : s.disk.Sound
  names : s.disk.Names N.named
  rest : ∀ i < N.count, (s.disk.dinode i).type = 0 → i ∈ N.named
  valid : ∀ i, s.tables.valid i = true →
    i < N.count ∧ (s.disk.dinode i).type ≠ 0 ∧ s.node i = s.disk.dinode i
  cwd_lt : ∀ q i, s.tables.cwd q = some i → i ∈ N.named
  file : ∀ f i, (s.tables.file f).fields.ip = some i → f < nfile ∧ i ∈ N.named ∧
    (s.disk.dinode i).type ≠ 0 ∧ ((s.tables.file f).fields.writable = true → (s.disk.dinode i).type ≠ tDir)
  unused : ∀ f, (s.tables.file f).ref = 0 → (s.tables.file f).fields.ip = none
  refs_le : ∀ i, s.tables.cwds p i + s.tables.opens i + l.refs.count i ≤ s.tables.ref i
  refs_lt : ∀ i ∈ l.refs, i ∈ N.named
  pins : ∀ i ∈ l.pins, 0 < s.tables.opens i
  ready : ∀ i ∈ l.ready, s.tables.valid i = true ∧ l.Refers i
  dirs : ∀ i ∈ l.dirs, i < N.count ∧ (s.disk.dinode i).type = tDir
  nondir : ∀ i ∈ l.nondir, i < N.count ∧ (s.disk.dinode i).type ≠ tDir
  live : ∀ i ∈ l.live, i < N.count ∧ (s.disk.dinode i).type ≠ 0
  dead : ∀ i ∈ l.dead, s.tables.valid i = true ∧ (s.node i).nlink = 0
  last : ∀ i ∈ l.last, s.tables.ref i = 1
  held : ∀ i ∈ l.held, s.tables.lock i ≠ none
  own : s.tables.cwd p = l.cwd
  files : ∀ f ∈ l.files, f < nfile ∧ (s.tables.file f).ref ≠ 0 ∧ (s.tables.file f).fields.ip = none
  size_le : strict → s.disk.sb.size ≤ fssize
  logged : strict → ∃ blocks : Finset Nat, blocks.card ≤ l.extra ∧ ∀ x ∈ s.disk.logged,
    x = s.disk.sb.bmapstart ∨ (∃ i ∈ l.nodes, x = s.disk.iblock i) ∨ x ∈ blocks
  spare : strict → ∀ i ∈ N.named, (s.disk.dinode i).type ≠ 0 → (s.disk.dinode i).nlink = 0 → i ∉ l.loose →
    0 < s.tables.cwds p i + s.tables.opens i

namespace Inv

variable {N : Nodes} {strict : Prop} {p : Fin n} {s s' : State n} {l : Use} {ip : Inum}

/-! ### Consequences -/

section

variable (hinv : Inv N strict p s l)
include hinv

theorem opens_pos {f : Nat} (hf : (s.tables.file f).fields.ip = some ip) : 0 < s.tables.opens ip :=
  Finset.card_pos.mpr ⟨f, Finset.mem_filter.mpr ⟨Finset.mem_range.mpr (hinv.file f ip hf).1, hf⟩⟩

theorem lt_of_opens (hopens : 0 < s.tables.opens ip) : ip ∈ N.named := by
  obtain ⟨f, hf⟩ := Finset.card_pos.mp hopens
  exact (hinv.file f ip (Finset.mem_filter.mp hf).2).2.1

theorem refers_lt (hip : l.Refers ip) : ip ∈ N.named := by
  rcases hip with href | hpin
  · exact hinv.refs_lt ip href
  · exact hinv.lt_of_opens (hinv.pins ip hpin)

theorem refers_pos (hip : l.Refers ip) : 0 < s.tables.ref ip := by
  have hle := hinv.refs_le ip
  rcases hip with href | hpin
  · have hpos := Multiset.count_pos.mpr href
    omega
  · have hpos := hinv.pins ip hpin
    omega

/-- An inode whose only reference is the call's is nobody's directory and in no open file. -/
theorem alone (href : ip ∈ l.refs) (hone : s.tables.ref ip = 1) :
    s.tables.cwds p ip = 0 ∧ s.tables.opens ip = 0 ∧ l.refs.count ip = 1 := by
  have hle := hinv.refs_le ip
  have hpos := Multiset.count_pos.mpr href
  omega

end

theorem shortVal_eq_zero {x : UInt16} (hx : shortVal x = 0) : x = 0 := by
  unfold shortVal at hx
  have hbits : x.toBitVec = 0 := BitVec.eq_of_toInt_eq (hx.trans rfl)
  exact UInt16.toBitVec_inj.mp hbits

theorem typeOf_eq_dir {t : UInt16} : typeOf t = .dir ↔ t = tDir := by
  unfold typeOf tDir
  split_ifs <;> simp_all

/-! ### Operations on the tables -/

section

variable (hinv : Inv N strict p s l)
include hinv

theorem setLock {x : Option (Fin n)} {h : Set Inum} (hheld : ∀ i ∈ h, update s.tables.lock ip x i ≠ none) :
    Inv N strict p { s with tables := s.tables.setLock ip x } { l with held := h } :=
  { hinv with held := hheld }

theorem addRef (hip : ip ∈ N.named) : Inv N strict p { s with tables := s.tables.setRef ip (s.tables.ref ip + 1) }
      { l with refs := ip ::ₘ l.refs, last := ∅ } := by
  refine { hinv with refs_le := fun i => ?_, refs_lt := fun i hi => ?_, ready := fun i hi => ?_
                     last := nofun }
  · have hle := hinv.refs_le i
    have hcount := update_add_count s.tables.ref l.refs ip i
    change s.tables.cwds p i + s.tables.opens i + (ip ::ₘ l.refs).count i ≤ update s.tables.ref ip _ i
    omega
  · rcases Multiset.mem_cons.mp hi with rfl | hold
    · exact hip
    · exact hinv.refs_lt i hold
  · obtain ⟨hvalid, hrefers⟩ := hinv.ready i hi
    exact ⟨hvalid, hrefers.imp Multiset.mem_cons_of_mem id⟩

theorem newEntry (hip : ip ∈ N.named) (hzero : s.tables.ref ip = 0) :
    Inv N strict p { s with tables := (s.tables.setRef ip 1).setValid ip false }
      { l with refs := ip ::ₘ l.refs, last := ∅, dead := ∅ } := by
  have hadd := hinv.addRef hip
  rw [hzero, Nat.zero_add] at hadd
  refine { hadd with valid := fun i hi => ?_, ready := fun i hi => ?_, dead := nofun }
  · by_cases hiip : i = ip
    · subst hiip
      change update s.tables.valid i false i = true at hi
      rw [update_self] at hi
      cases hi
    · change update s.tables.valid ip false i = true at hi
      rw [update_of_ne hiip] at hi
      exact hinv.valid i hi
  · obtain ⟨hvalid, hrefers⟩ := hinv.ready i hi
    have hiip : i ≠ ip := by
      rintro rfl
      have hpos := hinv.refers_pos hrefers
      omega
    refine ⟨?_, hrefers.imp Multiset.mem_cons_of_mem id⟩
    change update s.tables.valid ip false i = true
    rw [update_of_ne hiip]
    exact hvalid

theorem decRef (hip : ip ∈ l.refs) :
    Inv N strict p { s with tables := s.tables.setRef ip (s.tables.ref ip - 1) }
      { l with refs := l.refs.erase ip, ready := l.ready \ {ip}, last := ∅ } := by
  refine { hinv with refs_le := fun i => ?_, refs_lt := fun i hi => ?_, ready := fun i hi => ?_
                     last := nofun }
  · have hle := hinv.refs_le i
    have hcount := update_sub_count (hinv.refers_pos (.inl hip)) (l.refs.erase ip) i
    rw [Multiset.cons_erase hip] at hcount
    change s.tables.cwds p i + s.tables.opens i + (l.refs.erase ip).count i ≤ update s.tables.ref ip _ i
    omega
  · exact hinv.refs_lt i (Multiset.mem_of_mem_erase hi)
  · obtain ⟨hvalid, hrefers⟩ := hinv.ready i hi.1
    exact ⟨hvalid, hrefers.imp (Multiset.mem_erase_of_ne hi.2).mpr id⟩

theorem setCwd {w : Option Inum} (hw : ∀ i, w = some i → i ∈ l.refs) :
    Inv N strict p { s with tables := { s.tables with cwd := update s.tables.cwd p w } }
      { l with cwd := w } := by
  refine { hinv with cwd_lt := fun q i hq => ?_, refs_le := fun i => ?_, own := ?_
                     spare := fun hs i hi htype hnlink hloose => ?_ }
  · by_cases hqp : q = p
    · subst hqp
      change update s.tables.cwd q w q = some i at hq
      rw [update_self] at hq
      exact hinv.refs_lt i (hw i hq)
    · change update s.tables.cwd p w q = some i at hq
      rw [update_of_ne hqp] at hq
      exact hinv.cwd_lt q i hq
  · rw [Fs.State.cwds_setCwd]
    exact hinv.refs_le i
  · exact update_self ..
  · rw [Fs.State.cwds_setCwd]
    exact hinv.spare hs i hi htype hnlink hloose

/-! ### Open files -/

variable {f : Nat} {fl : Fs.File} {d' : Volume}

theorem setFile {refs : Multiset Inum} {pins ready loose : Set Inum} {files : Set Nat}
    (hopens : ∀ j, (s.tables.setFile f fl).opens j + refs.count j ≤ s.tables.opens j + l.refs.count j)
    (hspare : ∀ j, j ∉ loose → s.tables.opens j ≤ (s.tables.setFile f fl).opens j)
    (hfile : ∀ i, fl.fields.ip = some i → f < nfile ∧ i ∈ N.named ∧ (s.disk.dinode i).type ≠ 0 ∧
      (fl.fields.writable = true → (s.disk.dinode i).type ≠ tDir))
    (hunused : fl.ref = 0 → fl.fields.ip = none)
    (hrefs : ∀ i ∈ refs, i ∈ N.named)
    (hpins : ∀ i ∈ pins, 0 < (s.tables.setFile f fl).opens i)
    (hready : ∀ i ∈ ready, i ∈ l.ready ∧ (i ∈ refs ∨ i ∈ pins))
    (hfiles : ∀ g ∈ files, g ≠ f ∧ g ∈ l.files ∨ g = f ∧ f < nfile ∧ fl.ref ≠ 0 ∧ fl.fields.ip = none)
    (hloose : ∀ i ∈ l.loose, i ∈ loose) :
    Inv N strict p { s with tables := s.tables.setFile f fl }
      { l with refs := refs, pins := pins, ready := ready, files := files, loose := loose } := by
  have hother : ∀ g, g ≠ f → (s.tables.setFile f fl).file g = s.tables.file g :=
    fun g hg => update_of_ne hg ..
  have hself : (s.tables.setFile f fl).file f = fl := update_self ..
  refine { hinv with
    file := fun g i hg => ?_, unused := fun g => ?_, refs_le := fun j => ?_, refs_lt := hrefs
    pins := hpins, ready := fun i hi => ⟨(hinv.ready i (hready i hi).1).1, (hready i hi).2⟩
    files := fun g hg => ?_, spare := fun hs i hi htype hnlink hl => ?_ }
  · dsimp only at hg ⊢
    by_cases hgf : g = f
    · subst hgf
      rw [hself] at hg ⊢
      exact hfile i hg
    · rw [hother g hgf] at hg ⊢
      exact hinv.file g i hg
  · dsimp only
    by_cases hgf : g = f
    · subst hgf
      rw [hself]
      exact hunused
    · rw [hother g hgf]
      exact hinv.unused g
  · have hle := hinv.refs_le j
    have hj := hopens j
    change s.tables.cwds p j + (s.tables.setFile f fl).opens j + refs.count j ≤ s.tables.ref j
    omega
  · dsimp only
    rcases hfiles g hg with ⟨hgf, hold⟩ | ⟨rfl, hfl⟩
    · rw [hother g hgf]
      exact hinv.files g hold
    · rw [hself]
      exact hfl
  · have hold := hinv.spare hs i hi htype hnlink fun hmem => hl (hloose i hmem)
    have hle := hspare i hl
    change 0 < s.tables.cwds p i + (s.tables.setFile f fl).opens i
    omega

theorem setFile_same {fs : Set Nat} (hip : fl.fields.ip = (s.tables.file f).fields.ip)
    (hwr : fl.fields.writable = (s.tables.file f).fields.writable)
    (hunused : fl.ref = 0 → fl.fields.ip = none)
    (hfiles : ∀ g ∈ fs, g ≠ f ∧ g ∈ l.files ∨ g = f ∧ f < nfile ∧ fl.ref ≠ 0 ∧ fl.fields.ip = none) :
    Inv N strict p { s with tables := s.tables.setFile f fl } { l with files := fs } := by
  have hsame := Fs.State.opens_setFile_same hip
  refine hinv.setFile (fun j => by rw [hsame]) (fun j _ => by rw [hsame]) (fun i hi => ?_) hunused
    hinv.refs_lt (fun i hi => ?_) (fun i hi => ⟨hi, (hinv.ready i hi).2⟩) hfiles fun _ hi => hi
  · rw [hip] at hi
    rw [hwr]
    exact hinv.file f i hi
  · rw [hsame]
    exact hinv.pins i hi

theorem closeFile (hip : fl.fields.ip = none) : Inv N strict p { s with tables := s.tables.setFile f fl }
      { l with refs := (s.tables.file f).fields.ip.elim l.refs (· ::ₘ l.refs), ready := ∅, pins := ∅
               loose := l.loose ∪ { i | (s.tables.file f).fields.ip = some i }
               files := l.files \ {f} } := by
  have hother : ∀ g ∈ l.files \ {f}, g ≠ f ∧ g ∈ l.files ∨
      g = f ∧ f < nfile ∧ fl.ref ≠ 0 ∧ fl.fields.ip = none := fun g hg => .inl ⟨hg.2, hg.1⟩
  cases hold : (s.tables.file f).fields.ip with
  | none =>
    have hsame := Fs.State.opens_setFile_same (hip.trans hold.symm)
    refine hinv.setFile (fun j => by rw [hsame]; exact le_rfl) (fun j _ => by rw [hsame])
      (fun i hi => ?_) (fun _ => hip) hinv.refs_lt (by rintro _ ⟨⟩) (by rintro _ ⟨⟩) hother fun _ => .inl
    rw [hip] at hi
    cases hi
  | some i =>
    obtain ⟨hf, hlt, -⟩ := hinv.file f i hold
    have hopens := Fs.State.opens_closeFile hf hold hip l.refs
    refine hinv.setFile (fun j => (hopens j).le) (fun j hj => ?_) (fun k hk => ?_) (fun _ => hip)
      (fun k hk => ?_) (by rintro _ ⟨⟩) (by rintro _ ⟨⟩) hother fun _ => .inl
    · have hij : j ≠ i := by
        rintro rfl
        exact hj (.inr rfl)
      have hsum := hopens j
      rw [Multiset.count_cons_of_ne hij] at hsum
      omega
    · rw [hip] at hk
      cases hk
    · rcases Multiset.mem_cons.mp hk with rfl | hmem
      · exact hlt
      · exact hinv.refs_lt k hmem

theorem openFile (hf : f ∈ l.files) (hip : fl.fields.ip = some ip)
    (href : ip ∈ l.refs) (hlive : ip ∈ l.live)
    (hwr : fl.fields.writable = true → ip ∈ l.nondir) (hfl : fl.ref ≠ 0) :
    Inv N strict p { s with tables := s.tables.setFile f fl }
      { l with refs := l.refs.erase ip, ready := l.ready \ {ip}, files := l.files \ {f} } := by
  obtain ⟨hlt, -, hnone⟩ := hinv.files f hf
  have hopens := Fs.State.opens_openFile hlt hnone hip (l.refs.erase ip)
  have hmore : ∀ j, s.tables.opens j ≤ (s.tables.setFile f fl).opens j := by
    intro j
    have hsum := hopens j
    have hle := Multiset.count_le_count_cons j ip (l.refs.erase ip)
    omega
  rw [Multiset.cons_erase href] at hopens
  refine hinv.setFile (fun j => (hopens j).le) (fun j _ => hmore j) (fun i hi => ?_) (fun h => absurd h hfl)
    (fun i hi => hinv.refs_lt i (Multiset.mem_of_mem_erase hi)) (fun i hi => ?_) (fun i hi => ?_)
    (fun g hg => .inl ⟨hg.2, hg.1⟩) fun _ hi => hi
  · rw [hip, Option.some.injEq] at hi
    subst hi
    exact ⟨hlt, hinv.refs_lt ip href, (hinv.live ip hlive).2, fun hw => (hinv.nondir ip (hwr hw)).2⟩
  · exact (hinv.pins i hi).trans_le (hmore i)
  · exact ⟨hi.1, (hinv.ready i hi.1).2.imp (Multiset.mem_erase_of_ne hi.2).mpr id⟩

/-! ### Operations on an inode -/

/-- A strict run's blocks are the bitmap block, inode blocks and few others. -/
theorem logged_touch {k : Nat} (htouch : Volume.Touches N.named ip k s.disk d') (hs : strict) :
    ∃ blocks : Finset Nat, blocks.card ≤ l.extra + k ∧ ∀ x ∈ d'.logged,
      x = d'.sb.bmapstart ∨ (∃ i ∈ insert ip l.nodes, x = d'.iblock i) ∨ x ∈ blocks := by
  obtain ⟨before, hbefore, hlogged⟩ := hinv.logged hs
  obtain ⟨new, hnew, htouched⟩ := htouch.logged
  have hiblock : ∀ i, d'.iblock i = s.disk.iblock i := by
    intro i
    unfold Volume.iblock
    rw [htouch.sb]
  refine ⟨before ∪ new, ?_, fun x hx => ?_⟩
  · calc (before ∪ new).card ≤ before.card + new.card := Finset.card_union_le _ _
      _ ≤ l.extra + k := Nat.add_le_add hbefore hnew
  · rw [htouch.sb]
    simp only [hiblock]
    rcases htouched x hx with hold | hblock | hmem | ⟨c, hc, hmap⟩
    · rcases hlogged x hold with hmap | ⟨i, hi, hblock⟩ | hmem
      · exact .inl hmap
      · exact .inr (.inl ⟨i, Finset.mem_insert_of_mem hi, hblock⟩)
      · exact .inr (.inr (Finset.mem_union_left _ hmem))
    · exact .inr (.inl ⟨ip, Finset.mem_insert_self .., hblock⟩)
    · exact .inr (.inr (Finset.mem_union_right _ hmem))
    · -- the disk is small enough for one bitmap block
      refine .inl (hmap.trans ?_)
      have hsmall : c < bpb := by
        have hsize := hinv.size_le hs
        simp only [fssize] at hsize
        simp only [bpb, bsize]
        omega
      unfold Volume.bblock
      rw [Nat.div_eq_of_lt hsmall, Nat.zero_add]

/-- One inode is written. What is known about the others stays true, and `hself` says what is known about
this one. -/
theorem write {k k' : Nat} {node : Inum → Dinode} {valid : Inum → Bool}
    {ready dirs nondir live loose : Set Inum} (htouch : Volume.Touches N.named ip k s.disk d') (hk : k ≤ k')
    (hnode : ∀ i, i ≠ ip → node i = s.node i ∧ valid i = s.tables.valid i)
    (hready : ∀ i ∈ ready, i ∈ l.ready ∧ valid i = true)
    (hsets : ∀ i, i ≠ ip → (i ∈ dirs → i ∈ l.dirs) ∧ (i ∈ nondir → i ∈ l.nondir) ∧ (i ∈ live → i ∈ l.live))
    (hloose : ∀ i ∈ l.loose, i ∈ loose) (hlt : ip < N.count)
    (hself : ((d'.dinode ip).type = 0 → ip ∈ N.named) ∧
      (valid ip = true → (d'.dinode ip).type ≠ 0 ∧ node ip = d'.dinode ip) ∧
      (∀ f, (s.tables.file f).fields.ip = some ip → (d'.dinode ip).type ≠ 0 ∧
        ((s.tables.file f).fields.writable = true → (d'.dinode ip).type ≠ tDir)))
    (hdirs : ip ∈ dirs → (d'.dinode ip).type = tDir) (hnondir : ip ∈ nondir → (d'.dinode ip).type ≠ tDir)
    (hlive : ip ∈ live → (d'.dinode ip).type ≠ 0)
    (hspare : strict → ip ∈ N.named → (d'.dinode ip).type ≠ 0 → (d'.dinode ip).nlink = 0 → ip ∉ loose →
      0 < s.tables.cwds p ip + s.tables.opens ip) :
    Inv N strict p { disk := d', node := node, tables := { s.tables with valid := valid } }
      { l with ready := ready, dirs := dirs, nondir := nondir, live := live, loose := loose, dead := ∅
               nodes := insert ip l.nodes, extra := l.extra + k' } := by
  have hother := fun i hi hne => htouch.other i (hinv.ninodes ▸ hi : i < s.disk.sb.ninodes) hne
  have hknown : ∀ {old new : Set Inum} {P : Dinode → Prop}, (∀ i ∈ old, i < N.count ∧ P (s.disk.dinode i)) →
      (∀ i, i ≠ ip → i ∈ new → i ∈ old) → (ip ∈ new → P (d'.dinode ip)) →
      ∀ i ∈ new, i < N.count ∧ P (d'.dinode i) := by
    intro old new P hold hsub hnew i hi
    by_cases hne : i = ip
    · subst hne
      exact ⟨hlt, hnew hi⟩
    · obtain ⟨hilt, hP⟩ := hold i (hsub i hne hi)
      rw [hother i hilt hne]
      exact ⟨hilt, hP⟩
  refine { hinv with
    ninodes := htouch.sb ▸ hinv.ninodes, sound := htouch.sound, names := htouch.names
    rest := fun i hi htype => ?_, valid := fun i hi => ?_, file := fun f i hf => ?_
    ready := fun i hi => ⟨(hready i hi).2, (hinv.ready i (hready i hi).1).2⟩
    dirs := hknown (P := fun x => x.type = tDir) hinv.dirs (fun i hne => (hsets i hne).1) hdirs
    nondir := hknown (P := fun x => x.type ≠ tDir) hinv.nondir (fun i hne => (hsets i hne).2.1) hnondir
    live := hknown (P := fun x => x.type ≠ 0) hinv.live (fun i hne => (hsets i hne).2.2) hlive, dead := nofun
    size_le := htouch.sb ▸ hinv.size_le, logged := fun hs => ?_
    spare := fun hs i hi htype hnlink hl => ?_ }
  · by_cases hne : i = ip
    · subst hne
      exact hself.1 htype
    · rw [hother i hi hne] at htype
      exact hinv.rest i hi htype
  · by_cases hne : i = ip
    · subst hne
      exact ⟨hlt, hself.2.1 hi⟩
    · obtain ⟨hilt, hitype, hsame⟩ := hinv.valid i ((hnode i hne).2 ▸ hi)
      dsimp only
      rw [hother i hilt hne, (hnode i hne).1]
      exact ⟨hilt, hitype, hsame⟩
  · obtain ⟨hlow, hnamed, hold⟩ := hinv.file f i hf
    refine ⟨hlow, hnamed, ?_⟩
    by_cases hne : i = ip
    · subst hne
      exact hself.2.2 f hf
    · rw [hother i (N.lt i hnamed) hne]
      exact hold
  · obtain ⟨blocks, hcard, hblocks⟩ := hinv.logged_touch htouch hs
    exact ⟨blocks, hcard.trans (Nat.add_le_add_left hk _), hblocks⟩
  · by_cases hne : i = ip
    · subst hne
      exact hspare hs hi htype hnlink hl
    · rw [hother i (N.lt i hi) hne] at htype hnlink
      exact hinv.spare hs i hi htype hnlink fun hold => hl (hloose i hold)

/-- Writing a loaded inode that keeps its type. Its link count may change if it counts as loose. -/
theorem touch {k k' : Nat} {ls : Set Inum} (hip : s.tables.valid ip = true)
    (htouch : Volume.Touches N.named ip k s.disk d') (hk : k ≤ k')
    (htype : (d'.dinode ip).type = (s.disk.dinode ip).type) (hloose : ∀ i ∈ l.loose, i ∈ ls)
    (hlink : (d'.dinode ip).nlink = (s.disk.dinode ip).nlink ∨ ip ∈ ls) :
    Inv N strict p { s with disk := d', node := update s.node ip (d'.dinode ip) }
      { l with loose := ls, dead := ∅, nodes := insert ip l.nodes, extra := l.extra + k' } := by
  obtain ⟨hlt, hlive, -⟩ := hinv.valid ip hip
  refine hinv.write htouch hk (fun i hi => ⟨update_of_ne hi .., rfl⟩)
    (fun i hi => ⟨hi, (hinv.ready i hi).1⟩) (fun _ _ => ⟨id, id, id⟩) hloose hlt ?_ ?_ ?_ ?_ ?_ <;> rw [htype]
  · exact ⟨fun h => absurd h hlive, fun _ => ⟨hlive, update_self ..⟩, fun f hf => (hinv.file f ip hf).2.2⟩
  · exact fun h => (hinv.dirs ip h).2
  · exact fun h => (hinv.nondir ip h).2
  · exact fun _ => hlive
  · intro hs hnamed _ hnlink hl
    rw [hlink.resolve_right hl] at hnlink
    exact hinv.spare hs ip hnamed hlive hnlink fun h => hl (hloose ip h)

/-- `ifree`: the call has the only reference, so nothing else is known about the inode. -/
theorem reclaim {node' : Dinode} (htouch : Volume.Touches N.named ip 0 s.disk d')
    (htype : (d'.dinode ip).type = 0) (hip : ip ∈ l.refs) (hone : s.tables.ref ip = 1) : Inv N strict p
      { disk := d', node := update s.node ip node', tables := s.tables.setValid ip false }
      { l with ready := l.ready \ {ip}, dirs := l.dirs \ {ip}, live := l.live \ {ip}, dead := ∅
               nodes := insert ip l.nodes } := by
  obtain ⟨-, hopens, -⟩ := hinv.alone hip hone
  have hnamed := hinv.refs_lt ip hip
  refine hinv.write htouch le_rfl (fun i hi => ⟨update_of_ne hi .., update_of_ne hi ..⟩)
    (fun i hi => ⟨hi.1, (update_of_ne hi.2 ..).trans (hinv.ready i hi.1).1⟩) (fun _ _ => ⟨And.left, id, And.left⟩)
    (fun _ h => h) (N.lt ip hnamed) ⟨fun _ => hnamed, ?_, ?_⟩ (fun h => absurd rfl h.2) (fun _ => ?_)
    (fun h => absurd rfl h.2) (fun _ _ h => absurd htype h)
  · rw [update_self]
    exact nofun
  · intro f hf
    have hpos := hinv.opens_pos hf
    omega
  · rw [htype]
    decide

/-- `ialloc`: the inode was free, so nothing is known about it. -/
theorem alloc {type : FileType} (hlt : ip < N.count) (hfree : (s.disk.dinode ip).type = 0)
    (htouch : Volume.Touches N.named ip 0 s.disk d') (htype : (d'.dinode ip).type = typeCode type) :
    Inv N strict p { s with disk := d' }
      { l with nondir := if type = .dir then l.nondir \ {ip} else l.nondir ∪ {ip}
               loose := l.loose ∪ {ip}, dead := ∅, nodes := insert ip l.nodes } := by
  refine hinv.write htouch le_rfl (fun _ _ => ⟨rfl, rfl⟩) (fun i hi => ⟨hi, (hinv.ready i hi).1⟩)
    (fun i hi => ⟨id, fun hmem => ?_, id⟩) (fun _ => .inl) hlt ⟨fun _ => hinv.rest ip hlt hfree, ?_, ?_⟩
    (fun h => ?_) (fun h => ?_) (fun h => absurd hfree (hinv.live ip h).2) fun _ _ _ _ h => absurd (.inr rfl) h
  · split_ifs at hmem
    · exact hmem.1
    · exact hmem.resolve_right hi
  · exact fun h => absurd hfree (hinv.valid ip h).2.1
  · exact fun f hf => absurd hfree (hinv.file f ip hf).2.2.1
  · have hdir := (hinv.dirs ip h).2
    rw [hfree] at hdir
    exact absurd hdir (by decide)
  · rw [htype]
    cases type with
    | dir =>
      rw [if_pos rfl] at h
      exact absurd rfl h.2
    | free | file | dev | other => decide

end

end Inv

end Xv6.Disk
