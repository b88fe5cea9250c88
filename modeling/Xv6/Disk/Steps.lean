import Xv6.Disk.Inv

/-!
# Every operation keeps the invariant

An operation that the rules allow gives an answer that the rules predict, and the invariant holds
afterwards; if it stops, it does not stop because `bfree` was given a free block.
-/

namespace Xv6.Disk

open Function (update update_self update_of_ne)

open Fs (Inum Op FileType InodeFields FileFields Dirent)

variable {n : Nat}

/-- The operations that leave the disk and the cached inodes alone. -/
def OnTables : Op → Prop
  | .beginOp | .load _ | .fields _ | .ifree _ | .iallocEntry _ | .initInode _ _ _ | .addNlink _ _
  | .readDirent _ _ | .readProgram _ | .writeDirent _ _ _ | .writei _ _ _ => False
  | _ => True

theorem State.step_tables {p : Fin n} {o : Op} {s s' : State n} {r : o.Res}
    (hrun : s.step p o = .ok (r, s')) (ho : OnTables o) :
    ∃ tables, s.tables.exec p o = some (r, tables) ∧ s' = { s with tables := tables } := by
  have hstep : s.step p o = s.onTables p o := by
    cases o with
    | beginOp | load | fields | ifree | iallocEntry | initInode | addNlink | readDirent | readProgram
    | writeDirent | writei => exact ho.elim
    | _ => rfl
  rw [hstep, State.onTables] at hrun
  cases hexec : s.tables.exec p o with
  | none =>
    rw [hexec] at hrun
    cases hrun
  | some rs =>
    rw [hexec] at hrun
    cases hrun
    exact ⟨rs.2, rfl, rfl⟩

namespace Inv

variable {N : Nodes} {strict : Prop} {p : Fin n} {s s' : State n} {l : Use} {ip : Inum}

/-! ### Reading -/

theorem node_ready (hinv : Inv N strict p s l) (hip : ip ∈ l.ready) :
    ip < s.disk.sb.ninodes ∧ (s.disk.dinode ip).type ≠ 0 ∧ s.node ip = s.disk.dinode ip := by
  have hvalid := hinv.valid ip (hinv.ready ip hip).1
  rw [hinv.ninodes]
  exact hvalid

theorem readi_ready (off : Nat) {len : Nat} (hinv : Inv N strict p s l) (hip : ip ∈ l.ready)
    (hlen : len < 2 ^ 32) : s.readi ip off len = .error .waits ∨
      ∃ bytes, s.readi ip off len = .ok (bytes, s) ∧ ∀ b, bytes = some b →
        off ≤ (s.disk.dinode ip).size.toNat ∧ b = (s.disk.content (s.disk.dinode ip)).slice off
          (min len ((s.disk.dinode ip).size.toNat - off)) := by
  obtain ⟨hlt, htype, hnode⟩ := hinv.node_ready hip
  have hcases := Volume.readi_cases off (hinv.sound.solid ip hlt htype) hlen
  unfold State.readi
  rw [hnode]
  rcases hcases with hwait | ⟨bytes, hrun, hbytes⟩
  · rw [hwait]
    exact .inl rfl
  · rw [hrun]
    refine .inr ⟨bytes, ?_, hbytes⟩
    have hsame : update s.node ip (s.disk.dinode ip) = s.node := by
      rw [← hnode, Function.update_eq_self]
    change Except.ok (bytes, { s with node := update s.node ip (s.disk.dinode ip) }) = _
    rw [hsame]

section

variable (hinv : Inv N strict p s l) (hip : ip ∈ l.ready)
include hinv hip

theorem readDirent_ok {off : Nat} {r : Option Dirent} (hrun : s.readDirent ip off = .ok (r, s')) :
    s' = s ∧ (ip ∈ l.dirs → direntSize ∣ off → ∀ de, r = some de → de.inum ≠ 0 → de.inum ∈ N.named) := by
  unfold State.readDirent at hrun
  rcases hinv.readi_ready off hip (show direntSize < 2 ^ 32 by decide) with
    hwait | ⟨bytes, hread, hbytes⟩
  · rw [hwait] at hrun
    cases hrun
  rw [hread] at hrun
  cases hrun
  refine ⟨rfl, fun hdir hoff de hde => ?_⟩
  obtain ⟨b, rfl, hb⟩ := Option.bind_eq_some_iff.mp hde
  split_ifs at hb with hlen
  obtain ⟨hle, hslice⟩ := hbytes b rfl
  obtain ⟨k, rfl⟩ := hoff
  obtain ⟨hlt, hkind⟩ := hinv.dirs ip hdir
  rw [hslice, Bytes.length_slice] at hlen
  have hfits : direntSize * (k + 1) ≤ (s.disk.dinode ip).size.toNat := by
    simp only [direntSize] at hlen hle ⊢
    omega
  have hentry := hinv.names ip (hinv.ninodes ▸ hlt) hkind k hfits
  have hsame : (readEntry (Bytes.ofList b)).inum
      = (s.disk.content (s.disk.dinode ip)).get 2 (direntSize * k) := by
    apply Bytes.get_congr
    intro j hj
    have hj' : j < (b.length) := by
      rw [hslice, Bytes.length_slice, hlen]
      exact hj.trans (by decide)
    rw [Nat.zero_add, Bytes.ofList, List.getD_eq_getElem _ _ hj']
    simp only [hslice, Bytes.getElem_slice]
  rw [← Option.some.inj hb, hsame]
  exact hentry

theorem readProgram_ok {b : Bool} (hrun : s.readProgram ip = .ok (b, s')) : s' = s := by
  unfold State.readProgram at hrun
  rcases hinv.readi_ready 0 hip (show 52 < 2 ^ 32 by decide) with hwait | ⟨bytes, hread, -⟩
  · rw [hwait] at hrun
    cases hrun
  · rw [hread] at hrun
    cases hrun
    rfl

/-! ### Writing -/

theorem writei_ready {off k : Nat} {src : List UInt8} (hlen : src.length < 2 ^ 32)
    (hk : Volume.span off src.length + 1 ≤ k) (hname : ∀ d' node', off ≤ (s.disk.dinode ip).size.toNat →
      Volume.Written s.disk.dinode ip s.disk (s.disk.dinode ip) off src d' node' → d'.NamesOf N.named node') :
    s.writei ip off src = .error .outOfBlocks ∨ ∃ r s', s.writei ip off src = .ok (r, s') ∧
        Inv N strict p s' { l with dead := ∅, nodes := insert ip l.nodes, extra := l.extra + k } := by
  obtain ⟨hlt, htype, hnode⟩ := hinv.node_ready hip
  have hvalid := (hinv.ready ip hip).1
  unfold State.writei
  rw [hnode]
  rcases Volume.writei_cases off hinv.sound hlt htype hlen with ⟨r, hrun⟩ | ⟨hoff, hends⟩
  · rw [hrun]
    refine .inr ⟨r, _, rfl, ?_⟩
    exact hinv.touch hvalid (.refl hinv.sound hinv.names) (Nat.zero_le k) rfl (fun _ hi => hi) (.inl rfl)
  cases hrun : s.disk.writei ip (s.disk.dinode ip) off src with
  | error e =>
    rw [hrun] at hends
    rw [hends.1]
    exact .inl rfl
  | ok res =>
    obtain ⟨r, node', d'⟩ := res
    rw [hrun] at hends
    have hwritten : Volume.Written s.disk.dinode ip s.disk (s.disk.dinode ip) off src d' node' := hends
    have hself : d'.dinode ip = node' := hwritten.self rfl
    have htouch := hwritten.touches hinv.sound hinv.names (hname d' node' hoff hwritten)
    have hafter := hinv.touch hvalid htouch hk (by rw [hself]; exact hwritten.type)
      (fun _ hi => hi) (.inl (by rw [hself]; exact hwritten.nlink))
    rw [hself] at hafter
    exact .inr ⟨r, _, rfl, hafter⟩

end

theorem writei_nondir (off : Nat) {src : List UInt8} (hinv : Inv N strict p s l) (hip : ip ∈ l.ready)
    (hnondir : ip ∈ l.nondir) (hlen : src.length ≤ Fs.filewriteMax) :
    s.writei ip off src = .error .outOfBlocks ∨ ∃ r s', s.writei ip off src = .ok (r, s') ∧
        Inv N strict p s' { l with dead := ∅, nodes := insert ip l.nodes, extra := l.extra + 5 } := by
  have hmax : Fs.filewriteMax = 1536 := by decide
  refine hinv.writei_ready hip (by omega) (Volume.span_chunk hlen) fun d' node' _ hwritten hdir => ?_
  rw [hwritten.type] at hdir
  exact absurd hdir (hinv.nondir ip hnondir).2

section

variable (hinv : Inv N strict p s l)
include hinv

theorem writei_dirent {off : Nat} {de : Dirent} (hip : ip ∈ l.ready) (hoff : direntSize ∣ off)
    (hinum : de.inum ≠ 0 → de.inum ∈ l.refs) : s.writei ip off (direntBytes de) = .error .outOfBlocks ∨
      ∃ r s', s.writei ip off (direntBytes de) = .ok (r, s') ∧
        Inv N strict p s' { l with dead := ∅, nodes := insert ip l.nodes, extra := l.extra + 2 } := by
  have hlen := length_direntBytes de
  obtain ⟨hlt, -, -⟩ := hinv.node_ready hip
  refine hinv.writei_ready hip (by rw [hlen]; decide) ?_ fun d' node' hend hwritten => ?_
  · rw [hlen]
    exact Nat.le_of_eq (Volume.span_dirent hoff)
  · exact hwritten.namesOf_dirent (hinv.names ip hlt) hoff (fun hne => N.short _ (hinv.refs_lt _ (hinum hne))) hend

theorem ifree_ok (hip : ip ∈ l.refs) (hdead : ip ∈ l.dead) (hlast : ip ∈ l.last) :
    ∃ s', s.ifree ip = .ok s' ∧ Inv N strict p s' (Use.next (.ifree ip) l ()) := by
  obtain ⟨hlt, htype, hnode⟩ := hinv.valid ip (hinv.dead ip hdead).1
  have hlt' : ip < s.disk.sb.ninodes := by rw [hinv.ninodes]; exact hlt
  obtain ⟨⟨node', d'⟩, hrun, htrunc⟩ :=
    Volume.itrunc_ok (hinv.sound.owned_update ip) hlt' htype
  have htouch : Volume.Touches N.named ip 0 s.disk (d'.iupdate ip { node' with type := 0 }) :=
    Volume.ifree_touches hinv.sound hinv.names hlt' htrunc
  have hfree : ((d'.iupdate ip { node' with type := 0 }).dinode ip).type = 0 := by
    rw [Volume.dinode_iupdate]
  refine ⟨{ disk := d'.iupdate ip { node' with type := 0 }
            node := update s.node ip { node' with type := 0 }
            tables := s.tables.setValid ip false }, ?_, hinv.reclaim htouch hfree hip (hinv.last ip hlast)⟩
  unfold State.ifree
  rw [hnode, hrun]
  rfl

/-! ### Every operation -/

theorem beginOp :
    Inv N strict p { s with disk := { s.disk with logged := [] } } { l with nodes := ∅, extra := 0 } := by
  refine { hinv with
    sound := hinv.sound.clearLog
    names := hinv.names, logged := fun _ => ⟨∅, le_rfl, fun x hx => ?_⟩ }
  cases hx

theorem load (hip : l.Refers ip) : Inv N strict p (s.load ip).2 (Use.next (.load ip) l (s.load ip).1) := by
  have hlt := N.lt ip (hinv.refers_lt hip)
  -- once the inode is loaded, it is as the rules say
  have hloaded : ∀ (type : FileType) (s₁ : State n), s₁.disk = s.disk → s₁.tables.valid ip = true →
      Inv N strict p s₁ { l with dead := ∅ } → Inv N strict p s₁ (.next (.load ip) l type) := by
    intro type s₁ hdisk hvalid hinv₁
    refine { hinv₁ with ready := fun i hi => ?_, live := fun i hi => ?_ }
    · rcases hi with hold | ⟨rfl, -⟩
      · exact hinv₁.ready i hold
      · exact ⟨hvalid, hip⟩
    · rcases hi with hold | ⟨rfl, -⟩
      · exact hinv₁.live i hold
      · exact ⟨hlt, (hinv₁.valid i hvalid).2.1⟩
  unfold State.load
  by_cases hvalid : s.tables.valid ip = true
  · rw [if_pos hvalid]
    exact hloaded _ s rfl hvalid { hinv with dead := nofun }
  rw [if_neg hvalid]
  by_cases htype : (s.disk.dinode ip).type = 0
  · -- the answer is `free`, so nothing is learned
    rw [if_pos htype]
    refine { hinv with ready := fun i hi => ?_, live := fun i hi => ?_, dead := nofun }
    · exact hinv.ready i (hi.resolve_right fun h => h.2 rfl)
    · exact hinv.live i (hi.resolve_right fun h => h.2 rfl)
  · rw [if_neg htype]
    refine hloaded _ _ rfl (update_self ..) { hinv with
      valid := fun i hi => ?_, ready := fun i hi => ?_, dead := nofun }
    · by_cases hiip : i = ip
      · subst hiip
        exact ⟨hlt, htype, update_self ..⟩
      · change update s.tables.valid ip true i = true at hi
        rw [update_of_ne hiip] at hi
        change i < N.count ∧ _ ∧ update s.node ip (s.disk.dinode ip) i = _
        rw [update_of_ne hiip]
        exact hinv.valid i hi
    · obtain ⟨hready, hrefers⟩ := hinv.ready i hi
      refine ⟨?_, hrefers⟩
      change update s.tables.valid ip true i = true
      by_cases hiip : i = ip
      · rw [hiip, update_self]
      · rw [update_of_ne hiip]
        exact hready

theorem fields : Inv N strict p s (Use.next (.fields ip) l (s.fields ip)) := by
  refine { hinv with dirs := fun i hi => ?_, nondir := fun i hi => ?_, dead := fun i hi => ?_ }
  · rcases hi with hold | ⟨rfl, hready, hdir⟩
    · exact hinv.dirs i hold
    · obtain ⟨hlt, -, hnode⟩ := hinv.valid i (hinv.ready i hready).1
      have htype : typeOf (s.node i).type = .dir := hdir
      rw [typeOf_eq_dir, hnode] at htype
      exact ⟨hlt, htype⟩
  · rcases hi with hold | ⟨rfl, hready, hdir⟩
    · exact hinv.nondir i hold
    · obtain ⟨hlt, -, hnode⟩ := hinv.valid i (hinv.ready i hready).1
      have htype : typeOf (s.node i).type ≠ .dir := hdir
      rw [Ne, typeOf_eq_dir, hnode] at htype
      exact ⟨hlt, htype⟩
  · obtain ⟨rfl, hvalid, hnlink⟩ := hi
    exact ⟨hvalid, shortVal_eq_zero hnlink⟩

theorem ref : Use.res N strict (.ref ip) l (s.tables.ref ip) ∧
      Inv N strict p s (Use.next (.ref ip) l (s.tables.ref ip)) := by
  have hle := hinv.refs_le ip
  refine ⟨⟨by omega, fun hs hip hdead hloose => ?_⟩, { hinv with last := fun i hi => ?_ }⟩
  · obtain ⟨hvalid, hnlink⟩ := hinv.dead ip hdead
    obtain ⟨-, htype, hnode⟩ := hinv.valid ip hvalid
    rw [hnode] at hnlink
    have hspare := hinv.spare hs ip (hinv.refs_lt ip hip) htype hnlink hloose
    omega
  · obtain ⟨rfl, hone⟩ := hi
    exact hone

theorem file_read {f : Nat} : Inv N strict p s (Use.next (.file f) l (s.tables.file f).fields) := by
  refine { hinv with pins := fun i hi => ?_, ready := fun i hi => ?_, nondir := fun i hi => ?_ }
  · rcases hi with hold | hip
    · exact hinv.pins i hold
    · exact hinv.opens_pos hip
  · obtain ⟨hvalid, hrefers⟩ := hinv.ready i hi
    exact ⟨hvalid, hrefers.imp id .inl⟩
  · rcases hi with hold | ⟨hip, hwritable⟩
    · exact hinv.nondir i hold
    · obtain ⟨-, hlt, -, hwr⟩ := hinv.file f i hip
      exact ⟨N.lt i hlt, hwr hwritable⟩

theorem iallocEntry (type : FileType) : Use.res N strict (.iallocEntry type) l (s.iallocEntry type).1 ∧
      Inv N strict p (s.iallocEntry type).2 (Use.next (.iallocEntry type) l (s.iallocEntry type).1) := by
  unfold State.iallocEntry Volume.ialloc
  cases hfind : s.disk.freeInum with
  | none => exact ⟨nofun, hinv⟩
  | some i =>
    have hmem := List.mem_of_find?_eq_some hfind
    have hlt : i < s.disk.sb.ninodes := List.mem_range.mp hmem
    have hfree : (s.disk.dinode i).type = 0 := by
      have hstop := List.find?_some hfind
      simp only [decide_eq_true_eq] at hstop
      exact hstop.2
    have hltN : i < N.count := hinv.ninodes ▸ hlt
    refine ⟨fun j hj => ?_, ?_⟩
    · obtain rfl := Option.some.inj hj
      exact hinv.rest i hltN hfree
    · refine hinv.alloc hltN hfree (Volume.ialloc_touches hinv.sound hinv.names hlt hfree _) ?_
      rw [Volume.dinode_iupdate]
      rfl

theorem iupdate_ready {node : Dinode} (hip : ip ∈ l.ready) (htype : node.type = (s.node ip).type)
    (hsize : node.size = (s.node ip).size) (haddrs : node.addrs = (s.node ip).addrs) :
    Inv N strict p (s.iupdate ip node)
      { l with loose := l.loose ∪ {ip}, dead := ∅, nodes := insert ip l.nodes } := by
  obtain ⟨hlt, -, hnode⟩ := hinv.node_ready hip
  rw [hnode] at htype hsize haddrs
  have htouch := Volume.iupdate_fields_touches hinv.sound hinv.names hlt htype hsize haddrs
  have hself : (s.disk.iupdate ip node).dinode ip = node := Volume.dinode_iupdate ..
  have hloose : ip ∈ l.loose ∪ {ip} := .inr rfl
  have hafter := hinv.touch (hinv.ready ip hip).1 htouch le_rfl (by rw [hself]; exact htype)
    (fun _ hi => .inl hi) (.inr hloose)
  rw [hself] at hafter
  exact hafter

theorem filealloc : Inv N strict p { s with tables := s.tables.filealloc.2 }
      (Use.next .filealloc l s.tables.filealloc.1) := by
  unfold Fs.State.filealloc
  cases hfind : s.tables.freeFile with
  | none =>
    refine { hinv with files := fun f hf => ?_ }
    exact hinv.files f (hf.resolve_right nofun)
  | some f =>
    have hlt : f < nfile := List.mem_range.mp (List.mem_of_find?_eq_some hfind)
    have hzero : (s.tables.file f).ref = 0 := by
      have hstop := List.find?_some hfind
      simpa using hstop
    have hnone := hinv.unused f hzero
    refine hinv.setFile_same rfl rfl (fun _ => hnone) fun g hg => ?_
    by_cases hgf : g = f
    · exact .inr ⟨hgf, hlt, Nat.one_ne_zero, hnone⟩
    · refine .inl ⟨hgf, hg.resolve_right fun h => hgf ?_⟩
      exact (Option.some.inj h).symm

theorem fileDrop (f : Nat) : Use.res N strict (.fileDrop f) l (s.tables.fileDrop f).1 ∧
      Inv N strict p { s with tables := (s.tables.fileDrop f).2 }
        (Use.next (.fileDrop f) l (s.tables.fileDrop f).1) := by
  unfold Fs.State.fileDrop
  by_cases hbad : (s.tables.file f).ref < 1
  · simp only [hbad, if_true]
    exact ⟨trivial, hinv⟩
  by_cases hkept : 1 < (s.tables.file f).ref
  · simp only [hbad, hkept, if_true, if_false]
    refine ⟨trivial, hinv.setFile_same rfl rfl (fun h => ?_) fun g hg => ?_⟩
    · change (s.tables.file f).ref - 1 = 0 at h
      omega
    · by_cases hgf : g = f
      · subst hgf
        obtain ⟨hlt, -, hnone⟩ := hinv.files g hg
        refine .inr ⟨rfl, hlt, ?_, hnone⟩
        change (s.tables.file g).ref - 1 ≠ 0
        omega
      · exact .inl ⟨hgf, hg⟩
  · simp only [hbad, hkept, if_false]
    exact ⟨fun hf => (hinv.files f hf).2.2, hinv.closeFile rfl⟩

theorem igetEntry (hip : ip ∈ N.named) : Inv N strict p { s with tables := (s.tables.igetEntry ip).2 }
      (Use.next (.igetEntry ip) l (s.tables.igetEntry ip).1) := by
  unfold Fs.State.igetEntry
  by_cases hpos : 0 < s.tables.ref ip
  · rw [if_pos hpos]
    exact { hinv.addRef hip with dead := nofun }
  · rw [if_neg hpos]
    by_cases hroom : s.tables.active < ninode
    · rw [if_pos hroom]
      exact hinv.newEntry hip (Nat.eq_zero_of_not_pos hpos)
    · rw [if_neg hroom]
      exact hinv

theorem acquire : Inv N strict p { s with tables := s.tables.setLock ip (some p) }
      { l with held := insert ip l.held } := by
  refine hinv.setLock fun i hi => ?_
  by_cases hiip : i = ip
  · rw [hiip, update_self]
    nofun
  · rw [update_of_ne hiip]
    exact hinv.held i (hi.resolve_left hiip)

theorem tryLock (site : Fs.LockSite) (ip : Inum) :
    Use.res N strict (.tryLock site ip) l (s.tables.tryLock p ip).1 ∧
      Inv N strict p { s with tables := (s.tables.tryLock p ip).2 }
        (Use.next (.tryLock site ip) l (s.tables.tryLock p ip).1) := by
  unfold Fs.State.tryLock
  cases hlock : s.tables.lock ip with
  | some q => exact ⟨nofun, hinv⟩
  | none => exact ⟨fun _ hheld => hinv.held ip hheld hlock, hinv.acquire⟩

theorem tables_exec {o : Op} {r : o.Res} {tables : Fs.State n} (hpre : (useProtocol N strict).pre o l)
    (hexec : s.tables.exec p o = some (r, tables)) (ho : OnTables o) : (useProtocol N strict).res o l r ∧
      Inv N strict p { s with tables := tables } ((useProtocol N strict).next o l r) := by
  cases o with
  | endOp =>
    cases hexec
    exact ⟨trivial, hinv⟩
  | holdingsleep ip =>
    cases hexec
    exact ⟨trivial, hinv⟩
  | argfd fd =>
    cases hexec
    exact ⟨trivial, hinv⟩
  | cwd =>
    obtain ⟨w, hw, heq⟩ := Option.map_eq_some_iff.mp hexec
    cases heq
    exact ⟨hinv.own.symm.trans hw, hinv⟩
  | setCwd w =>
    cases hexec
    exact ⟨trivial, hinv.setCwd hpre⟩
  | igetEntry ip =>
    have hget : s.tables.igetEntry ip = (r, tables) := Option.some.inj hexec
    have hafter := hinv.igetEntry hpre
    rw [hget] at hafter
    exact ⟨trivial, hafter⟩
  | idup ip =>
    cases hexec
    exact ⟨trivial, hinv.addRef (hinv.refs_lt ip hpre)⟩
  | tryLock site ip =>
    have htry : s.tables.tryLock p ip = (r, tables) := Option.some.inj hexec
    have hafter := hinv.tryLock site ip
    rw [htry] at hafter
    exact hafter
  | waitLock ip =>
    change (if s.tables.lock ip = none then some ((), s.tables.setLock ip (some p)) else none)
      = some (r, tables) at hexec
    split_ifs at hexec with hlock
    cases hexec
    exact ⟨fun hheld => hinv.held ip hheld hlock, hinv.acquire⟩
  | unlock ip =>
    cases hexec
    refine ⟨trivial, hinv.setLock fun i hi => ?_⟩
    rw [update_of_ne hi.2]
    exact hinv.held i hi.1
  | ref ip =>
    cases hexec
    exact hinv.ref
  | decRef ip =>
    cases hexec
    exact ⟨trivial, hinv.decRef hpre⟩
  | filealloc =>
    have halloc : s.tables.filealloc = (r, tables) := Option.some.inj hexec
    have hafter := hinv.filealloc
    rw [halloc] at hafter
    exact ⟨trivial, hafter⟩
  | fdalloc f =>
    change some (s.tables.fdalloc p f) = some (r, tables) at hexec
    unfold Fs.State.fdalloc at hexec
    refine ⟨trivial, ?_⟩
    split at hexec
    · cases hexec
      exact hinv
    · cases hexec
      exact { hinv with valid := hinv.valid }
  | clearFd fd =>
    cases hexec
    exact ⟨trivial, { hinv with valid := hinv.valid }⟩
  | file f =>
    cases hexec
    exact ⟨trivial, hinv.file_read⟩
  | fileInit f ip readable writable =>
    cases hexec
    obtain ⟨hf, href, hlive, hwr⟩ := hpre
    exact ⟨trivial, hinv.openFile hf rfl href hlive hwr (hinv.files f hf).2.1⟩
  | fileDrop f =>
    have hdrop : s.tables.fileDrop f = (r, tables) := Option.some.inj hexec
    have hafter := hinv.fileDrop f
    rw [hdrop] at hafter
    exact hafter
  | addOff f k =>
    cases hexec
    refine ⟨trivial, hinv.setFile_same rfl rfl (hinv.unused f) fun g hg => ?_⟩
    by_cases hgf : g = f
    · subst hgf
      exact .inr ⟨rfl, hinv.files g hg⟩
    · exact .inl ⟨hgf, hg⟩
  | panic msg => exact r.elim
  | beginOp | load | fields | ifree | iallocEntry | initInode | addNlink | readDirent | readProgram
  | writeDirent | writei => exact ho.elim

/-- **Every operation keeps the invariant.** -/
theorem step {o : Op} {r : o.Res} (hpre : (useProtocol N strict).pre o l)
    (hrun : s.step p o = .ok (r, s')) :
    (useProtocol N strict).res o l r ∧ Inv N strict p s' ((useProtocol N strict).next o l r) := by
  cases o with
  | beginOp =>
    cases hrun
    exact ⟨trivial, hinv.beginOp⟩
  | load ip =>
    have hload : s.load ip = (r, s') := Except.ok.inj hrun
    have hafter := hinv.load hpre
    rw [hload] at hafter
    exact ⟨trivial, hafter⟩
  | fields ip =>
    cases hrun
    exact ⟨trivial, hinv.fields⟩
  | ifree ip =>
    obtain ⟨s₁, hfree, hinv₁⟩ := hinv.ifree_ok hpre.1 hpre.2.1 hpre.2.2
    change (s.ifree ip >>= fun s => .ok ((), s)) = .ok (r, s') at hrun
    rw [hfree] at hrun
    cases hrun
    exact ⟨trivial, hinv₁⟩
  | iallocEntry type =>
    have halloc : s.iallocEntry type = (r, s') := Except.ok.inj hrun
    have hafter := hinv.iallocEntry type
    rw [halloc] at hafter
    exact hafter
  | initInode ip major minor | addNlink ip v =>
    cases hrun
    exact ⟨trivial, hinv.iupdate_ready hpre rfl rfl rfl⟩
  | readDirent ip off =>
    obtain ⟨rfl, hentry⟩ := hinv.readDirent_ok hpre hrun
    exact ⟨hentry, hinv⟩
  | readProgram ip =>
    obtain rfl := hinv.readProgram_ok hpre hrun
    exact ⟨trivial, hinv⟩
  | writeDirent ip off de =>
    change s.writeDirent ip off de = .ok (r, s') at hrun
    unfold State.writeDirent at hrun
    rcases hinv.writei_dirent hpre.1 hpre.2.1 hpre.2.2 with hfull | ⟨r₁, s₁, hwrite, hinv₁⟩
    · rw [hfull] at hrun
      cases hrun
    · rw [hwrite] at hrun
      cases hrun
      exact ⟨trivial, hinv₁⟩
  | writei ip off src =>
    obtain ⟨hready, hnondir, hlen⟩ := hpre
    change s.writei ip off src = .ok (r, s') at hrun
    rcases hinv.writei_nondir off hready hnondir hlen with hfull | ⟨r₁, s₁, hwrite, hinv₁⟩
    · rw [hfull] at hrun
      cases hrun
    · rw [hwrite] at hrun
      cases hrun
      exact ⟨trivial, hinv₁⟩
  | panic msg => exact r.elim
  | _ =>
    obtain ⟨tables, hexec, rfl⟩ := State.step_tables hrun trivial
    exact hinv.tables_exec hpre hexec trivial

theorem step_ne_freeingFree {o : Op} (hpre : (useProtocol N strict).pre o l) :
    s.step p o ≠ .error .freeingFree := by
  have htables : ∀ o : Op, s.onTables p o ≠ .error .freeingFree := by
    intro o
    unfold State.onTables
    cases s.tables.exec p o with
    | none | some rs => nofun
  cases o with
  | beginOp | load | fields | iallocEntry | initInode | addNlink => nofun
  | ifree ip =>
    obtain ⟨s₁, hfree, -⟩ := hinv.ifree_ok hpre.1 hpre.2.1 hpre.2.2
    change (s.ifree ip >>= fun s => .ok ((), s)) ≠ _
    rw [hfree]
    nofun
  | readDirent ip off =>
    change s.readDirent ip off ≠ _
    unfold State.readDirent
    rcases hinv.readi_ready off hpre (show direntSize < 2 ^ 32 by decide) with hwait | ⟨b, hread, -⟩
    · rw [hwait]
      nofun
    · rw [hread]
      nofun
  | readProgram ip =>
    change s.readProgram ip ≠ _
    unfold State.readProgram
    rcases hinv.readi_ready 0 hpre (show 52 < 2 ^ 32 by decide) with hwait | ⟨b, hread, -⟩
    · rw [hwait]
      nofun
    · rw [hread]
      nofun
  | writeDirent ip off de =>
    change s.writeDirent ip off de ≠ _
    unfold State.writeDirent
    rcases hinv.writei_dirent hpre.1 hpre.2.1 hpre.2.2 with
      hfull | ⟨r, s₁, hwrite, -⟩
    · rw [hfull]
      nofun
    · rw [hwrite]
      nofun
  | writei ip off src =>
    change s.writei ip off src ≠ _
    rcases hinv.writei_nondir off hpre.1 hpre.2.1 hpre.2.2 with
      hfull | ⟨r, s₁, hwrite, -⟩
    · rw [hfull]
      nofun
    · rw [hwrite]
      nofun
  | _ =>
    unfold State.step
    apply htables

end

end Inv

end Xv6.Disk
