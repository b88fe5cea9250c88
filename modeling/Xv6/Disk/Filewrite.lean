import Xv6.Disk.FileRefinement
import Xv6.Disk.State

/-!
# Writing in chunks

`filewrite` makes one transaction for every `filewriteMax` bytes. Run alone on a regular file, its
chunks come to what a single `writei` does, and when the file would get too large it stops behind the
last whole chunk that fits. The one panic left is that of `balloc`.
-/

namespace Xv6.Disk

open Function (update update_self update_of_ne)

open Fs (Inum Op FsM overwrite filewriteMax filewriteLoop filewrite atomic)

open Volume (needs Spends)

theorem overwrite_nil (data : List UInt8) (off : Nat) : overwrite data off [] = data := by
  unfold overwrite
  rw [List.append_nil, List.length_nil, Nat.add_zero, List.take_append_drop]

theorem overwrite_append {data : List UInt8} {off : Nat} (hoff : off ≤ data.length) (a b : List UInt8) :
    overwrite (overwrite data off a) (off + a.length) b = overwrite data off (a ++ b) := by
  have hlen : (data.take off ++ a).length = off + a.length := by
    rw [List.length_append, List.length_take, Nat.min_eq_left hoff]
  unfold overwrite
  rw [List.take_left' hlen, ← hlen, List.drop_append, List.drop_of_length_le (Nat.le_add_right _ _),
    Nat.add_sub_cancel_left, List.drop_drop, hlen, List.length_append, List.nil_append,
    ← Nat.add_assoc, List.append_assoc (data.take off) a b]

/-- The bytes that `filewrite` writes of `n` bytes at `off`: all, or the whole chunks that fit. -/
def written (off n : Nat) : Nat :=
  if off + n ≤ maxfile * bsize then n else (maxfile * bsize - off) / filewriteMax * filewriteMax

theorem written_le {off : Nat} (hoff : off ≤ maxfile * bsize) (n : Nat) :
    off + written off n ≤ maxfile * bsize := by
  unfold written
  split_ifs with hfits
  · exact hfits
  · have hle := Nat.div_mul_le_self (maxfile * bsize - off) filewriteMax
    omega

theorem written_chunk {off n : Nat} (hfits : off + min filewriteMax n ≤ maxfile * bsize) :
    written off n = min filewriteMax n + written (off + min filewriteMax n) (n - filewriteMax) := by
  have hmax : maxfile * bsize = 71680 := by decide
  have hchunk : filewriteMax = 1536 := by decide
  unfold written
  rw [hmax, hchunk] at hfits ⊢
  split_ifs <;> omega

theorem written_refused {off n : Nat} (hoff : off ≤ maxfile * bsize)
    (hbig : maxfile * bsize < off + min filewriteMax n) : written off n = 0 := by
  have hmax : maxfile * bsize = 71680 := by decide
  have hchunk : filewriteMax = 1536 := by decide
  unfold written
  rw [hmax] at hoff
  rw [hmax, hchunk] at hbig ⊢
  split_ifs <;> omega

theorem take_min (k : Nat) (l : List UInt8) : l.take (min k l.length) = l.take k :=
  List.take_eq_take_iff.mpr (by omega)

theorem drop_min (k : Nat) (l : List UInt8) : l.drop (min k l.length) = l.drop k := by
  rcases Nat.le_total k l.length with hle | hle
  · rw [Nat.min_eq_left hle]
  · rw [Nat.min_eq_right hle, List.drop_length, List.drop_of_length_le hle]

namespace State

variable {n : Nat}

def off (s : State n) (f : Nat) : Nat := (s.tables.file f).fields.off

def data (s : State n) (ip : Inum) : List UInt8 := s.disk.file (s.disk.dinode ip)

/-- `f` is open for writing on the regular file `ip`, at an offset inside of it, and nobody has the
inode locked. -/
structure Opened (s : State n) (f : Nat) (ip : Inum) : Prop where
  sound : s.disk.Sound
  lt : ip < s.disk.sb.ninodes
  regular : (s.disk.dinode ip).type = typeCode .file
  cached : s.tables.valid ip = true → s.node ip = s.disk.dinode ip
  ref : 1 ≤ s.tables.ref ip
  unlocked : s.tables.lock ip = none
  inode : (s.tables.file f).fields.ip = some ip
  writable : (s.tables.file f).fields.writable = true
  off_le : s.off f ≤ (s.disk.dinode ip).size.toNat

structure Advanced (s s' : State n) (f : Nat) (ip : Inum) (src : List UInt8) : Prop where
  opened : s'.Opened f ip
  off : s'.off f = s.off f + src.length
  data : s'.data ip = overwrite (s.data ip) (s.off f) src
  size : (s'.disk.dinode ip).size.toNat = max (s.disk.dinode ip).size.toNat (s.off f + src.length)
  spends : Spends s.disk (s.disk.dinode ip) (s.off f) src.length s'.disk (s'.disk.dinode ip)

end State

section Chunks

variable {n : Nat} {p : Fin n} {s s₁ s₂ : State n} {f : Nat} {ip : Inum} {α : Type} {short : Prop}
  {post : α → State n → Prop}

theorem State.Opened.off_le_max (hopen : s.Opened f ip) : s.off f ≤ maxfile * bsize :=
  hopen.off_le.trans (hopen.sound.solid ip hopen.lt (by rw [hopen.regular]; decide)).size_le

theorem State.Advanced.refl (hopen : s.Opened f ip) : s.Advanced s f ip [] where
  opened := hopen
  off := rfl
  data := (overwrite_nil _ _).symm
  size := (Nat.max_eq_left hopen.off_le).symm
  spends := .nil

theorem State.Advanced.trans {a b : List UInt8} (hopen : s.Opened f ip)
    (h : s.Advanced s₁ f ip a) (h' : s₁.Advanced s₂ f ip b) : s.Advanced s₂ f ip (a ++ b) where
  opened := h'.opened
  off := by rw [h'.off, h.off, List.length_append, Nat.add_assoc]
  data := by
    have hoff : s.off f ≤ (s.data ip).length := by
      rw [State.data, Volume.length_file]
      exact hopen.off_le
    rw [h'.data, h.off, h.data, overwrite_append hoff]
  size := by
    rw [h'.size, h.size, h.off, List.length_append]
    omega
  spends := by
    intro m hm
    rw [List.length_append] at hm ⊢
    have hlate := h'.spends m (by rw [h.off]; omega)
    have hearly := h.spends (b.length + m) (by omega)
    rw [h.off] at hlate
    rw [← Nat.add_assoc, Nat.add_assoc a.length]
    omega

def OutOfBlocks (short : Prop) (ip : Inum) (o : Op) (s : State n) : Prop :=
  short ∧ ∃ off src, o = .writei ip off src ∧ s.writei ip off src = .error .outOfBlocks

/-- The process runs alone, up to its end or to a full disk. -/
abbrev Runs (p : Fin n) (short : Prop) (ip : Inum) (x : FsM α) (post : α → State n → Prop)
    (s : State n) : Prop :=
  x.wp (State.exec p) (OutOfBlocks short ip) post s

theorem Runs.step (o : Op) (r : o.Res × State n) {g : o.Res → FsM α}
    (hexec : State.exec p o s = some r) (hg : Runs p short ip (g r.1) post r.2) :
    Runs p short ip (atomic o >>= g) post s :=
  Prog.wp_step o r hexec hg

theorem ilock_loads {g : Unit → FsM α} (hopen : s.Opened f ip)
    (hg : ∀ s₁ : State n, s₁.disk = s.disk → s₁.node ip = s.disk.dinode ip →
      s₁.tables.ref = s.tables.ref → s₁.tables.file = s.tables.file → s₁.tables.lock ip = some p →
      Runs p short ip (g ()) post s₁) :
    Runs p short ip (Fs.ilock ip >>= g) post s := by
  let locked : State n := { s with tables := s.tables.setLock ip (some p) }
  have hloaded : (locked.load ip).1 = .file ∧ (locked.load ip).2.disk = s.disk ∧
      (locked.load ip).2.node ip = s.disk.dinode ip ∧
      (locked.load ip).2.tables.ref = s.tables.ref ∧ (locked.load ip).2.tables.file = s.tables.file ∧
      (locked.load ip).2.tables.lock ip = some p := by
    have hlive : (s.disk.dinode ip).type ≠ 0 := by
      rw [hopen.regular]
      decide
    unfold State.load
    by_cases hvalid : s.tables.valid ip = true
    · rw [if_pos (show locked.tables.valid ip = true from hvalid)]
      refine ⟨?_, rfl, hopen.cached hvalid, rfl, rfl, update_self ..⟩
      change typeOf (s.node ip).type = _
      rw [hopen.cached hvalid, hopen.regular]
      rfl
    · rw [if_neg (show ¬ locked.tables.valid ip = true from hvalid), if_neg hlive]
      refine ⟨?_, rfl, update_self .., rfl, rfl, update_self ..⟩
      change typeOf (s.disk.dinode ip).type = _
      rw [hopen.regular]
      rfl
  obtain ⟨htype, hdisk, hnode, href, hfile, hlock⟩ := hloaded
  have hlocks : State.exec p (.tryLock .ilock ip) s = some (true, locked) := by
    change (State.onTables p (.tryLock .ilock ip) s).toOption = _
    simp only [State.onTables, Fs.State.exec, Fs.State.tryLock, hopen.unlocked]
    rfl
  have hacquire : Runs p short ip (Fs.acquiresleep .ilock ip) (fun _ s₁ => s₁ = locked) s :=
    .step (.tryLock .ilock ip) (true, locked) hlocks rfl
  have hilock : Runs p short ip (Fs.ilock ip) (fun _ s₁ => s₁ = (locked.load ip).2) s := by
    refine .step (.ref ip) (s.tables.ref ip, s) rfl ?_
    rw [if_neg (not_lt.mpr hopen.ref)]
    refine Prog.wp_seq hacquire ?_
    rintro - _ rfl
    refine Runs.step (.load ip) (locked.load ip) rfl ?_
    have hused : (locked.load ip).1 ≠ .free := by
      rw [htype]
      nofun
    rw [if_neg hused]
    rfl
  refine Prog.wp_seq hilock ?_
  rintro - _ rfl
  exact hg _ hdisk hnode href hfile hlock

theorem iunlock_releases {g : Unit → FsM α} (hlock : s.tables.lock ip = some p) (href : 1 ≤ s.tables.ref ip)
    (hg : Runs p short ip (g ()) post { s with tables := s.tables.setLock ip none }) :
    Runs p short ip (Fs.iunlock ip >>= g) post s := by
  refine .step (.holdingsleep ip) ((s.tables.lock ip).isSome, s) rfl ?_
  rw [hlock]
  refine .step (.ref ip) (s.tables.ref ip, s) rfl ?_
  change Runs p short ip ((if s.tables.ref ip < 1 then Fs.panic .iunlock else Fs.releasesleep ip) >>= g)
    post s
  rw [if_neg (not_lt.mpr href)]
  exact .step (.unlock ip) ((), { s with tables := s.tables.setLock ip none }) rfl hg

theorem transaction_writes {c : List UInt8} {g : Int → FsM α} (hopen : s.Opened f ip) (hpos : c ≠ [])
    (hc : c.length < 2 ^ 31) (hshort : s.off f + c.length ≤ maxfile * bsize →
      s.disk.nfree < needs s.disk (s.disk.dinode ip) (s.off f) c.length → short)
    (hdone : s.off f + c.length ≤ maxfile * bsize → ∀ s', s.Advanced s' f ip c →
      Runs p short ip (g c.length) post s')
    (hrefused : maxfile * bsize < s.off f + c.length → ∀ s', s.Advanced s' f ip [] →
      Runs p short ip (g (-1)) post s') :
    Runs p short ip (do
      Fs.beginOp
      Fs.ilock ip
      let ff ← Fs.file f
      let r ← Fs.writei ip ff.off c
      if 0 < r then
        Fs.addOff f r.toNat
      Fs.iunlock ip
      Fs.endOp
      g r) post s := by
  have hlive : (s.disk.dinode ip).type ≠ 0 := by
    rw [hopen.regular]
    decide
  have hfile : (s.disk.dinode ip).type ≠ Volume.tDev := by
    rw [hopen.regular]
    decide
  have hmax : maxfile * bsize = 71680 := by decide
  have hoff := hopen.off_le_max
  let begun : State n := { s with disk := { s.disk with logged := [] } }
  have hbegun : begun.Opened f ip := { hopen with sound := hopen.sound.clearLog }
  refine .step .beginOp ((), begun) rfl (ilock_loads hbegun ?_)
  intro s₁ hdisk hnode href hfiles hlock
  refine Runs.step (.file f) ((s₁.tables.file f).fields, s₁) rfl ?_
  have hat : (s₁.tables.file f).fields.off = s.off f := by rw [hfiles]; rfl
  rw [hat]
  have hone : 1 ≤ s₁.tables.ref ip := by rw [href]; exact hopen.ref
  have hwritei : s₁.writei ip (s.off f) c
      = (begun.disk.writei ip (begun.disk.dinode ip) (s.off f) c).bind fun r =>
          .ok (r.1, { s₁ with disk := r.2.2, node := update s₁.node ip r.2.1 }) := by
    unfold State.writei
    rw [hdisk, hnode]
    rfl
  by_cases hfits : s.off f + c.length ≤ maxfile * bsize
  · have haccept : ¬ Volume.Refuses (begun.disk.dinode ip) (s.off f) c.length := by
      have hle : s.off f ≤ (begun.disk.dinode ip).size.toNat := hopen.off_le
      unfold Volume.Refuses Volume.outside
      omega
    have hends := Volume.writei_ends (hbegun.sound.owned_update ip) hbegun.lt hlive hfile
      (hbegun.sound.solid ip hbegun.lt hlive) (by omega) haccept
    cases hrun : begun.disk.writei ip (begun.disk.dinode ip) (s.off f) c with
    | error e =>
      rw [hrun] at hends hwritei
      obtain ⟨rfl, hfree⟩ := hends
      refine (Prog.wp_op _ _ _ _).mpr ?_
      have hexec : State.exec p (.writei ip (s.off f) c) s₁ = none := by
        change (s₁.writei ip (s.off f) c).toOption = none
        rw [hwritei]
        rfl
      rw [hexec]
      exact ⟨hshort hfits hfree, _, _, rfl, hwritei⟩
    | ok res =>
      obtain ⟨r, node', d'⟩ := res
      rw [hrun] at hends hwritei
      obtain ⟨hr, hwritten, hspends⟩ := hends
      dsimp only at hr hwritten hspends
      subst hr
      have hself : d'.dinode ip = node' := hwritten.self rfl
      refine .step (.writei ip (s.off f) c)
        ((c.length : Int), { s₁ with disk := d', node := update s₁.node ip node' }) ?_ ?_
      · change (s₁.writei ip (s.off f) c).toOption = _
        rw [hwritei]
        rfl
      · have hlen : 0 < c.length := List.length_pos_iff.mpr hpos
        rw [if_pos (by omega)]
        refine .step (.addOff f c.length) ((), { s₁ with
          disk := d', node := update s₁.node ip node', tables := s₁.tables.addOff f c.length }) rfl ?_
        refine iunlock_releases hlock hone ?_
        refine Runs.step .endOp ((), _) rfl (hdone hfits _ ?_)
        have hfields : (update s₁.tables.file f { s₁.tables.file f with
            fields := { (s₁.tables.file f).fields with
              off := (s₁.tables.file f).fields.off + c.length } } f).fields
            = { (s.tables.file f).fields with off := s.off f + c.length } := by
          rw [update_self, hfiles]
          rfl
        have hsize : (d'.dinode ip).size.toNat
            = max (s.disk.dinode ip).size.toNat (s.off f + c.length) := by
          rw [hself]
          exact hwritten.size
        have hoff' : (_ : Fs.FileFields).off = _ := congrArg (·.off) hfields
        exact
          { opened :=
              { sound := hwritten.sound hbegun.sound
                lt := hopen.lt.trans_eq (congrArg _ hwritten.sb.symm)
                regular := ((congrArg _ hself).trans hwritten.type).trans hopen.regular
                cached := fun _ => (update_self ..).trans hself.symm
                ref := hone
                unlocked := update_self ..
                inode := (congrArg (·.ip) hfields).trans hopen.inode
                writable := (congrArg (·.writable) hfields).trans hopen.writable
                off_le := hoff'.trans_le ((Nat.le_max_right ..).trans hsize.ge) }
            off := hoff'
            data := by
              change d'.file (d'.dinode ip) = _
              rw [hself, hwritten.file_eq hopen.off_le]
              rfl
            size := hsize
            spends := by
              change Spends s.disk _ _ _ d' (d'.dinode ip)
              rw [hself]
              exact hspends }
  · have hrefuse : Volume.Refuses (begun.disk.dinode ip) (s.off f) c.length := by
      unfold Volume.Refuses Volume.outside
      omega
    have hsame : update s₁.node ip (begun.disk.dinode ip) = s₁.node := by
      rw [show begun.disk.dinode ip = s₁.node ip from hnode.symm, Function.update_eq_self]
    have hrun : begun.disk.writei ip (begun.disk.dinode ip) (s.off f) c
        = .ok (-1, begun.disk.dinode ip, begun.disk) := Volume.writei_refused hfile hrefuse
    refine .step (.writei ip (s.off f) c) (-1, { s₁ with disk := begun.disk }) ?_ ?_
    · change (s₁.writei ip (s.off f) c).toOption = _
      rw [hwritei, hrun]
      exact congrArg (fun node => some (-1, { s₁ with disk := begun.disk, node })) hsame
    · rw [if_neg (by omega)]
      refine iunlock_releases hlock hone ?_
      refine .step .endOp ((), _) rfl (hrefused (not_le.mp hfits) _ ?_)
      have hfields : (s₁.tables.file f).fields = (s.tables.file f).fields := by rw [hfiles]
      exact
        { opened :=
            { hbegun with
              cached := fun _ => hnode
              ref := hone
              unlocked := update_self ..
              inode := (congrArg (·.ip) hfields).trans hopen.inode
              writable := (congrArg (·.writable) hfields).trans hopen.writable
              off_le := hat.trans_le hopen.off_le }
          off := hat
          data := (overwrite_nil _ _).symm
          size := (Nat.max_eq_left hopen.off_le).symm
          spends := .nil }

theorem filewriteLoop_advances (fuel : Nat) (rest : List UInt8) (hopen : s.Opened f ip)
    (hfuel : rest.length ≤ fuel) (hrest : rest.length < 2 ^ 31)
    (hshort : s.disk.nfree < needs s.disk (s.disk.dinode ip) (s.off f) (written (s.off f) rest.length) →
      short) :
    Runs p short ip (filewriteLoop f ip fuel rest) (fun r s' =>
      r = decide (s.off f + rest.length ≤ maxfile * bsize) ∧
        s.Advanced s' f ip (rest.take (written (s.off f) rest.length))) s := by
  have hmax : maxfile * bsize = 71680 := by decide
  have hchunk : filewriteMax = 1536 := by decide
  have hoff := hopen.off_le_max
  induction fuel generalizing s rest with
  | zero =>
    obtain rfl : rest = [] := List.length_eq_zero_iff.mp (Nat.le_zero.mp hfuel)
    exact ⟨(decide_eq_true hoff).symm, by rw [List.take_nil]; exact .refl hopen⟩
  | succ fuel ih =>
    unfold filewriteLoop
    by_cases hnil : rest = []
    · subst hnil
      exact ⟨(decide_eq_true hoff).symm, by rw [List.take_nil]; exact .refl hopen⟩
    rw [if_neg (by simpa using hnil)]
    have hlen : (rest.take filewriteMax).length = min filewriteMax rest.length := List.length_take
    have hpos : 0 < rest.length := List.length_pos_iff.mpr hnil
    have hne : rest.take filewriteMax ≠ [] := by
      rw [Ne, ← List.length_eq_zero_iff, hlen]
      omega
    refine transaction_writes hopen hne (by omega) (fun hfits hfree => hshort ?_)
      (fun hfits s₁ hadv => ?_) fun hbig s₁ hadv => ?_
    · rw [hlen] at hfits hfree
      refine hfree.trans_le (Volume.needs_mono ?_)
      rw [written_chunk hfits]
      exact Nat.le_add_right ..
    · rw [if_neg (by omega), if_neg (by simp)]
      have hall := written_chunk (hlen ▸ hfits)
      have hend := written_le hoff rest.length
      have hdrop : (rest.drop filewriteMax).length = rest.length - filewriteMax := List.length_drop
      have hoff₁ : s₁.off f = s.off f + min filewriteMax rest.length := by rw [hadv.off, hlen]
      refine Prog.wp_mono (ih (rest.drop filewriteMax) hadv.opened (by omega) (by omega) ?_
        hadv.opened.off_le_max) ?_
      · intro hfree
        have hspends := hadv.spends (written (s₁.off f) (rest.length - filewriteMax))
          (by rw [hlen, hoff₁]; omega)
        rw [hdrop] at hfree
        rw [← hadv.off, hlen, hoff₁, ← hall, ← hoff₁] at hspends
        exact hshort (by omega)
      · rintro r s₂ ⟨rfl, hrest⟩
        refine ⟨?_, ?_⟩
        · rw [hoff₁, hdrop, decide_eq_decide]
          omega
        · have htrans := hadv.trans hopen hrest
          rw [hdrop, hoff₁, ← take_min, ← drop_min, ← List.take_add, ← hall] at htrans
          exact htrans
    · rw [if_pos (by omega)]
      rw [hlen] at hbig
      refine ⟨?_, ?_⟩
      · rw [eq_comm, decide_eq_false_iff_not]
        omega
      · rw [written_refused hoff hbig, List.take_zero]
        exact hadv

theorem filewrite_advances (src : List UInt8) (hopen : s.Opened f ip) (hlen : src.length < 2 ^ 31) :
    Runs p (s.disk.nfree < needs s.disk (s.disk.dinode ip) (s.off f) (written (s.off f) src.length)) ip
      (filewrite f src) (fun r s' =>
        r = (if s.off f + src.length ≤ maxfile * bsize then (src.length : Int) else -1) ∧
          s.Advanced s' f ip (src.take (written (s.off f) src.length))) s := by
  refine .step (.file f) ((s.tables.file f).fields, s) rfl ?_
  dsimp only
  rw [if_pos hopen.writable, hopen.inode]
  refine Prog.wp_seq (filewriteLoop_advances src.length src hopen le_rfl hlen id) ?_
  rintro r s' ⟨rfl, hadv⟩
  by_cases hfits : s.off f + src.length ≤ maxfile * bsize
  · rw [decide_eq_true hfits, if_pos hfits]
    exact ⟨rfl, hadv⟩
  · rw [decide_eq_false hfits, if_neg hfits]
    exact ⟨rfl, hadv⟩

/-- **The chunks of `filewrite` do not show.** At an offset inside a regular file, and with blocks for
what it can write, `filewrite` returns the number of bytes, and leaves the content, the size and the
offset that a single `writei` leaves, if the file does not get too large. Otherwise it returns `-1`
with the largest number of whole chunks written that fits. It never panics but for want of blocks. -/
theorem filewrite_chunks (p : Fin n) (src : List UInt8) (hopen : s.Opened f ip)
    (hlen : src.length < 2 ^ 31) : (s.off f + src.length ≤ maxfile * bsize →
      needs s.disk (s.disk.dinode ip) (s.off f) src.length ≤ s.disk.nfree →
      ∃ s' d', (filewrite f src).run (State.exec p) s = .done (src.length : Int) s' ∧
        s.disk.writei ip (s.disk.dinode ip) (s.off f) src = .ok (src.length, d'.dinode ip, d') ∧
        s'.data ip = d'.file (d'.dinode ip) ∧ (s'.disk.dinode ip).size = (d'.dinode ip).size ∧
        s'.off f = s.off f + src.length) ∧
    (maxfile * bsize < s.off f + src.length → ∀ k, filewriteMax ∣ k →
      s.off f + k ≤ maxfile * bsize → maxfile * bsize < s.off f + k + filewriteMax →
      needs s.disk (s.disk.dinode ip) (s.off f) k ≤ s.disk.nfree →
      ∃ s', (filewrite f src).run (State.exec p) s = .done (-1) s' ∧
        s'.data ip = overwrite (s.data ip) (s.off f) (src.take k) ∧
        (s'.disk.dinode ip).size.toNat = max (s.disk.dinode ip).size.toNat (s.off f + k) ∧
        s'.off f = s.off f + k) ∧
    ∀ o t, (filewrite f src).run (State.exec p) s = .halted o t →
      ∃ off c, o = .writei ip off c ∧ t.writei ip off c = .error .outOfBlocks := by
  have hmax : maxfile * bsize = 71680 := by decide
  have hchunk : filewriteMax = 1536 := by decide
  have hall := filewrite_advances (p := p) src hopen hlen
  have hreturns : needs s.disk (s.disk.dinode ip) (s.off f) (written (s.off f) src.length)
      ≤ s.disk.nfree → ∃ s', (filewrite f src).run (State.exec p) s
        = .done (if s.off f + src.length ≤ maxfile * bsize then (src.length : Int) else -1) s' ∧
        s.Advanced s' f ip (src.take (written (s.off f) src.length)) := by
    intro hroom
    cases hrun : (filewrite f src).run (State.exec p) s with
    | done r s' =>
      obtain ⟨rfl, hadv⟩ := Prog.wp_done hall hrun
      exact ⟨s', rfl, hadv⟩
    | halted o t => exact absurd (Prog.wp_halted hall hrun).1 (not_lt.mpr hroom)
  refine ⟨fun hfits hroom => ?_, fun hbig k hdvd hle hgt hroom => ?_, fun o t hrun =>
    (Prog.wp_halted hall hrun).2⟩
  · have hk : written (s.off f) src.length = src.length := if_pos hfits
    rw [hk, if_pos hfits, List.take_length] at hreturns
    obtain ⟨s', hrun, hadv⟩ := hreturns hroom
    have hlive : (s.disk.dinode ip).type ≠ 0 := by
      rw [hopen.regular]
      decide
    have hfile : (s.disk.dinode ip).type ≠ Volume.tDev := by
      rw [hopen.regular]
      decide
    have haccept : ¬ Volume.Refuses (s.disk.dinode ip) (s.off f) src.length := by
      have hoff := hopen.off_le
      unfold Volume.Refuses Volume.outside
      omega
    obtain ⟨⟨r, node', d'⟩, hsingle, rfl, hwritten, -⟩ :=
      (Volume.writei_ends (hopen.sound.owned_update ip) hopen.lt hlive hfile
        (hopen.sound.solid ip hopen.lt hlive) (by omega) haccept).exists_ok (not_lt.mpr hroom)
    obtain rfl : d'.dinode ip = node' := hwritten.self rfl
    refine ⟨s', d', hrun, hsingle, ?_, ?_, hadv.off⟩
    · exact hadv.data.trans (hwritten.file_eq hopen.off_le).symm
    · exact UInt32.toNat_inj.mp (hadv.size.trans hwritten.size.symm)
  · have hk : written (s.off f) src.length = k := by
      obtain ⟨c, rfl⟩ := hdvd
      unfold written
      rw [hmax] at hle hgt hbig
      rw [hmax, hchunk] at *
      rw [if_neg (by omega)]
      omega
    rw [hk, if_neg (by omega)] at hreturns
    obtain ⟨s', hrun, hadv⟩ := hreturns hroom
    have htake : (src.take k).length = k := by
      rw [List.length_take]
      omega
    refine ⟨s', hrun, hadv.data, ?_, ?_⟩
    · rw [hadv.size, htake]
    · rw [hadv.off, htake]

def openedAbc : State 1 :=
  { boot 1 Volume.abcVolume with
    tables := (boot 1 Volume.abcVolume).tables.setFile 0
      { ref := 1, fields := { ip := some 1, off := 2, readable := false, writable := true } } }

/-- 2000 bytes are two chunks. -/
theorem filewrite_chunks_abc :
    ∃ s' d', (filewrite 0 (.replicate 2000 120)).run (State.exec 0) openedAbc = .done 2000 s' ∧
      Volume.abcVolume.writei 1 (Volume.abcVolume.dinode 1) 2 (.replicate 2000 120)
        = .ok (2000, d'.dinode 1, d') ∧
      s'.data 1 = d'.file (d'.dinode 1) ∧ (s'.disk.dinode 1).size = (d'.dinode 1).size ∧
      s'.off 0 = 2002 := by
  have hchecked : Volume.abcVolume.Checked [35] := by decide +kernel
  have hopen : openedAbc.Opened 0 1 :=
    { sound := hchecked.sound
      lt := by decide
      regular := by decide +kernel
      cached := nofun
      ref := by decide
      unlocked := rfl
      inode := rfl
      writable := rfl
      off_le := by decide +kernel }
  have hchunks := filewrite_chunks 0 (.replicate 2000 120) hopen
  rw [List.length_replicate] at hchunks
  exact (hchunks (by decide)).1 (by decide) (by decide +kernel)

end Chunks

end Xv6.Disk
