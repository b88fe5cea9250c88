import Xv6.Bcache.Steps

/-!
# One coherent copy of every block

Every run of disciplined callers keeps the invariant of the cache.
-/

namespace Xv6.Bcache

open Function (update update_self update_of_ne)

variable {n : Nat} {δ : Type} {s s' : State n δ} {p q : Fin n} {b : BufId}

namespace Frame

theorem refl (s : State n δ) (p : Fin n) (b : BufId) : Frame s s p b :=
  ⟨fun _ _ => rfl, fun _ _ => rfl, fun _ _ _ => rfl, fun _ _ => rfl⟩

section

variable (hframe : Frame s s' p b)
include hframe

theorem setBuf (x : Buf δ) : Frame s (s'.setBuf b x) p b :=
  ⟨fun b' hb => by simpa [State.setBuf, update_of_ne hb] using hframe.buf b' hb, hframe.pc, hframe.holds,
    hframe.touched⟩

theorem setPc (pc : Pc) : Frame s (s'.setPc p pc) p b :=
  ⟨hframe.buf, fun q hq => by simpa [State.setPc, update_of_ne hq] using hframe.pc q hq, hframe.holds,
    hframe.touched⟩

theorem setTouched (x : Bool) : Frame s (s'.setTouched b x) p b :=
  ⟨hframe.buf, hframe.pc, hframe.holds, fun b' hb => by
    simpa [State.setTouched, update_of_ne hb] using hframe.touched b' hb⟩

theorem setLeft (x : Option δ) : Frame s (s'.setLeft b x) p b :=
  ⟨hframe.buf, hframe.pc, hframe.holds, hframe.touched⟩

theorem setDisk (d : δ) : Frame s (s'.setDisk b d) p b :=
  ⟨hframe.buf, hframe.pc, hframe.holds, hframe.touched⟩

theorem setHolds (x : Bool) : Frame s (s'.setHolds p b x) p b := by
  refine ⟨hframe.buf, hframe.pc, ?_, hframe.touched⟩
  intro q b' hne
  have hold := hframe.holds q b' hne
  by_cases hq : q = p
  · subst hq
    have hb : b' ≠ b := hne.resolve_left fun hnq => hnq rfl
    simpa [State.setHolds, update_of_ne hb] using hold
  · simpa [State.setHolds, update_of_ne hq] using hold

end

end Frame

/-! ### What the setters leave -/

section Setters

variable (s) (p) (b)

@[simp] theorem buf_setBuf (x : Buf δ) : (s.setBuf b x).buf b = x := by simp [State.setBuf]
@[simp] theorem pc_setPc (pc : Pc) : (s.setPc p pc).pc p = pc := by simp [State.setPc]
@[simp] theorem holds_setHolds (x : Bool) : (s.setHolds p b x).holds p b = x := by simp [State.setHolds]
@[simp] theorem touched_setTouched (x : Bool) : (s.setTouched b x).touched b = x := by
  simp [State.setTouched]
@[simp] theorem left_setLeft (x : Option δ) :
    (s.setLeft b x).left (s.buf b).dev (s.buf b).blockno = x := by simp [State.setLeft]
@[simp] theorem disk_setDisk (d : δ) :
    (s.setDisk b d).disk (s.buf b).dev (s.buf b).blockno = d := by simp [State.setDisk]

variable {s b}

theorem left_setLeft_of_ne {dev : Dev} {blockno : Blockno} (x : Option δ)
    (hne : ¬(dev = (s.buf b).dev ∧ blockno = (s.buf b).blockno)) :
    (s.setLeft b x).left dev blockno = s.left dev blockno := by
  by_cases hdev : dev = (s.buf b).dev
  · subst hdev
    have hbn : blockno ≠ (s.buf b).blockno := fun heq => hne ⟨rfl, heq⟩
    simp [State.setLeft, update_of_ne hbn]
  · simp [State.setLeft, update_of_ne hdev]

theorem disk_setDisk_of_ne {dev : Dev} {blockno : Blockno} (d : δ)
    (hne : ¬(dev = (s.buf b).dev ∧ blockno = (s.buf b).blockno)) :
    (s.setDisk b d).disk dev blockno = s.disk dev blockno := by
  by_cases hdev : dev = (s.buf b).dev
  · subst hdev
    have hbn : blockno ≠ (s.buf b).blockno := fun heq => hne ⟨rfl, heq⟩
    simp [State.setDisk, update_of_ne hbn]
  · simp [State.setDisk, update_of_ne hdev]

end Setters

/-! ### Facts about a buffer in use -/

theorem not_reads_idle {pc : Pc} (hpc : pc = .idle) : ¬pc.Reads b := by
  rintro ⟨dev, blockno, hread⟩
  rw [hpc] at hread
  cases hread

namespace Inv

theorem held_dev (hinv : Inv s) (hp : s.holds p b = true) : (s.buf b).dev ≠ 0 :=
  (hinv.bufs b).assigned (hinv.held hp)

theorem left_self (hinv : Inv s) (hdev : (s.buf b).dev ≠ 0) {d : δ}
    (hd : s.left (s.buf b).dev (s.buf b).blockno = some d) :
    (s.buf b).dirty = true ∨ s.touched b = true := by
  obtain ⟨b', hb', hbn, -, hor⟩ := hinv.left _ _ d hd
  have heq : b = b' := hinv.unique b b' hdev hb'.symm hbn.symm
  rw [heq]
  exact hor

theorem others (hinv : Inv s) (hp : s.holds p b = true) (q : Fin n) (hq : q ≠ p) : s.holds q b = false := by
  cases hh : s.holds q b with
  | false => rfl
  | true => exact absurd (hinv.alone hp hh) hq

theorem locked (hinv : Inv s) (hp : s.holds p b = true) : (s.buf b).locked = true := by
  have hle := le_sum (fun r => (s.holds r b).toNat) p
  have hlock := hinv.lock b
  simp only [hp, Bool.toNat_true] at hle
  cases hl : (s.buf b).locked with
  | true => rfl
  | false =>
    rw [hl, Bool.toNat_false] at hlock
    omega

end Inv

theorem ProcInv.ofHeld (hinv : Inv s) (hframe : Frame s s' p b)
    (hbefore : ∀ b', b' ≠ b → ¬(s.pc p).Reads b') (hpc : s'.pc p = .idle ∨ s'.pc p = .dropping b ∨
      (s'.pc p = .writing b ∧ s'.holds p b = true ∧ (s'.buf b).dirty = true))
    (hvalid : s'.holds p b = true → (s'.buf b).valid = true) : ProcInv s' p := by
  constructor
  · intro b' dev blockno hacq
    obtain h | h | ⟨h, -⟩ := hpc <;> rw [h] at hacq <;> cases hacq
  · intro b' dev blockno hread
    obtain h | h | ⟨h, -⟩ := hpc <;> rw [h] at hread <;> cases hread
  · intro b' hwrite
    obtain h | h | ⟨h, hheld, hdirty⟩ := hpc <;> rw [h] at hwrite <;> cases hwrite
    exact ⟨hheld, hdirty⟩
  · intro b' hheld _
    by_cases hb : b' = b
    · subst hb
      exact hvalid hheld
    · rw [hframe.holds p b' (.inr hb)] at hheld
      rw [hframe.buf b' hb]
      exact (hinv.proc p).filled b' hheld (hbefore b' hb)

/-! ### The actions -/

theorem Inv.use {x : Buf δ} (hinv : Inv s) (hheld : s.holds p b = true) (hframe : Frame s s' p b)
    (hlinks : s'.links = s.links) (hholds : s'.holds = s.holds) (hx : s'.buf b = x)
    (hblock : x.dev = (s.buf b).dev ∧ x.blockno = (s.buf b).blockno)
    (hcount : x.refcnt = (s.buf b).refcnt ∧ x.locked = (s.buf b).locked)
    (hbefore : (∀ b', (s.pc p).refs b' = 0) ∧ ∀ b', b' ≠ b → ¬(s.pc p).Reads b')
    (hafter : s'.pc p = .idle ∨ (s'.pc p = .writing b ∧ x.dirty = true))
    (hdisk : ∀ dev blockno, ¬(dev = (s.buf b).dev ∧ blockno = (s.buf b).blockno) →
      s'.left dev blockno = s.left dev blockno ∧ s'.disk dev blockno = s.disk dev blockno)
    (hvalid : x.valid = true) (hdata : x.data = s'.content (s.buf b).dev (s.buf b).blockno)
    (hleft : ∀ d, s'.left (s.buf b).dev (s.buf b).blockno = some d → x.dirty = true ∨ s'.touched b = true) :
    Inv s' := by
  subst hx
  have hdev := hinv.held_dev hheld
  have hheld' : s'.holds p b = true := by
    rw [hholds]
    exact hheld
  have hnot : ∀ b', ¬(s'.pc p).Reads b' := by
    rintro b' ⟨dev, blockno, hread⟩
    obtain h | ⟨h, -⟩ := hafter <;> rw [h] at hread <;> cases hread
  refine hinv.exclusive hframe hlinks hblock hcount.1 hdev (hinv.others hheld) ?_ ?_ hdisk ?_ ?_ ?_ hleft
  · rw [hholds, hcount.2]
  · intro b'
    have hrefs : (s'.pc p).refs b' = 0 := by
      obtain h | ⟨h, -⟩ := hafter <;> rw [h] <;> rfl
    unfold State.refs
    rw [hholds, hrefs, hbefore.1 b']
  · intro b' _ hread
    exact absurd hread (hnot b')
  · refine .ofHeld hinv hframe hbefore.2 ?_ fun _ => hvalid
    obtain h | ⟨h, hdirty⟩ := hafter
    · exact .inl h
    · exact .inr (.inr ⟨h, hheld', hdirty⟩)
  · constructor
    · intro _
      rw [hblock.1]
      exact hdev
    · intro _
      exact hvalid
    · intro _
      rw [hblock.1, hblock.2]
      exact hdata
    · intro _
      exact ⟨p, hheld', hnot b⟩

theorem idle_before (hpc : s.pc p = .idle) (b : BufId) :
    (∀ b', (s.pc p).refs b' = 0) ∧ ∀ b', b' ≠ b → ¬(s.pc p).Reads b' := by
  rw [hpc]
  exact ⟨fun _ => rfl, fun _ _ => not_reads_idle rfl⟩

section

variable (hinv : Inv s)
include hinv

theorem Inv.bget {dev : Dev} {blockno : Blockno} {g : Got} (hdev : dev ≠ 0) (hpc : s.pc p = .idle)
    (hget : s.bget dev blockno = some g) :
    Inv ((s.got dev blockno g).2.setPc p (.acquiring (s.got dev blockno g).1 dev blockno)) := by
  have hspec := bget_spec hinv.ring dev blockno
  rw [hget] at hspec
  cases g with
  | cached b =>
    obtain ⟨hd, hbn⟩ := hspec
    refine hinv.count (p := p) (b := b) (((Frame.refl s p b).setBuf _).setPc _) hinv.ring
      (buf_setBuf s b _) rfl rfl ⟨rfl, rfl⟩ ?_ ?_ ?_ ?_ ?_ ?_
    · rw [hd]
      exact hdev
    · rw [pc_setPc, hpc]
      simp [Pc.refs, State.got]
    · intro b' hb
      rw [pc_setPc, hpc]
      simp [Pc.refs, State.got, Ne.symm hb]
    · intro b'
      refine ⟨?_, not_reads_idle hpc⟩
      rintro ⟨dev', blockno', hread⟩
      rw [pc_setPc] at hread
      cases hread
    · intro b' dev' blockno' hacq
      rw [pc_setPc] at hacq
      cases hacq
      exact ⟨hd, hbn⟩
    · intro b' hwrite
      rw [pc_setPc] at hwrite
      cases hwrite
  | recycled b =>
    obtain ⟨hnew, hzero, hclean⟩ := hspec
    exact hinv.recycle (p := p) (b := b) (((Frame.refl s p b).setBuf _).setPc _) rfl
      (buf_setBuf s b _) rfl rfl ⟨rfl, rfl⟩ hdev hzero hclean hnew hpc (pc_setPc _ p _)

theorem Inv.refcnt_pos (hrefs : (s.pc p).refs b = 1) : 1 ≤ (s.buf b).refcnt := by
  have hle : _ + _ ≤ _ := le_sum (s.refs b) p
  rw [hinv.refcnt b]
  omega

/-- The lock of an untouched buffer is taken or given back. -/
theorem Inv.setLocked {v : Bool} {pc : Pc} (hdev : (s.buf b).dev ≠ 0)
    (halone : ∀ q, q ≠ p → s.holds q b = false) (hheld : s.holds p b = !v) (hlocked : (s.buf b).locked = !v)
    (huntouched : s.touched b = false) (hrefs : ∀ b', pc.refs b' + (if b' = b then v.toNat else 0)
      = (s.pc p).refs b' + if b' = b then (!v).toNat else 0)
    (hreads : ∀ b', b' ≠ b → ¬ pc.Reads b')
    (hproc : ProcInv (((s.setBuf b { s.buf b with locked := v }).setHolds p b v).setPc p pc) p) :
    Inv (((s.setBuf b { s.buf b with locked := v }).setHolds p b v).setPc p pc) := by
  generalize hs' : ((s.setBuf b { s.buf b with locked := v }).setHolds p b v).setPc p pc = s' at hproc ⊢
  have hframe : Frame s s' p b :=
    hs' ▸ (((Frame.refl s p b).setBuf { s.buf b with locked := v }).setHolds v).setPc pc
  have hbuf : s'.buf b = { s.buf b with locked := v } := hs' ▸ buf_setBuf s b _
  have hholds : s'.holds p b = v := hs' ▸ holds_setHolds _ p b v
  have hpc : s'.pc p = pc := hs' ▸ pc_setPc _ p pc
  have hold := hinv.bufs b
  refine hinv.exclusive hframe (hs' ▸ rfl) ?_ ?_ hdev halone ?_ (fun b' => ?_)
    (fun _ _ _ => hs' ▸ ⟨rfl, rfl⟩) (fun b' hb hread => absurd (hpc ▸ hread) (hreads b' hb)) hproc ?_
    fun d hd => ?_
  · rw [hbuf]
    exact ⟨rfl, rfl⟩
  · rw [hbuf]
  · rw [hbuf, hholds, hheld, hlocked]
    exact Nat.add_comm ..
  · have hsum := hrefs b'
    unfold State.refs
    rw [hpc]
    by_cases hb : b' = b
    · subst hb
      rw [if_pos rfl, if_pos rfl] at hsum
      rw [hholds, hheld]
      omega
    · rw [if_neg hb, if_neg hb] at hsum
      rw [hframe.holds p b' (.inr hb)]
      omega
  · subst hs'
    refine ⟨fun _ => ?_, ?_, ?_, fun ht => absurd (huntouched.symm.trans ht) Bool.false_ne_true⟩
    · rw [hbuf]
      exact hdev
    · rw [hbuf]
      exact hold.dirty
    · rw [hbuf]
      exact hold.data
  · subst hs'
    rw [hbuf]
    exact .inl ((hinv.left_self hdev hd).resolve_right (by rw [huntouched]; decide))

theorem Inv.acquiresleep {dev : Dev} {blockno : Blockno} (hpc : s.pc p = .acquiring b dev blockno)
    (hfree : (s.buf b).locked = false) :
    Inv (((s.setBuf b { s.buf b with locked := true }).setHolds p b true).setPc p
      (.reading b dev blockno)) := by
  have hno : ∀ q, s.holds q b = false := by
    intro q
    cases hq : s.holds q b with
    | false => rfl
    | true =>
      rw [hinv.locked hq] at hfree
      cases hfree
  have huntouched : s.touched b = false := by
    cases ht : s.touched b with
    | false => rfl
    | true =>
      obtain ⟨q, hq, -⟩ := (hinv.bufs b).touched ht
      exact absurd ((hno q).symm.trans hq) Bool.false_ne_true
  have hdev := (hinv.bufs b).assigned (hinv.refcnt_pos (p := p) (by rw [hpc]; exact if_pos rfl))
  have hframe := (((Frame.refl s p b).setBuf { s.buf b with locked := true }).setHolds true).setPc
    (.reading b dev blockno)
  refine hinv.setLocked hdev (fun q _ => hno q) (hno p) hfree huntouched (fun b' => ?_) ?_ ⟨?_, ?_, ?_, ?_⟩
  · rw [hpc]
    simp [Pc.refs, eq_comm]
  · rintro b' hb ⟨dev', blockno', hread⟩
    cases hread
    exact hb rfl
  · intro b' dev' blockno' hacq
    rw [pc_setPc] at hacq
    cases hacq
  · intro b' dev' blockno' hread
    rw [pc_setPc] at hread
    cases hread
    have hkey := (hinv.proc p).acquiring b dev blockno hpc
    have hbuf := buf_setBuf s b { s.buf b with locked := true }
    exact ⟨holds_setHolds _ p b true, (congrArg (·.dev) hbuf).trans hkey.1,
      (congrArg (·.blockno) hbuf).trans hkey.2⟩
  · intro b' hwrite
    rw [pc_setPc] at hwrite
    cases hwrite
  · intro b' hheld hnot
    by_cases hb : b' = b
    · subst hb
      exact absurd ⟨dev, blockno, pc_setPc _ p _⟩ hnot
    · rw [hframe.holds p b' (.inr hb)] at hheld
      rw [hframe.buf b' hb]
      refine (hinv.proc p).filled b' hheld ?_
      rintro ⟨dev', blockno', hread⟩
      rw [hpc] at hread
      cases hread

theorem Inv.fill {dev : Dev} {blockno : Blockno} (hpc : s.pc p = .reading b dev blockno)
    (hfill : (if (s.buf b).valid then some (s.setPc p .idle)
      else (s.iderw b).map fun s => s.setPc p .idle) = some s') : Inv s' := by
  obtain ⟨hheld, -, -⟩ := (hinv.proc p).reading b dev blockno hpc
  have hbefore : (∀ b', (s.pc p).refs b' = 0) ∧ ∀ b', b' ≠ b → ¬(s.pc p).Reads b' := by
    rw [hpc]
    refine ⟨fun _ => rfl, ?_⟩
    rintro b' hb ⟨dev', blockno', hread⟩
    cases hread
    exact hb rfl
  split at hfill
  · rename_i hvalid
    cases hfill
    exact hinv.use hheld ((Frame.refl s p b).setPc _) rfl rfl rfl ⟨rfl, rfl⟩ ⟨rfl, rfl⟩ hbefore
      (.inl (pc_setPc s p _)) (fun _ _ _ => ⟨rfl, rfl⟩) hvalid ((hinv.bufs b).data hvalid)
      fun _ hd => hinv.left_self (hinv.held_dev hheld) hd
  · rename_i hnot
    have hclean : (s.buf b).dirty = false := by
      cases hd : (s.buf b).dirty with
      | false => rfl
      | true => exact absurd ((hinv.bufs b).dirty hd) hnot
    -- nobody has left anything in the block
    have hnone : s.left (s.buf b).dev (s.buf b).blockno = none := by
      cases hleft : s.left (s.buf b).dev (s.buf b).blockno with
      | none => rfl
      | some d =>
        obtain hd | ht := hinv.left_self (hinv.held_dev hheld) hleft
        · rw [hclean] at hd
          cases hd
        · obtain ⟨q, hq, hreads⟩ := (hinv.bufs b).touched ht
          rw [hinv.alone hheld hq] at hreads
          exact absurd ⟨dev, blockno, hpc⟩ hreads
    simp only [State.iderw, hclean, Bool.false_eq_true, if_false, if_neg hnot, Option.map_some,
      Option.some.injEq] at hfill
    subst hfill
    refine hinv.use hheld (((Frame.refl s p b).setBuf _).setPc _) rfl rfl (buf_setBuf s b _) ⟨rfl, rfl⟩
      ⟨rfl, rfl⟩ hbefore (.inl (pc_setPc _ p _)) (fun _ _ _ => ⟨rfl, rfl⟩) rfl ?_ fun d hd => ?_
    · change _ = (s.left (s.buf b).dev (s.buf b).blockno).getD _
      rw [hnone]
      rfl
    · exact absurd (hnone.symm.trans hd) nofun

theorem Inv.modify (hpc : s.pc p = .idle) (hheld : s.holds p b = true) (d : δ) :
    Inv (((s.setBuf b { s.buf b with data := d }).setLeft b (some d)).setTouched b true) := by
  have hvalid := (hinv.proc p).filled b hheld (not_reads_idle hpc)
  have hdev : (s.setBuf b { s.buf b with data := d }).buf b = { s.buf b with data := d } := buf_setBuf s b _
  have hleft := left_setLeft (s.setBuf b { s.buf b with data := d }) b (some d)
  rw [hdev] at hleft
  refine hinv.use hheld ((((Frame.refl s p b).setBuf _).setLeft _).setTouched _) rfl rfl hdev ⟨rfl, rfl⟩
    ⟨rfl, rfl⟩ (idle_before hpc b) (.inl hpc) (fun dev blockno hne => ⟨?_, rfl⟩) hvalid ?_
    fun _ _ => .inr (touched_setTouched _ b true)
  · apply left_setLeft_of_ne
    rw [hdev]
    exact hne
  · exact (congrArg (fun x : Option δ => x.getD _) hleft).symm

theorem Inv.logWrite (hpc : s.pc p = .idle) (hheld : s.holds p b = true) :
    Inv ((s.setBuf b { s.buf b with dirty := true }).setTouched b false) := by
  have hvalid := (hinv.proc p).filled b hheld (not_reads_idle hpc)
  exact hinv.use hheld (((Frame.refl s p b).setBuf _).setTouched _) rfl rfl (buf_setBuf s b _) ⟨rfl, rfl⟩
    ⟨rfl, rfl⟩ (idle_before hpc b) (.inl hpc) (fun _ _ _ => ⟨rfl, rfl⟩) hvalid ((hinv.bufs b).data hvalid)
    fun _ _ => .inl rfl

theorem Inv.bwrite (hpc : s.pc p = .idle) (hheld : s.holds p b = true) :
    Inv ((s.setBuf b { s.buf b with dirty := true }).setPc p (.writing b)) := by
  have hvalid := (hinv.proc p).filled b hheld (not_reads_idle hpc)
  exact hinv.use hheld (((Frame.refl s p b).setBuf _).setPc _) rfl rfl (buf_setBuf s b _) ⟨rfl, rfl⟩
    ⟨rfl, rfl⟩ (idle_before hpc b) (.inr ⟨pc_setPc _ p _, rfl⟩) (fun _ _ _ => ⟨rfl, rfl⟩) hvalid
    ((hinv.bufs b).data hvalid) fun _ _ => .inl rfl

theorem Inv.iderw (hpc : s.pc p = .writing b)
    (hwrite : (s.iderw b).map (fun s => s.setPc p .idle) = some s') : Inv s' := by
  obtain ⟨hheld, hdirty⟩ := (hinv.proc p).writing b hpc
  simp only [State.iderw, hdirty, if_true, Option.map_some, Option.some.injEq] at hwrite
  subst hwrite
  have hbefore : (∀ b', (s.pc p).refs b' = 0) ∧ ∀ b', b' ≠ b → ¬(s.pc p).Reads b' := by
    rw [hpc]
    refine ⟨fun _ => rfl, ?_⟩
    rintro b' _ ⟨dev, blockno, hread⟩
    cases hread
  have hleft := left_setLeft (s.setDisk b (s.buf b).data) b (none : Option δ)
  have hdisk := disk_setDisk s b (s.buf b).data
  refine hinv.use hheld
    (((((Frame.refl s p b).setDisk _).setLeft _).setTouched _).setBuf _ |>.setPc _) rfl rfl
    (buf_setBuf _ b _) ⟨rfl, rfl⟩ ⟨rfl, rfl⟩ hbefore (.inl (pc_setPc _ p _)) (fun dev blockno hne => ?_) rfl ?_
    fun d hd => absurd (hleft.symm.trans hd) nofun
  · exact ⟨left_setLeft_of_ne (s := s.setDisk b (s.buf b).data) none hne, disk_setDisk_of_ne _ hne⟩
  · change (s.buf b).data = (((s.setDisk b (s.buf b).data).setLeft b none).left (s.buf b).dev
      (s.buf b).blockno).getD ((s.setDisk b (s.buf b).data).disk (s.buf b).dev (s.buf b).blockno)
    rw [hdisk]
    exact (congrArg (fun x : Option δ => x.getD (s.buf b).data) hleft).symm

theorem Inv.brelse (hpc : s.pc p = .idle) (hheld : s.holds p b = true) (huntouched : s.touched b = false) :
    Inv (((s.setBuf b { s.buf b with locked := false }).setHolds p b false).setPc p (.dropping b)) := by
  have hframe := (((Frame.refl s p b).setBuf { s.buf b with locked := false }).setHolds false).setPc
    (.dropping b)
  refine hinv.setLocked (hinv.held_dev hheld) (hinv.others hheld) hheld (hinv.locked hheld) huntouched
    (fun b' => ?_) ?_ (.ofHeld hinv hframe (idle_before hpc b).2 (.inr (.inl (pc_setPc _ p _))) ?_)
  · rw [hpc]
    simp [Pc.refs, eq_comm]
  · rintro b' _ ⟨dev, blockno, hread⟩
    cases hread
  · exact fun hh => absurd ((holds_setHolds _ p b false).symm.trans hh) Bool.false_ne_true

theorem Inv.drop (hpc : s.pc p = .dropping b) : Inv ((s.bput b).setPc p .idle) := by
  have hpos := hinv.refcnt_pos (p := p) (b := b) (by rw [hpc]; exact if_pos rfl)
  have hbput : ∃ k, OneRing k ∧
      s.bput b = { s.setBuf b { s.buf b with refcnt := (s.buf b).refcnt - 1 } with links := k } := by
    unfold State.bput
    dsimp only
    split
    · exact ⟨_, hinv.ring.moveToFront b, rfl⟩
    · exact ⟨_, hinv.ring, rfl⟩
  obtain ⟨k, hring, hbput⟩ := hbput
  rw [hbput]
  have hframe : Frame s ({ s.setBuf b { s.buf b with refcnt := (s.buf b).refcnt - 1 } with
      links := k }.setPc p .idle) p b := by
    have hset := (Frame.refl s p b).setBuf { s.buf b with refcnt := (s.buf b).refcnt - 1 }
    apply Frame.setPc
    exact ⟨hset.buf, hset.pc, hset.holds, hset.touched⟩
  refine hinv.count hframe hring (buf_setBuf s b _) rfl rfl ⟨rfl, rfl⟩
    ((hinv.bufs b).assigned hpos) ?_ ?_ ?_ ?_ ?_
  · rw [pc_setPc, hpc]
    simp only [Pc.refs, if_true]
    omega
  · intro b' hb
    rw [pc_setPc, hpc]
    simp [Pc.refs, Ne.symm hb]
  · intro b'
    refine ⟨not_reads_idle (pc_setPc _ p _), ?_⟩
    rintro ⟨dev, blockno, hread⟩
    rw [hpc] at hread
    cases hread
  · intro b' dev blockno hacq
    rw [pc_setPc] at hacq
    cases hacq
  · intro b' hwrite
    rw [pc_setPc] at hwrite
    cases hwrite

theorem Inv.step {a : Act n δ} (hdisc : Disciplined s a) (hstep : step s a = some s') : Inv s' := by
  cases a <;> simp only [Bcache.step] at hstep
  case bget p dev blockno =>
    split at hstep
    · rename_i g hpc hget
      cases hstep
      exact hinv.bget hdisc hpc hget
    · cases hstep
  case acquiresleep p =>
    split at hstep
    · rename_i b dev blockno hpc
      split at hstep <;> cases hstep
      rename_i hfree
      exact hinv.acquiresleep hpc (by simpa using hfree)
    · cases hstep
  case fill p =>
    split at hstep
    · rename_i b dev blockno hpc
      exact hinv.fill hpc hstep
    · cases hstep
  case modify p b d =>
    split at hstep <;> cases hstep
    rename_i hp
    exact hinv.modify hp.1 hp.2 d
  case logWrite p b =>
    split at hstep <;> cases hstep
    rename_i hp
    exact hinv.logWrite hp.1 hp.2
  case bwrite p b =>
    split at hstep <;> cases hstep
    rename_i hp
    exact hinv.bwrite hp.1 hp.2.1
  case iderw p =>
    split at hstep
    · rename_i b hpc
      exact hinv.iderw hpc hstep
    · cases hstep
  case brelse p b =>
    split at hstep <;> cases hstep
    rename_i hp
    exact hinv.brelse hp.1 hp.2.1 hdisc
  case drop p =>
    split at hstep <;> cases hstep
    rename_i b hpc
    exact hinv.drop hpc

end

theorem Inv.init (k : Links Node) (disk : Dev → Blockno → δ) (data : BufId → δ) :
    Inv (State.init k disk data : State n δ) := by
  constructor
  · exact oneRing_binit k
  · intro b b' hne
    exact absurd rfl hne
  · intro b
    exact (Finset.sum_eq_zero fun _ _ => rfl).symm
  · intro b
    exact (Finset.sum_eq_zero fun _ _ => rfl).symm
  · nofun
  · intro q
    exact ⟨nofun, nofun, nofun, nofun⟩
  · intro b
    exact ⟨nofun, nofun, nofun, nofun⟩

/-! ### Coherence -/

def Pc.waitsFor (b : BufId) : Pc → Bool
  | .acquiring b' _ _ => b' = b
  | _ => false

def Pc.drops (b : BufId) : Pc → Bool
  | .dropping b' => b' = b
  | _ => false

structure Coherent (s : State n δ) : Prop where
  /-- One ring of the head and every buffer. -/
  ring : ∃ l : List BufId, s.links.Ring .head (l.map .buf) ∧ ∀ b, b ∈ l
  /-- A buffer that `bget` has assigned is on a device other than 0. -/
  unique : ∀ b b', (s.buf b).dev ≠ 0 → (s.buf b).dev = (s.buf b').dev →
    (s.buf b).blockno = (s.buf b').blockno → b = b'
  refcnt : ∀ b, (s.buf b).refcnt = (Finset.univ.filter fun p => s.holds p b = true).card
    + (Finset.univ.filter fun p => (s.pc p).waitsFor b = true).card
    + (Finset.univ.filter fun p => (s.pc p).drops b = true).card
  holder : ∀ b p q, s.holds p b = true → s.holds q b = true → p = q
  /-- A buffer that `bget` gives another block is not in use, and it is clean. -/
  reuse : ∀ dev blockno b, s.bget dev blockno = some (.recycled b) →
    (∀ p, s.holds p b = false ∧ (s.pc p).waitsFor b = false ∧ (s.pc p).drops b = false) ∧
      (s.buf b).dirty = false
  /-- `bget` fails only when every buffer is in use or dirty. -/
  full : ∀ dev blockno, s.bget dev blockno = none → ∀ b, 0 < (s.buf b).refcnt ∨ (s.buf b).dirty = true
  /-- `bread` returns the block that was asked for, with what a holder has left in it, or the disk's
  content. -/
  bread : ∀ p b dev blockno, s.pc p = .reading b dev blockno → ∃ s', step s (.fill p) = some s' ∧
    s'.holds p b = true ∧ (s'.buf b).dev = dev ∧ (s'.buf b).blockno = blockno ∧
    (s'.buf b).data = (s.left dev blockno).getD (s.disk dev blockno)

theorem Pc.refs_eq (pc : Pc) (b : BufId) : pc.refs b = (pc.waitsFor b).toNat + (pc.drops b).toNat := by
  cases pc with
  | acquiring b' dev blockno | dropping b' =>
    by_cases hb : b' = b <;> simp [Pc.refs, Pc.waitsFor, Pc.drops, hb]
  | _ => rfl

theorem sum_toNat (f : Fin n → Bool) :
    ∑ p, (f p).toNat = (Finset.univ.filter fun p => f p = true).card := by
  rw [Finset.card_filter]
  refine Finset.sum_congr rfl fun p _ => ?_
  cases f p <;> rfl

theorem Inv.bread (hinv : Inv s) {dev : Dev} {blockno : Blockno} (hpc : s.pc p = .reading b dev blockno) :
    ∃ s', Bcache.step s (.fill p) = some s' ∧ s'.holds p b = true ∧ (s'.buf b).dev = dev ∧
      (s'.buf b).blockno = blockno ∧ (s'.buf b).data = s.content dev blockno := by
  obtain ⟨hheld, hdev, hbn⟩ := (hinv.proc p).reading b dev blockno hpc
  cases hvalid : (s.buf b).valid with
  | true =>
    have hstep : Bcache.step s (.fill p) = some (s.setPc p .idle) := by
      simp only [Bcache.step, hpc, hvalid, if_true]
    refine ⟨_, hstep, hheld, hdev, hbn, ?_⟩
    rw [← hdev, ← hbn]
    exact (hinv.bufs b).data hvalid
  | false =>
    have hclean : (s.buf b).dirty = false := by
      cases hd : (s.buf b).dirty with
      | false => rfl
      | true =>
        have hv := (hinv.bufs b).dirty hd
        rw [hvalid] at hv
        cases hv
    have hstep : Bcache.step s (.fill p) = some ((s.setBuf b { s.buf b with
        valid := true, data := s.disk (s.buf b).dev (s.buf b).blockno }).setPc p .idle) := by
      simp only [Bcache.step, hpc, hvalid, State.iderw, hclean, Bool.false_eq_true, if_false,
        Option.map_some]
    have hinv' := hinv.step (a := .fill p) trivial hstep
    refine ⟨_, hstep, hheld, ?_⟩
    have hbuf : ((s.setBuf b { s.buf b with
        valid := true, data := s.disk (s.buf b).dev (s.buf b).blockno }).setPc p .idle).buf b
        = { s.buf b with valid := true, data := s.disk (s.buf b).dev (s.buf b).blockno } :=
      buf_setBuf s b _
    have hdata := (hinv'.bufs b).data (by rw [hbuf])
    rw [hbuf] at hdata ⊢
    refine ⟨hdev, hbn, ?_⟩
    rw [← hdev, ← hbn]
    exact hdata

theorem Inv.coherent (hinv : Inv s) : Coherent s := by
  constructor
  · exact hinv.ring
  · exact hinv.unique
  · intro b
    rw [hinv.refcnt b, ← sum_toNat, ← sum_toNat fun p => (s.pc p).waitsFor b,
      ← sum_toNat fun p => (s.pc p).drops b, ← Finset.sum_add_distrib, ← Finset.sum_add_distrib]
    refine Finset.sum_congr rfl fun p _ => ?_
    unfold State.refs
    rw [Pc.refs_eq, Nat.add_assoc]
  · intro b p q hp hq
    exact hinv.alone hq hp
  · intro dev blockno b hget
    have hspec := bget_spec hinv.ring dev blockno
    rw [hget] at hspec
    obtain ⟨-, hzero, hclean⟩ := hspec
    refine ⟨?_, hclean⟩
    intro p
    obtain ⟨hno, href⟩ := hinv.free hzero p
    rw [Pc.refs_eq] at href
    refine ⟨hno, ?_, ?_⟩
    · exact Bool.toNat_eq_zero.mp (by omega)
    · exact Bool.toNat_eq_zero.mp (by omega)
  · intro dev blockno hget b
    have hspec := bget_spec hinv.ring dev blockno
    rw [hget] at hspec
    have hused := hspec.2 b
    cases hd : (s.buf b).dirty with
    | true => exact .inr rfl
    | false => exact .inl (Nat.pos_of_ne_zero fun hzero => hused ⟨hzero, hd⟩)
  · intro p b dev blockno hpc
    exact hinv.bread hpc

/-- In every run of any number of processes that keep to the discipline, from `binit` on: the cache is
coherent in every state reached. -/
theorem bcache_coherent {k : Links Node} {disk : Dev → Blockno → δ} {data : BufId → δ}
    (hrun : Reaches step Disciplined (State.init k disk data : State n δ) s) : Coherent s := by
  have hinv : Inv s := hrun.invariant (I := Inv) (.init k disk data) fun s a s' hinv hdisc hstep =>
    hinv.step hdisc hstep
  exact hinv.coherent

/-- One process changes block 7 through the log and releases it; another one reads it back from the
cache while the disk still has the old content. -/
theorem bcache_coherent_reread : ∃ s : State 2 Nat, Reaches step Disciplined
        (State.init ⟨fun x => x, fun x => x⟩ (fun _ _ => 0) fun _ => 0) s ∧
      (s.disk 1 7 = 0 ∧ s.left 1 7 = some 5) ∧ Coherent s := by
  have hrun : (runActs step Disciplined
        [.bget 0 1 7, .acquiresleep 0, .fill 0, .modify 0 ⟨0, by decide⟩ 5, .logWrite 0 ⟨0, by decide⟩,
          .bget 1 1 7, .brelse 0 ⟨0, by decide⟩, .drop 0, .acquiresleep 1]
        (.init ⟨fun x => x, fun x => x⟩ (fun _ _ => 0) (fun _ => 0) : State 2 Nat)).map
        (fun s => decide (s.disk 1 7 = 0 ∧ s.left 1 7 = some 5)) = some true := by
    decide +kernel
  obtain ⟨s, hreach, hdec⟩ := Reaches.of_map hrun
  exact ⟨s, hreach, of_decide_eq_true hdec, bcache_coherent hreach⟩

end Xv6.Bcache
