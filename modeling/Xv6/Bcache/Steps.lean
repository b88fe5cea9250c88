import Xv6.Bcache.Inv

/-!
# Every action keeps the cache coherent
-/

namespace Xv6.Bcache

open Function (update update_self update_of_ne)

variable {n : Nat} {δ : Type} {s s' : State n δ} {p q : Fin n} {b b' : BufId}

/-! ### Three kinds of actions -/

theorem Inv.exclusive (hinv : Inv s) (hframe : Frame s s' p b) (hlinks : s'.links = s.links)
    (hblock : (s'.buf b).dev = (s.buf b).dev ∧ (s'.buf b).blockno = (s.buf b).blockno)
    (hcount : (s'.buf b).refcnt = (s.buf b).refcnt) (hdev : (s.buf b).dev ≠ 0)
    (halone : ∀ q, q ≠ p → s.holds q b = false) (hlock : (s'.buf b).locked.toNat + (s.holds p b).toNat
      = (s.buf b).locked.toNat + (s'.holds p b).toNat)
    (hrefs : ∀ b', s'.refs b' p = s.refs b' p)
    (hdisk : ∀ dev blockno, ¬(dev = (s.buf b).dev ∧ blockno = (s.buf b).blockno) →
      s'.left dev blockno = s.left dev blockno ∧ s'.disk dev blockno = s.disk dev blockno)
    (hreads : ∀ b', b' ≠ b → (s'.pc p).Reads b' → (s.pc p).Reads b') (hproc : ProcInv s' p)
    (hbuf : BufInv s' b)
    (hleft : ∀ d, s'.left (s.buf b).dev (s.buf b).blockno = some d →
      (s'.buf b).dirty = true ∨ s'.touched b = true) : Inv s' := by
  have hsame : ∀ b', (s'.buf b').dev = (s.buf b').dev ∧ (s'.buf b').blockno = (s.buf b').blockno := by
    intro b'
    by_cases hb : b' = b
    · subst hb
      exact hblock
    · rw [hframe.buf b' hb]
      exact ⟨rfl, rfl⟩
  constructor
  · rw [hlinks]
    exact hinv.ring
  · intro b₁ b₂
    rw [(hsame b₁).1, (hsame b₁).2, (hsame b₂).1, (hsame b₂).2]
    exact hinv.unique b₁ b₂
  · have hself : (s'.buf b).refcnt + s.refs b p = (s.buf b).refcnt + s'.refs b p := by
      rw [hcount, hrefs b]
    exact hframe.refcnt hinv hself fun b' _ => hrefs b'
  · exact hframe.lock hinv hlock
  · intro dev blockno d hd
    by_cases hin : dev = (s.buf b).dev ∧ blockno = (s.buf b).blockno
    · obtain ⟨rfl, rfl⟩ := hin
      exact ⟨b, hblock.1, hblock.2, hdev, hleft d hd⟩
    rw [(hdisk dev blockno hin).1] at hd
    obtain ⟨b', hb', hbn, hne, hor⟩ := hinv.left dev blockno d hd
    have hbb : b' ≠ b := by
      intro heq
      subst heq
      exact hin ⟨hb'.symm, hbn.symm⟩
    rw [← hframe.buf b' hbb, ← hframe.touched b' hbb] at hor
    exact ⟨b', (hsame b').1.trans hb', (hsame b').2.trans hbn, hne, hor⟩
  · intro q
    by_cases hq : q = p
    · subst hq
      exact hproc
    · have hno := halone q hq
      refine hframe.proc hinv hq (fun _ => hblock) fun hheld => ?_
      rw [hno] at hheld
      cases hheld
  · intro b'
    by_cases hb : b' = b
    · subst hb
      exact hbuf
    · have hin : ¬((s.buf b').dev = (s.buf b).dev ∧ (s.buf b').blockno = (s.buf b).blockno) :=
        fun heq => hb (hinv.unique b b' hdev heq.1.symm heq.2.symm).symm
      refine hframe.bufs hinv hb ?_ (hreads b' hb)
      unfold State.content
      rw [(hdisk _ _ hin).1, (hdisk _ _ hin).2]

theorem Inv.count (hinv : Inv s) (hframe : Frame s s' p b) (hring : OneRing s'.links) {r : Nat}
    (hbuf : s'.buf b = { s.buf b with refcnt := r }) (hholds : s'.holds = s.holds)
    (htouched : s'.touched = s.touched) (hdisk : s'.left = s.left ∧ s'.disk = s.disk)
    (hdev : (s.buf b).dev ≠ 0) (hself : r + (s.pc p).refs b = (s.buf b).refcnt + (s'.pc p).refs b)
    (hother : ∀ b', b' ≠ b → (s'.pc p).refs b' = (s.pc p).refs b')
    (hreads : ∀ b', ¬(s'.pc p).Reads b' ∧ ¬(s.pc p).Reads b')
    (hacquiring : ∀ b' dev blockno, s'.pc p = .acquiring b' dev blockno →
      (s.buf b').dev = dev ∧ (s.buf b').blockno = blockno)
    (hwriting : ∀ b', s'.pc p ≠ .writing b') : Inv s' := by
  have hsame : ∀ b', (s'.buf b').dev = (s.buf b').dev ∧ (s'.buf b').blockno = (s.buf b').blockno ∧
      (s'.buf b').dirty = (s.buf b').dirty ∧ (s'.buf b').valid = (s.buf b').valid ∧
      (s'.buf b').locked = (s.buf b').locked ∧ (s'.buf b').data = (s.buf b').data := by
    intro b'
    by_cases hb : b' = b
    · subst hb
      rw [hbuf]
      exact ⟨rfl, rfl, rfl, rfl, rfl, rfl⟩
    · rw [hframe.buf b' hb]
      exact ⟨rfl, rfl, rfl, rfl, rfl, rfl⟩
  have hcontent : s'.content = s.content := by
    funext dev blockno
    unfold State.content
    rw [hdisk.1, hdisk.2]
  constructor
  · exact hring
  · intro b₁ b₂
    rw [(hsame b₁).1, (hsame b₁).2.1, (hsame b₂).1, (hsame b₂).2.1]
    exact hinv.unique b₁ b₂
  · refine hframe.refcnt hinv ?_ ?_
    · unfold State.refs
      rw [hbuf, hholds]
      dsimp only
      omega
    · intro b' hb
      unfold State.refs
      rw [hother b' hb, hholds]
  · refine hframe.lock hinv ?_
    rw [hholds, (hsame b).2.2.2.2.1]
  · intro dev blockno d hd
    rw [hdisk.1] at hd
    obtain ⟨b', hb', hbn, hne, hor⟩ := hinv.left dev blockno d hd
    rw [← (hsame b').2.2.1, ← htouched] at hor
    exact ⟨b', (hsame b').1.trans hb', (hsame b').2.1.trans hbn, hne, hor⟩
  · intro q
    by_cases hq : q = p
    · subst hq
      constructor
      · intro b' dev blockno hacq
        rw [(hsame b').1, (hsame b').2.1]
        exact hacquiring b' dev blockno hacq
      · intro b' dev blockno hread
        exact absurd ⟨dev, blockno, hread⟩ (hreads b').1
      · intro b' hwrite
        exact absurd hwrite (hwriting b')
      · intro b' hheld _
        rw [hholds] at hheld
        rw [(hsame b').2.2.2.1]
        exact (hinv.proc q).filled b' hheld (hreads b').2
    · refine hframe.proc hinv hq (fun _ => ⟨(hsame b).1, (hsame b).2.1⟩) fun _ => ⟨?_, ?_⟩
      · rw [(hsame b).2.2.1]
        exact id
      · rw [(hsame b).2.2.2.1]
        exact id
  · intro b'
    have hold := hinv.bufs b'
    constructor
    · intro hpos
      rw [(hsame b').1]
      by_cases hb : b' = b
      · subst hb
        exact hdev
      · rw [hframe.buf b' hb] at hpos
        exact hold.assigned hpos
    · rw [(hsame b').2.2.1, (hsame b').2.2.2.1]
      exact hold.dirty
    · rw [(hsame b').2.2.2.1, (hsame b').2.2.2.2.2, (hsame b').1, (hsame b').2.1, hcontent]
      exact hold.data
    · intro ht
      rw [htouched] at ht
      obtain ⟨q, hq, hnot⟩ := hold.touched ht
      refine ⟨q, by rw [hholds]; exact hq, ?_⟩
      by_cases hqp : q = p
      · subst hqp
        exact (hreads b').1
      · rw [hframe.pc q hqp]
        exact hnot

theorem Inv.recycle (hinv : Inv s) (hframe : Frame s s' p b) (hlinks : s'.links = s.links) {dev : Dev}
    {blockno : Blockno} (hbuf : s'.buf b = { s.buf b with
      dev := dev, blockno := blockno, valid := false, dirty := false, refcnt := 1 })
    (hholds : s'.holds = s.holds) (htouched : s'.touched = s.touched)
    (hdisk : s'.left = s.left ∧ s'.disk = s.disk) (hdev : dev ≠ 0)
    (hzero : (s.buf b).refcnt = 0) (hclean : (s.buf b).dirty = false)
    (hnew : ∀ b', ¬((s.buf b').dev = dev ∧ (s.buf b').blockno = blockno))
    (hbefore : s.pc p = .idle) (hpc : s'.pc p = .acquiring b dev blockno) : Inv s' := by
  have hfree := hinv.free hzero
  have hself : ∀ b', b' ≠ b → s'.refs b' p = s.refs b' p := by
    intro b' hb
    unfold State.refs
    rw [hholds, hpc, hbefore]
    simp [Pc.refs, Ne.symm hb]
  constructor
  · rw [hlinks]
    exact hinv.ring
  · intro b₁ b₂ hne₁ hd hbn
    by_cases h₁ : b₁ = b
    · by_cases h₂ : b₂ = b
      · rw [h₁, h₂]
      · rw [h₁, hbuf, hframe.buf b₂ h₂] at hd hbn
        exact absurd ⟨hd.symm, hbn.symm⟩ (hnew b₂)
    · rw [hframe.buf b₁ h₁] at hne₁ hd hbn
      by_cases h₂ : b₂ = b
      · rw [h₂, hbuf] at hd hbn
        exact absurd ⟨hd, hbn⟩ (hnew b₁)
      · rw [hframe.buf b₂ h₂] at hd hbn
        exact hinv.unique b₁ b₂ hne₁ hd hbn
  · refine hframe.refcnt hinv ?_ hself
    unfold State.refs
    rw [hbuf, hholds, hpc, hbefore, hzero, (hfree p).1]
    simp [Pc.refs]
  · refine hframe.lock hinv ?_
    rw [hholds, hbuf]
  · intro dev' blockno' d hd
    rw [hdisk.1] at hd
    obtain ⟨b', hb', hbn, hne, hor⟩ := hinv.left dev' blockno' d hd
    have hbb : b' ≠ b := by
      intro heq
      subst heq
      rw [← hb', ← hbn, hinv.not_left hzero hclean] at hd
      cases hd
    rw [← hframe.buf b' hbb] at hb' hbn hor
    rw [← htouched] at hor
    exact ⟨b', hb', hbn, hne, hor⟩
  · intro q
    by_cases hq : q = p
    · subst hq
      constructor
      · intro b' dev' blockno' hacq
        rw [hpc] at hacq
        cases hacq
        rw [hbuf]
        exact ⟨rfl, rfl⟩
      · intro b' dev' blockno' hread
        rw [hpc] at hread
        cases hread
      · intro b' hwrite
        rw [hpc] at hwrite
        cases hwrite
      · intro b' hheld _
        rw [hholds] at hheld
        have hbb : b' ≠ b := by
          intro heq
          rw [heq, (hfree q).1] at hheld
          cases hheld
        rw [hframe.buf b' hbb]
        refine (hinv.proc q).filled b' hheld ?_
        rintro ⟨dev', blockno', hread⟩
        rw [hbefore] at hread
        cases hread
    · obtain ⟨hno, href⟩ := hfree q
      refine hframe.proc hinv hq ?_ ?_
      · rintro (hne | hheld)
        · exact absurd href hne
        · rw [hno] at hheld
          cases hheld
      · intro hheld
        rw [hno] at hheld
        cases hheld
  · intro b'
    by_cases hb : b' = b
    · subst hb
      constructor
      · intro _
        rw [hbuf]
        exact hdev
      · rw [hbuf]
        rintro ⟨⟩
      · rw [hbuf]
        rintro ⟨⟩
      · intro ht
        rw [htouched] at ht
        obtain ⟨q, hq, -⟩ := (hinv.bufs b').touched ht
        rw [(hfree q).1] at hq
        cases hq
    · refine hframe.bufs hinv hb ?_ ?_
      · unfold State.content
        rw [hdisk.1, hdisk.2]
      · rintro ⟨dev', blockno', hread⟩
        rw [hpc] at hread
        cases hread

/-! ### The loops of `bget` -/

theorem OneRing.scan {k : Links Node} (hring : OneRing k) (f : Node → Option BufId) :
    ∃ l : List BufId, (∀ b, b ∈ l) ∧
      Links.findFrom k.next .head f (nbuf + 1) (k.next .head) = some ((l.map Node.buf).findSome? f) ∧
      Links.findFrom k.prev .head f (nbuf + 1) (k.prev .head)
        = some ((l.map Node.buf).reverse.findSome? f) := by
  obtain ⟨l, hl, hall⟩ := hring
  have hnodup : l.Nodup := (List.nodup_cons.mp hl.nodup).2.of_map Node.buf
  have hlen : (l.map Node.buf).length = nbuf := by
    have hperm : l.Perm (List.finRange nbuf) :=
      (List.perm_ext_iff_of_nodup hnodup (List.nodup_finRange nbuf)).mpr fun b =>
        ⟨fun _ => List.mem_finRange b, fun _ => hall b⟩
    rw [List.length_map, hperm.length_eq, List.length_finRange]
  have hnext := hl.findFrom_next f
  have hprev := hl.findFrom_prev f
  rw [hlen] at hnext hprev
  exact ⟨l, hall, hnext, hprev⟩

theorem isCached_eq_some {dev : Dev} {blockno : Blockno} {x : Node}
    (hx : s.isCached dev blockno x = some b) : (s.buf b).dev = dev ∧ (s.buf b).blockno = blockno := by
  cases x with
  | head => cases hx
  | buf b' =>
    simp only [State.isCached] at hx
    split at hx <;> cases hx
    assumption

theorem isUnused_eq_some {x : Node} (hx : s.isUnused x = some b) :
    (s.buf b).refcnt = 0 ∧ (s.buf b).dirty = false := by
  cases x with
  | head => cases hx
  | buf b' =>
    simp only [State.isUnused] at hx
    split at hx <;> cases hx
    assumption

theorem bget_spec (hring : OneRing s.links) (dev : Dev) (blockno : Blockno) :
    match s.bget dev blockno with
    | some (.cached b) => (s.buf b).dev = dev ∧ (s.buf b).blockno = blockno
    | some (.recycled b) => (∀ b', ¬((s.buf b').dev = dev ∧ (s.buf b').blockno = blockno)) ∧
        (s.buf b).refcnt = 0 ∧ (s.buf b).dirty = false
    | none => (∀ b', ¬((s.buf b').dev = dev ∧ (s.buf b').blockno = blockno)) ∧
        ∀ b, ¬((s.buf b).refcnt = 0 ∧ (s.buf b).dirty = false) := by
  obtain ⟨l, hall, hnext, -⟩ := hring.scan (s.isCached dev blockno)
  obtain ⟨l', hall', -, hprev⟩ := hring.scan s.isUnused
  unfold State.bget
  rw [hnext, hprev]
  cases hcached : (l.map .buf).findSome? (s.isCached dev blockno) with
  | some b =>
    obtain ⟨x, -, hx⟩ := List.exists_of_findSome?_eq_some hcached
    exact isCached_eq_some hx
  | none =>
    have hnew : ∀ b', ¬((s.buf b').dev = dev ∧ (s.buf b').blockno = blockno) := by
      intro b' hb'
      have hnone := List.findSome?_eq_none_iff.mp hcached (.buf b') (List.mem_map_of_mem (hall b'))
      simp only [State.isCached, if_pos hb', reduceCtorEq] at hnone
    cases hunused : (l'.map .buf).reverse.findSome? s.isUnused with
    | some b =>
      obtain ⟨x, -, hx⟩ := List.exists_of_findSome?_eq_some hunused
      exact ⟨hnew, isUnused_eq_some hx⟩
    | none =>
      refine ⟨hnew, ?_⟩
      intro b hb
      have hmem : Node.buf b ∈ (l'.map Node.buf).reverse :=
        List.mem_reverse.mpr (List.mem_map_of_mem (hall' b))
      have hnone := List.findSome?_eq_none_iff.mp hunused (.buf b) hmem
      simp only [State.isUnused, if_pos hb, reduceCtorEq] at hnone

/-! ### Surgery -/

theorem OneRing.moveToFront {k : Links Node} (hring : OneRing k) (b : BufId) :
    OneRing ((k.unlink (.buf b)).insertAfter .head (.buf b)) := by
  obtain ⟨l, hl, hall⟩ := hring
  obtain ⟨l₁, l₂, rfl⟩ := List.append_of_mem (hall b)
  rw [List.map_append, List.map_cons] at hl
  have hnodup := (List.nodup_cons.mp hl.nodup).2
  have hb : Node.buf b ∉ Node.head :: (l₁.map Node.buf ++ l₂.map Node.buf) := by
    intro hmem
    obtain hhead | hmem := List.mem_cons.mp hmem
    · cases hhead
    · exact (List.nodup_middle.mp hnodup).notMem hmem
  have hfront := hl.unlink.insertAfter hb
  refine ⟨b :: (l₁ ++ l₂), ?_, ?_⟩
  · rw [List.map_cons, List.map_append]
    exact hfront
  · intro b'
    have hmem := hall b'
    simp only [List.mem_append, List.mem_cons] at hmem ⊢
    tauto

theorem ring_foldl {k : Links Node} (bs acc : List BufId) (hring : k.Ring .head (acc.map .buf))
    (hnodup : (bs ++ acc).Nodup) :
    (bs.foldl (fun k b => k.insertAfter .head (.buf b)) k).Ring .head ((bs.reverse ++ acc).map .buf) := by
  induction bs generalizing k acc with
  | nil => exact hring
  | cons b bs ih =>
    have hb : Node.buf b ∉ Node.head :: acc.map Node.buf := by
      intro hmem
      obtain hhead | hmem := List.mem_cons.mp hmem
      · cases hhead
      · obtain ⟨b', hb', heq⟩ := List.mem_map.mp hmem
        cases heq
        exact (List.nodup_cons.mp hnodup).1 (List.mem_append_right bs hb')
    rw [List.reverse_cons, List.append_assoc]
    exact ih (b :: acc) (hring.insertAfter hb) (List.nodup_middle.mpr hnodup)

theorem oneRing_binit (k : Links Node) : OneRing (binit k) := by
  have hring := ring_foldl (List.finRange nbuf) [] (Links.ring_alone k .head)
    (by rw [List.append_nil]; exact List.nodup_finRange nbuf)
  rw [List.append_nil] at hring
  exact ⟨_, hring, fun b => List.mem_reverse.mpr (List.mem_finRange b)⟩

end Xv6.Bcache
