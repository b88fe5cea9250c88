import Xv6.Log.BufSteps

/-!
# The steps of `log.c` keep the invariant

The writes of blocks by `commit` and `recover_from_log`, each of which moves the one process that
may write to its next stage, and the critical sections on `log.lock`.
-/

namespace Xv6.Log

open Function (update update_self update_of_ne)

open Local

variable {n : Nat} {s s' : State n} {T : Fin n → Local} {p : Fin n} {b : BufId} {bn : Blockno}

/-! ### Writes of blocks -/

def State.written (s : State n) (b : BufId) : BufId → Buf n :=
  update s.buf b { s.buf b with valid := true, dirty := false }

theorem diskWrite_of_not {x : Buf n} {d : Data} (hnot : ¬ (bn = logStart ∧ 0 < d 0)) :
    (s.setBuf b x).diskWrite bn d = { s with buf := update s.buf b x, disk := update s.disk bn d } :=
  if_neg hnot

theorem diskWrite_head {x : Buf n} {d : Data} (hpos : 0 < d 0) : (s.setBuf b x).diskWrite logStart d
      = { s with
          buf := update s.buf b x
          disk := update s.disk logStart d
          committed := s.snap
          commitHist := s.snapHist } :=
  if_pos ⟨rfl, hpos⟩

namespace Inv

theorem exec_bwrite (hinv : Inv s T) {ph : Phase} (hheld : (T p).held b = some (bn, ph))
    (hlocked : ph.Locked) : State.exec p (.bwrite b) s
      = some ((), (s.setBuf b { s.buf b with valid := true, dirty := false }).diskWrite bn
          (s.buf b).data) := by
  have hbn := hinv.buf.blockno p b _ hheld
  have hp := hinv.lock_eq hheld hlocked
  simp [State.exec, State.iderw, State.setBuf, hbn, hp]

theorem bufInv_written (hinv : Inv s T) {ph : Phase} (hheld : (T p).held b = some (bn, ph))
    (hlocked : ph.Locked) : BufInv (s.written b) s.lru (update s.disk bn (s.buf b).data) s.view s.lh
      (setHold (fun q => (T q).held) p b (some (bn, .filled))) := by
  refine hinv.buf.touch hheld (.inl hlocked) rfl rfl (hinv.lock_iff hheld hlocked trivial)
    (fun _ => rfl) nofun trivial (fun _ _ => ?_) (fun _ hc => update_of_ne hc ..)
    (fun _ _ => rfl) (.inl ⟨rfl, rfl⟩)
  unfold Current
  rw [if_neg Bool.false_ne_true, update_self]

theorem dirty_written (hinv : Inv s T) (hbn : (s.buf b).blockno = some bn) (hbuf : s'.buf = s.written b)
    (c : Blockno) : s'.Dirty c ↔ s.Dirty c ∧ c ≠ bn := by
  unfold State.Dirty
  rw [hbuf]
  constructor
  · rintro ⟨b', hb', hd⟩
    by_cases hne : b' = b
    · rw [hne, State.written, update_self] at hd
      cases hd
    · rw [State.written, update_of_ne hne] at hb' hd
      exact ⟨⟨b', hb', hd⟩, hinv.buf.ne_of_ne hbn hne hb'⟩
  · rintro ⟨⟨b', hb', hd⟩, hne⟩
    have hb : b' ≠ b := by
      rintro rfl
      exact hne (Option.some.inj (hb'.symm.trans hbn))
    refine ⟨b', ?_⟩
    rw [State.written, update_of_ne hb]
    exact ⟨hb', hd⟩

end Inv

def State.write (s : State n) (b : BufId) (bn : Blockno) : State n :=
  { s with buf := s.written b, disk := update s.disk bn (s.buf b).data }

theorem write_disk_of_ne {c : Blockno} (hc : c ≠ bn) : (s.write b bn).disk c = s.disk c :=
  update_of_ne hc ..

theorem write_disk_self : (s.write b bn).disk bn = (s.buf b).data := update_self ..

theorem log_ne_start (j : Nat) : logStart + j + 1 ≠ logStart := by omega

theorem log_ne_log {i j : Nat} (hne : i ≠ j) : logStart + i + 1 ≠ logStart + j + 1 := by omega

theorem ne_of_home {c : Blockno} (hc : Home c) (hbn : ¬ Home bn) : c ≠ bn := by
  rintro rfl
  exact hbn hc

namespace Inv

section

variable (hinv : Inv s T)
include hinv

theorem settled_write (hsettled : Settled s) (hbn : (s.buf b).blockno = some bn) (hnot : ¬ Home bn)
    (hne : logStart ≠ bn) : Settled (s.write b bn) where
  empty := by
    rw [write_disk_of_ne hne]
    exact hsettled.empty
  home c hc := by
    rw [write_disk_of_ne (ne_of_home hc hnot)]
    exact hsettled.home c hc
  view := hsettled.view
  dirty c := by
    rw [hinv.dirty_written hbn rfl, hsettled.dirty]
    exact ⟨fun h => h.1, fun h => ⟨h, ne_of_home (hinv.log.wf.home c h) hnot⟩⟩

theorem stage_writeLog {tail : Nat} {c : Blockno} (hstage : StageInv s (.writeLog tail))
    (hbn : (s.buf b).blockno = some (logStart + tail + 1))
    (hcur : s.lh[tail]? = some c) (hdata : (s.buf b).data = s.view c) :
    StageInv (s.write b (logStart + tail + 1)) (.writeLog (tail + 1)) := by
  obtain ⟨hsettled, hsnap, hsnapHist, hlogged⟩ := hstage
  have hnot := not_home_log hinv.log.wf hcur
  refine ⟨hinv.settled_write hsettled hbn hnot (log_ne_start tail).symm, hsnap, hsnapHist, fun j c' hj hc' => ?_⟩
  by_cases hjt : j = tail
  · subst hjt
    have hc'' : s.lh[j]? = some c' := hc'
    rw [hcur] at hc''
    cases hc''
    rw [write_disk_self]
    exact hdata
  · rw [write_disk_of_ne (log_ne_log hjt)]
    exact hlogged j c' (by omega) hc'

theorem stage_install {tail : Nat} (hstage : StageInv s (.install tail))
    (hbn : (s.buf b).blockno = some bn) (hcur : s.lh[tail]? = some bn)
    (hdata : (s.buf b).data = s.view bn) : StageInv (s.write b bn) (.install (tail + 1)) := by
  have hredo : Redo s s.lh tail := hstage
  have hhome : Home bn := hredo.wf.home bn (List.mem_of_getElem? hcur)
  have hdrop : s.lh.drop tail = bn :: s.lh.drop (tail + 1) := by
    obtain ⟨hlt, rfl⟩ := List.getElem?_eq_some_iff.mp hcur
    exact List.drop_eq_getElem_cons hlt
  refine ⟨hredo.wf, ?_, fun j c hj => ?_, hredo.view, fun c hc hnot => ?_, fun c hc => ?_⟩
  · rw [write_disk_of_ne (ne_of_home hhome not_home_header).symm]
    exact hredo.header
  · rw [write_disk_of_ne (ne_of_home hhome (not_home_log hredo.wf hj)).symm]
    exact hredo.logged j c hj
  · by_cases hcb : c = bn
    · rw [hcb, write_disk_self, hdata]
      exact hredo.view bn hhome
    · rw [write_disk_of_ne hcb]
      refine hredo.home c hc fun hmem => ?_
      rw [hdrop] at hmem
      exact hnot ((List.mem_cons.mp hmem).resolve_left hcb)
  · obtain ⟨hdirty, hne⟩ := (hinv.dirty_written hbn rfl c).mp hc
    have hmem := hredo.dirty c hdirty
    rw [hdrop] at hmem
    exact (List.mem_cons.mp hmem).resolve_left hne

theorem stage_cleared (hstage : StageInv s .cleared) (hbn : (s.buf b).blockno = some logStart)
    (hdata : (s.buf b).data 0 = 0) : StageInv (s.write b logStart) .done := by
  obtain ⟨hlh, A, hredo⟩ := hstage
  have hnil : A.drop A.length = [] := List.drop_length
  refine ⟨⟨?_, fun c hc => ?_, fun c hc _ => hredo.view c hc, fun c => ?_⟩, hlh⟩
  · rw [write_disk_self]
    exact hdata
  · rw [write_disk_of_ne (ne_of_home hc not_home_header)]
    exact hredo.home c hc (by rw [hnil]; exact List.not_mem_nil)
  · have hlh' : (s.write b logStart).lh = [] := hlh
    rw [hlh']
    refine ⟨fun hc => ?_, nofun⟩
    have hmem := hredo.dirty c ((hinv.dirty_written hbn rfl c).mp hc).1
    rw [hnil] at hmem
    exact hmem

theorem stage_commit (hstage : StageInv s (.writeLog s.lh.length))
    (hbn : (s.buf b).blockno = some logStart) (hdata : decode (s.buf b).data = s.lh) :
    StageInv { s.write b logStart with committed := s.snap, commitHist := s.snapHist } (.install 0) := by
  obtain ⟨hsettled, hsnap, hsnapHist, hlogged⟩ := hstage
  refine ⟨hinv.log.wf, ?_, fun j c hj => ?_, fun c hc => (hsnap c hc).symm, fun c hc hnot => ?_,
    fun c hc => ?_⟩
  · change decode ((s.write b logStart).disk logStart) = s.lh
    rw [write_disk_self]
    exact hdata
  · change (s.write b logStart).disk (logStart + j + 1) = s.view c
    rw [write_disk_of_ne (log_ne_start j)]
    exact hlogged j c (List.getElem?_eq_some_iff.mp hj).1 hj
  · change (s.write b logStart).disk c = s.snap c
    rw [write_disk_of_ne (ne_of_home hc not_home_header), hsettled.home c hc, hsnap c hc]
    exact (hsettled.view c hc hnot).symm
  · exact (hsettled.dirty c).mp ((hinv.dirty_written hbn rfl c).mp hc).1

theorem write {ph : Phase} {boot : Bool} {stage stage' : Stage}
    (hheld : (T p).held b = some (bn, ph)) (hlocked : ph.Locked)
    (hrole : (T p).role = .excl boot stage) (hwritten : (T p).written b = .excl boot stage')
    (hnot : ¬ (bn = logStart ∧ 0 < (s.buf b).data 0)) (hstage : StageInv (s.write b bn) stage')
    (hexec : State.exec p (.bwrite b) s = some ((), s')) :
    Inv s' (update T p (logNext (.bwrite b) (T p) ())) := by
  rw [hinv.exec_bwrite hheld hlocked, diskWrite_of_not hnot] at hexec
  cases hexec
  have hexcl : (T p).Exclusive := ⟨boot, stage, hrole⟩
  have hnext : (logNext (.bwrite b) (T p) ()).role = .excl boot stage' := hwritten
  obtain ⟨hready, hcommitting, -⟩ := hinv.log.stage p boot stage hrole
  refine ⟨?_, ?_, ?_⟩
  · have hheld' : (logNext (.bwrite b) (T p) ()).held = update (T p).held b (some (bn, .filled)) :=
      congrArg Local.held (setPhase_eq hheld)
    rw [held_update hheld']
    exact hinv.bufInv_written hheld hlocked
  · exact .of_excl (hinv.log.others hexcl) hnext hinv.log.wf
      (hinv.log.outstanding_eq_zero hexcl) (fun k hk => hinv.log.len p k hexcl hk)
      (fun i c hc => hinv.log.cur p i c hexcl hc) hready hcommitting hstage
  · refine hinv.hist.same rfl rfl rfl rfl ?_
    rw [hnext, hrole]
    exact ⟨nofun, nofun⟩

theorem write_commit {tail : Nat} (hheld : (T p).held b = some (logStart, .header))
    (hrole : (T p).role = .excl false (.writeLog tail)) (hlen : (T p).len = some tail)
    (hpos : 0 < tail) (hexec : State.exec p (.bwrite b) s = some ((), s')) :
    Inv s' (update T p (logNext (.bwrite b) (T p) ())) := by
  have hexcl : (T p).Exclusive := ⟨false, _, hrole⟩
  have hlh : s.lh.length = tail := hinv.log.len p tail hexcl hlen
  have hdata : decode (s.buf b).data = s.lh := hinv.buf.own p b _ hheld
  have hn : 0 < (s.buf b).data 0 := by
    rw [← decode_length (s.buf b).data, hdata, hlh]
    exact hpos
  rw [hinv.exec_bwrite hheld trivial, diskWrite_head hn] at hexec
  cases hexec
  have hnext : (logNext (.bwrite b) (T p) ()).role = .excl false (.install 0) := by
    refine written_head hrole ?_
    rw [hheld]
    rfl
  obtain ⟨hready, hcommitting, hstage⟩ := hinv.log.stage p false _ hrole
  subst hlh
  refine ⟨?_, ?_, ?_⟩
  · have hheld' : (logNext (.bwrite b) (T p) ()).held = update (T p).held b (some (logStart, .filled)) :=
      congrArg Local.held (setPhase_eq hheld)
    rw [held_update hheld']
    exact hinv.bufInv_written hheld trivial
  · exact .of_excl (hinv.log.others hexcl) hnext hinv.log.wf
      (hinv.log.outstanding_eq_zero hexcl) (fun k hk => hinv.log.len p k hexcl hk)
      (fun i c hc => hinv.log.cur p i c hexcl hc) hready hcommitting
      (hinv.stage_commit hstage (hinv.buf.blockno p b _ hheld) hdata)
  · obtain ⟨-, hsnap, hsnapHist, -⟩ := hstage
    have hout : ∀ q, (T q).role ≠ .op := fun q hq => by
      by_cases hqp : q = p
      · rw [hqp, hrole] at hq
        cases hq
      · rw [(hinv.log.others hexcl q hqp).1] at hq
        cases hq
    refine ⟨fun c hc => ?_, ?_, fun q => ?_, fun q => ?_⟩
    · change s.snap c = replay s.initial s.snapHist c
      rw [hsnapHist]
      exact hsnap c hc
    · change s.snapHist <+: s.hist
      rw [hsnapHist]
    · change Log.inOp q s.snapHist = false
      rw [hsnapHist, ← Bool.not_eq_true]
      exact fun hin => hout q ((hinv.hist.inOp q).mp hin)
    · refine (hinv.hist.inOp q).trans ?_
      by_cases hqp : q = p
      · rw [hqp, update_self, hnext, hrole]
        exact ⟨nofun, nofun⟩
      · rw [update_of_ne hqp]

theorem bwrite (hpre : logPre (.bwrite b) (T p)) (hexec : State.exec p (.bwrite b) s = some ((), s')) :
    Inv s' (update T p (logNext (.bwrite b) (T p) ())) := by
  obtain ⟨boot, tail, c, hrole, hcur, hheld⟩ | ⟨tail, hrole, hlen, hpos, hheld⟩ |
    ⟨boot, tail, c, hrole, hcur, hheld⟩ | ⟨boot, hrole, hheld⟩ := hpre
  · have hlh := hinv.log.cur p tail c ⟨boot, _, hrole⟩ hcur
    refine hinv.write hheld trivial hrole (written_block hrole ?_) (fun h => log_ne_start tail h.1)
      (hinv.stage_writeLog (hinv.log.stage p boot _ hrole).2.2 (hinv.buf.blockno p b _ hheld) hlh
        (hinv.buf.own p b _ hheld)) hexec
    rw [hheld]
    exact fun hstart => log_ne_start tail (Option.some.inj hstart)
  · exact hinv.write_commit hheld hrole hlen hpos hexec
  · have hlh := hinv.log.cur p tail c ⟨boot, _, hrole⟩ hcur
    refine hinv.write hheld trivial hrole (written_install hrole) (fun h => ?_)
      (hinv.stage_install (hinv.log.stage p boot _ hrole).2.2 (hinv.buf.blockno p b _ hheld) hlh
        (hinv.buf.own p b _ hheld)) hexec
    exact ne_of_home (hinv.log.wf.home c (List.mem_of_getElem? hlh)) not_home_header h.1
  · have hstage := (hinv.log.stage p boot _ hrole).2.2
    have hdata : decode (s.buf b).data = [] := by
      rw [← hstage.1]
      exact hinv.buf.own p b _ hheld
    have hzero : (s.buf b).data 0 = 0 := by
      rw [← decode_length (s.buf b).data, hdata]
      rfl
    exact hinv.write hheld trivial hrole (written_cleared hrole) (by omega)
      (hinv.stage_cleared hstage (hinv.buf.blockno p b _ hheld) hzero) hexec

end

end Inv

/-! ### Steps that leave the buffers alone -/

variable {l : Local}

theorem held_same (hl : l.held = (T p).held) : (fun q => (update T p l q).held) = fun q => (T q).held := by
  funext q
  by_cases hq : q = p
  · rw [hq, update_self, hl]
  · rw [update_of_ne hq]

theorem Local.Free.held_eq (hfree : l.Free) : Local.idle.held = l.held := by
  funext b
  exact (hfree b).symm

theorem LogInv.no_excl (hinv : LogInv s T) (hop : (T p).role = .op) (q : Fin n) : ¬ (T q).Exclusive := by
  intro hq
  by_cases hqp : p = q
  · obtain ⟨boot, stage, hrole⟩ := hq
    rw [← hqp, hop] at hrole
    cases hrole
  · have hout := hinv.alone q p hq hqp
    rw [hop] at hout
    cases hout

theorem opens_of_op (hop : l.role = .op) : l.opens = 1 := if_pos hop

theorem opens_of_ne (hop : l.role ≠ .op) : l.opens = 0 := if_neg hop

theorem HistInv.record {e : Event n} (hinv : HistInv s T)
    (hinitial : s'.initial = s.initial) (hhist : s'.hist = s.hist ++ [e])
    (hcommitted : s'.committed = s.committed) (hcommitHist : s'.commitHist = s.commitHist)
    (hproc : e.proc = p) (hrole : e.isEnd = false ↔ l.role = .op) : HistInv s' (update T p l) where
  committed := by
    rw [hcommitted, hinitial, hcommitHist]
    exact hinv.committed
  before := by
    rw [hhist, hcommitHist]
    exact hinv.before.trans (List.prefix_append ..)
  ended := by
    rw [hcommitHist]
    exact hinv.ended
  inOp q := by
    rw [hhist, inOp_concat, hproc]
    by_cases hq : q = p
    · rw [hq, if_pos rfl, update_self, Bool.not_eq_true']
      exact hrole
    · rw [if_neg (Ne.symm hq), update_of_ne hq]
      exact hinv.inOp q

namespace Inv

section

variable (hinv : Inv s T)
include hinv

theorem normal (hop : (T p).role = .op) : s.ready = true ∧ s.committing = false ∧ Settled s :=
  hinv.log.normal (hinv.log.no_excl hop)

theorem cacheView_eq (hsettled : Settled s) (hfree : ∀ q, (T q).Free) (hbn : Home bn) :
    s.cacheView bn = s.view bn := by
  have hclean : bn ∉ s.lh → s.disk bn = s.view bn := fun hnot =>
    (hsettled.home bn hbn).trans (hsettled.view bn hbn hnot).symm
  unfold State.cacheView
  cases hfind : (List.finRange nbuf).find? fun b => (s.buf b).blockno = some bn ∧ (s.buf b).valid with
  | some b =>
    obtain ⟨hblockno, hvalid⟩ : (s.buf b).blockno = some bn ∧ (s.buf b).valid = true := by
      simpa using List.find?_some hfind
    have hcur := hinv.buf.clean b bn hvalid hblockno fun q x hx => by
      rw [hfree q b] at hx
      cases hx
    unfold Current at hcur
    change (s.buf b).data = s.view bn
    by_cases hd : (s.buf b).dirty = true
    · rw [hcur, if_pos hd]
    · rw [hcur, if_neg hd]
      refine hclean fun hmem => ?_
      obtain ⟨c, hc, hcd⟩ := (hsettled.dirty bn).mpr hmem
      rw [hinv.buf.uniq c b bn hc hblockno] at hcd
      exact hd hcd
  | none =>
    change s.disk bn = s.view bn
    refine hclean fun hmem => ?_
    obtain ⟨c, hc, hcd⟩ := (hsettled.dirty bn).mpr hmem
    have hnone := List.find?_eq_none.mp hfind c (List.mem_finRange c)
    exact hnone (by simp [hc, hinv.buf.dirty c hcd])

theorem beginOp (hpre : logPre .beginOp (T p)) (hready : s.ready = true)
    (hexec : State.exec p .beginOp s = some ((), s')) :
    Inv s' (update T p (logNext .beginOp (T p) ())) := by
  have hout : (T p).role = .out := hpre
  simp only [State.exec] at hexec
  split at hexec
  · rename_i hroom
    cases hexec
    have hnone : ∀ q, ¬ (T q).Exclusive := fun q hq => by
      obtain ⟨boot, stage, hrole⟩ := hq
      obtain ⟨hready', hcommitting', -⟩ := hinv.log.stage q boot stage hrole
      rw [hready] at hready'
      rw [hroom.1] at hcommitting'
      cases boot with
      | false => cases hcommitting'
      | true => cases hready'
    obtain ⟨-, hcommitting, hsettled⟩ := hinv.log.normal hnone
    have hview : State.view { s.record (.beginOp p) with outstanding := s.outstanding + 1 } = s.view :=
      replay_concat ..
    refine ⟨?_, ?_, ?_⟩
    · rw [hview, held_same (by rfl)]
      exact hinv.buf
    · refine .of_normal (fun q _ => hnone q) (fun q _ => hinv.log.free q) ?_ (by rintro ⟨⟩) hinv.log.wf
        ?_ hready hcommitting (hsettled.same ⟨rfl, rfl, hview, rfl, fun _ => .rfl⟩)
      · rintro ⟨boot, stage, hrole⟩
        cases hrole
      · have hsum := sum_update_add Local.opens T p (logNext .beginOp (T p) ())
        rw [opens_of_ne (l := T p) (by rw [hout]; rintro ⟨⟩), opens_of_op (by rfl),
          ← hinv.log.outstanding] at hsum
        exact hsum.symm
    · exact hinv.hist.record rfl rfl rfl rfl rfl ⟨fun _ => rfl, fun _ => rfl⟩
  · cases hexec

theorem others_out (hop : (T p).role = .op) (hlast : s.outstanding - 1 = 0) (q : Fin n)
    (hq : q ≠ p) : (T q).role = .out ∧ (T q).Free := by
  have hle := add_le_sum (fun r => (T r).opens) hq
  rw [← hinv.log.outstanding, opens_of_op hop] at hle
  have hzero : (T q).opens = 0 := by omega
  have hout : (T q).role = .out := by
    cases hrole : (T q).role with
    | out => rfl
    | op =>
      rw [opens_of_op hrole] at hzero
      cases hzero
    | excl boot stage => exact absurd ⟨boot, stage, hrole⟩ (hinv.log.no_excl hop q)
  exact ⟨hout, hinv.log.free q hout⟩

theorem endOp {r : Bool} (hpre : logPre .endOp (T p)) (hexec : State.exec p .endOp s = some (r, s')) :
    Inv s' (update T p (logNext .endOp (T p) r)) := by
  obtain ⟨hop, hfree⟩ := hpre
  obtain ⟨hready, hcommitting, hsettled⟩ := hinv.normal hop
  have hsum := sum_update_add Local.opens T p .idle
  rw [opens_of_op hop, opens_of_ne (l := .idle) (by rintro ⟨⟩), ← hinv.log.outstanding] at hsum
  have hview : replay s.initial (s.hist ++ [.endOp p]) = s.view := replay_concat ..
  simp only [State.exec, State.endOp, hcommitting, Bool.false_eq_true, if_false] at hexec
  by_cases hlast : s.outstanding - 1 = 0
  · rw [if_pos hlast] at hexec
    cases hexec
    have hothers := hinv.others_out hop hlast
    have hall : ∀ q, (T q).Free := fun q => by
      by_cases hq : q = p
      · rw [hq]
        exact hfree
      · exact (hothers q hq).2
    refine ⟨?_, ?_, ?_⟩
    · rw [held_same (l := logNext .endOp (T p) true) hfree.held_eq]
      change BufInv s.buf s.lru s.disk (replay s.initial (s.hist ++ [.endOp p])) s.lh _
      rw [hview]
      exact hinv.buf
    · have hrole : (logNext .endOp (T p) true).role = .excl false (.writeLog 0) := rfl
      refine .of_excl hothers hrole hinv.log.wf hlast (by rintro _ ⟨⟩) (by rintro _ _ ⟨⟩) hready rfl
        ⟨hsettled.same ⟨rfl, rfl, hview, rfl, fun _ => Iff.rfl⟩, fun c hc => ?_, rfl,
          fun j c hj => absurd hj (Nat.not_lt_zero j)⟩
      refine (hinv.cacheView_eq hsettled hall hc).trans ?_
      exact (congrFun hview c).symm
    · exact hinv.hist.record rfl rfl rfl rfl rfl ⟨by rintro ⟨⟩, by rintro ⟨⟩⟩
  · rw [if_neg hlast] at hexec
    cases hexec
    refine ⟨?_, ?_, ?_⟩
    · rw [held_same (l := logNext .endOp (T p) false) hfree.held_eq]
      change BufInv s.buf s.lru s.disk (replay s.initial (s.hist ++ [.endOp p])) s.lh _
      rw [hview]
      exact hinv.buf
    · refine .of_normal (fun q _ => hinv.log.no_excl hop q) (fun q _ => hinv.log.free q) ?_
        (fun _ _ => rfl) hinv.log.wf ?_ hready hcommitting
        (hsettled.same ⟨rfl, rfl, hview, rfl, fun _ => .rfl⟩)
      · rintro ⟨boot, stage, hrole⟩
        cases hrole
      · change s.outstanding - 1 = ∑ q, (update T p .idle q).opens
        omega
    · exact hinv.hist.record rfl rfl rfl rfl rfl ⟨by rintro ⟨⟩, by rintro ⟨⟩⟩

theorem leave (hexcl : (T p).Exclusive) (hfree : (T p).Free) (hsame : SameLog s s')
    (hbuf : s'.buf = s.buf) (hlru : s'.lru = s.lru)
    (houtstanding : s'.outstanding = s.outstanding) (hready : s'.ready = true)
    (hcommitting : s'.committing = false) (hsettled : Settled s)
    (hhist : HistInv s' (update T p .idle)) : Inv s' (update T p .idle) where
  buf := by
    rw [held_same hfree.held_eq, hbuf, hlru, hsame.disk, hsame.view, hsame.lh]
    exact hinv.buf
  log := by
    have hothers := hinv.log.others hexcl
    refine .of_normal (fun q hq => ?_) (fun q _ => hinv.log.free q) ?_ (fun _ _ => rfl)
      (by rw [hsame.lh]; exact hinv.log.wf) ?_ hready hcommitting (hsettled.same hsame)
    · rintro ⟨boot, stage, hrole⟩
      rw [(hothers q hq).1] at hrole
      cases hrole
    · rintro ⟨boot, stage, hrole⟩
      cases hrole
    · rw [houtstanding, hinv.log.outstanding_eq_zero hexcl]
      refine (Finset.sum_eq_zero fun q _ => opens_of_ne ?_).symm
      by_cases hq : q = p
      · rw [hq, update_self]
        exact nofun
      · rw [update_of_ne hq, (hothers q hq).1]
        exact nofun
  hist := hhist

theorem endCommit (hpre : logPre .endCommit (T p)) :
    Inv { s with committing := false } (update T p .idle) := by
  obtain ⟨hfree, hcases⟩ := hpre
  obtain ⟨stage, hrole, hsettled⟩ : ∃ stage, (T p).role = .excl false stage ∧
      (StageInv s stage → Settled s) := by
    obtain hrole | ⟨hrole, -⟩ := hcases
    · exact ⟨_, hrole, fun h => h.1⟩
    · exact ⟨_, hrole, fun h => h.1⟩
  obtain ⟨hready, -, hstage⟩ := hinv.log.stage p false stage hrole
  refine hinv.leave ⟨false, stage, hrole⟩ hfree ⟨rfl, rfl, rfl, rfl, fun _ => .rfl⟩ rfl rfl rfl
    hready rfl (hsettled hstage) (hinv.hist.same rfl rfl rfl rfl ?_)
  rw [hrole]
  exact ⟨nofun, nofun⟩

theorem initDone (hpre : logPre .initDone (T p)) : Inv { s with ready := true } (update T p .idle) := by
  obtain ⟨hrole, hfree⟩ := hpre
  obtain ⟨-, hcommitting, hstage⟩ := hinv.log.stage p true _ hrole
  refine hinv.leave ⟨true, _, hrole⟩ hfree ⟨rfl, rfl, rfl, rfl, fun _ => .rfl⟩ rfl rfl rfl rfl
    hcommitting hstage.1 (hinv.hist.same rfl rfl rfl rfl ?_)
  rw [hrole]
  exact ⟨nofun, nofun⟩

theorem advance {l : Local} {boot : Bool} {stage stage' : Stage} {lh : List Blockno}
    (hrole : (T p).role = .excl boot stage) (hrole' : l.role = .excl boot stage')
    (hheld : l.held = (T p).held) (hno : lh = s.lh ∨ NoCopies fun q => (T q).held) (hwf : Wf lh)
    (hlen : ∀ k, l.len = some k → lh.length = k) (hcur : ∀ i bn, l.cur = some (i, bn) → lh[i]? = some bn)
    (hstage : StageInv { s with lh := lh } stage') : Inv { s with lh := lh } (update T p l) where
  buf := by
    rw [held_same hheld]
    cases hno with
    | inl hsame =>
      rw [hsame]
      exact hinv.buf
    | inr hno => exact hinv.buf.header hno
  log := by
    have hexcl : (T p).Exclusive := ⟨boot, stage, hrole⟩
    obtain ⟨hready, hcommitting, -⟩ := hinv.log.stage p boot stage hrole
    exact .of_excl (hinv.log.others hexcl) hrole' hwf (hinv.log.outstanding_eq_zero hexcl) hlen
      hcur hready hcommitting hstage
  hist := by
    refine hinv.hist.same rfl rfl rfl rfl ?_
    rw [hrole, hrole']
    exact ⟨nofun, nofun⟩

theorem lhN (hpre : logPre .lhN (T p)) : logRes .lhN (T p) s.lh.length ∧
      Inv s (update T p { T p with len := some s.lh.length }) := by
  obtain ⟨boot, stage, hrole⟩ := hpre
  refine ⟨⟨hinv.log.wf.length, fun k hk => hinv.log.len p k ⟨boot, stage, hrole⟩ hk⟩, ?_⟩
  exact hinv.advance hrole hrole rfl (.inl rfl) hinv.log.wf (fun k hk => Option.some.inj hk)
    (fun i c hc => hinv.log.cur p i c ⟨boot, stage, hrole⟩ hc) (hinv.log.stage p boot stage hrole).2.2

theorem lhBlock {i : Nat} (hpre : logPre (.lhBlock i) (T p)) : Home (s.lh.getD i 0) ∧
      Inv s (update T p { T p with cur := some (i, s.lh.getD i 0) }) := by
  obtain ⟨⟨boot, stage, hrole⟩, k, hk, hi⟩ := hpre
  have hlt : i < s.lh.length := by
    rw [hinv.log.len p k ⟨boot, stage, hrole⟩ hk]
    exact hi
  have hget : s.lh[i]? = some (s.lh.getD i 0) := by
    rw [List.getD_eq_getElem?_getD, List.getElem?_eq_getElem hlt, Option.getD_some]
  refine ⟨hinv.log.wf.home _ (List.mem_of_getElem? hget), ?_⟩
  refine hinv.advance hrole hrole rfl (.inl rfl) hinv.log.wf
    (fun k hk => hinv.log.len p k ⟨boot, stage, hrole⟩ hk) (fun j c hc => ?_)
    (hinv.log.stage p boot stage hrole).2.2
  cases hc
  exact hget

theorem lhClear (hpre : logPre .lhClear (T p)) :
    Inv { s with lh := [] } (update T p (logNext .lhClear (T p) ())) := by
  obtain ⟨hfree, boot, tail, hrole, hlen⟩ := hpre
  have hexcl : (T p).Exclusive := ⟨boot, _, hrole⟩
  have hredo : Redo s s.lh tail := (hinv.log.stage p boot _ hrole).2.2
  have hlh := hinv.log.len p tail hexcl hlen
  subst hlh
  have hrole' : (logNext .lhClear (T p) ()).role = .excl boot .cleared := by
    simp only [logNext]
    rw [hrole]
  refine hinv.advance hrole hrole' hfree.held_eq
    (.inr fun q c x (hx : (T q).held c = some x) => ?_) wf_nil (by rintro _ ⟨⟩) (by rintro _ _ ⟨⟩)
    ⟨rfl, s.lh, hredo.wf, hredo.header, hredo.logged, hredo.view, hredo.home, hredo.dirty⟩
  have hall : (T q).held c = none := by
    by_cases hq : q = p
    · rw [hq]
      exact hfree c
    · exact (hinv.log.others hexcl q hq).2 c
  rw [hall] at hx
  cases hx

theorem getHead (hpre : logPre (.getHead b) (T p)) : Inv { s with lh := decode (s.buf b).data }
      (update T p (logNext (.getHead b) (T p) ())) := by
  obtain ⟨hrole, hheld, honly⟩ := hpre
  have hexcl : (T p).Exclusive := ⟨true, _, hrole⟩
  obtain ⟨A, hredo⟩ := (hinv.log.stage p true _ hrole).2.2
  have hdata : decode (s.buf b).data = A := by
    rw [hinv.data_of_clean hheld fun hdirty => ?_]
    · exact hredo.header
    · exact not_home_header (hredo.wf.home _ (List.mem_of_mem_drop (hredo.dirty _ hdirty)))
  rw [hdata]
  have hrole' : (logNext (.getHead b) (T p) ()).role = .excl true (.install 0) := rfl
  refine hinv.advance hrole hrole' rfl (.inr fun q c x (hx : (T q).held c = some x) => ?_) hredo.wf
    nofun nofun ⟨hredo.wf, hredo.header, hredo.logged, hredo.view, hredo.home, hredo.dirty⟩
  by_cases hq : q = p
  · subst hq
    by_cases hc : c = b
    · rw [hc, hheld] at hx
      cases hx
      exact ⟨nofun, nofun⟩
    · rw [honly c hc] at hx
      cases hx
  · rw [(hinv.log.others hexcl q hq).2 c] at hx
    cases hx

end

theorem wf_append {lh : List Blockno} (hwf : Wf lh) (hbn : Home bn)
    (hroom : bn ∈ lh ∨ lh.length < logSize - 1) : Wf (if bn ∈ lh then lh else lh ++ [bn]) := by
  by_cases hmem : bn ∈ lh
  · rw [if_pos hmem]
    exact hwf
  rw [if_neg hmem]
  refine ⟨List.nodup_append.mpr ⟨hwf.nodup, List.nodup_singleton _, ?_⟩, fun c hc => ?_, ?_⟩
  · rintro c hc _ hd rfl
    rw [List.mem_singleton] at hd
    exact hmem (hd ▸ hc)
  · obtain hc | hc := List.mem_append.mp hc
    · exact hwf.home c hc
    · rw [List.mem_singleton.mp hc]
      exact hbn
  · have hlt := hroom.resolve_left hmem
    rw [List.length_append, List.length_singleton]
    omega

theorem mem_append_iff {lh : List Blockno} {c : Blockno} :
    c ∈ (if bn ∈ lh then lh else lh ++ [bn]) ↔ c ∈ lh ∨ c = bn := by
  by_cases hmem : bn ∈ lh
  · rw [if_pos hmem]
    refine ⟨.inl, fun h => h.elim id ?_⟩
    rintro rfl
    exact hmem
  · rw [if_neg hmem, List.mem_append, List.mem_singleton]

theorem exec_logAppend (hbn : (s.buf b).blockno = some bn) :
    State.exec p (.logAppend b) s = some ((), State.record
      { s with
        buf := update s.buf b { s.buf b with dirty := true }
        lh := if bn ∈ s.lh then s.lh else s.lh ++ [bn] }
      (.logWrite p bn (s.buf b).data)) := by
  have happend : s.logAppend p b = some (State.record
      { s with
        buf := update s.buf b { s.buf b with dirty := true }
        lh := if bn ∈ s.lh then s.lh else s.lh ++ [bn] }
      (.logWrite p bn (s.buf b).data)) := by
    unfold State.logAppend
    split
    · rename_i hnone
      rw [hbn] at hnone
      cases hnone
    · rename_i bn' hsome
      rw [hbn] at hsome
      cases hsome
      rfl
  simp only [State.exec, happend, Option.map_some]

theorem dirty_logAppend {x : Buf n} (hbuf : s'.buf = update s.buf b x)
    (hbn : (s.buf b).blockno = some bn) (hblockno : x.blockno = some bn) (hdirty : x.dirty = true)
    (c : Blockno) : s'.Dirty c ↔ s.Dirty c ∨ c = bn := by
  unfold State.Dirty
  rw [hbuf]
  constructor
  · rintro ⟨b', hb', hd⟩
    by_cases hne : b' = b
    · rw [hne, update_self, hblockno] at hb'
      exact .inr (Option.some.inj hb').symm
    · rw [update_of_ne hne] at hb' hd
      exact .inl ⟨b', hb', hd⟩
  · rintro (⟨b', hb', hd⟩ | rfl)
    · by_cases hne : b' = b
      · refine ⟨b, ?_⟩
        rw [hne, hbn] at hb'
        rw [update_self, hblockno]
        exact ⟨hb', hdirty⟩
      · refine ⟨b', ?_⟩
        rw [update_of_ne hne]
        exact ⟨hb', hd⟩
    · refine ⟨b, ?_⟩
      rw [update_self]
      exact ⟨hblockno, hdirty⟩

theorem logAppend (hinv : Inv s T) (hpre : logPre (.logAppend b) (T p))
    (hno : NoCopies fun q => (T q).held) (hroom : Machine.RoomFor s b)
    (hexec : State.exec p (.logAppend b) s = some ((), s')) :
    Inv s' (update T p (logNext (.logAppend b) (T p) ())) := by
  obtain ⟨hop, bn, hhome, hheld⟩ := hpre
  have hbn := hinv.buf.blockno p b _ hheld
  have hvalid := hinv.buf.filled p b _ hheld trivial
  obtain ⟨hready, hcommitting, hsettled⟩ := hinv.normal hop
  rw [exec_logAppend hbn] at hexec
  cases hexec
  have hview : replay s.initial (s.hist ++ [.logWrite p bn (s.buf b).data])
      = update s.view bn (s.buf b).data := replay_concat ..
  have hview_ne : ∀ c, c ≠ bn → replay s.initial (s.hist ++ [.logWrite p bn (s.buf b).data]) c
      = s.view c := fun c hc => by
    rw [hview, update_of_ne hc]
  have hnext : logNext (.logAppend b) (T p) () = (T p).setHeld b (some (bn, .filled)) :=
    setPhase_eq hheld
  rw [hnext]
  refine ⟨?_, ?_, ?_⟩
  · rw [held_update rfl]
    refine hinv.buf.touch hheld (.inl trivial) rfl rfl (hinv.lock_iff hheld trivial trivial)
      (fun _ => hvalid) (fun _ => hvalid) trivial (fun _ _ => ?_) (fun _ _ => rfl) hview_ne (.inr hno)
    exact ((congrFun hview bn).trans (update_self ..)).symm
  · refine .of_normal (fun q _ => hinv.log.no_excl hop q) (fun q _ => hinv.log.free q)
      (hinv.log.no_excl hop p) (fun hout => ?_) (wf_append hinv.log.wf hhome (hroom bn hbn)) ?_ hready
      hcommitting ⟨hsettled.empty, hsettled.home, fun c hc hnot => ?_, fun c => ?_⟩
    · exact absurd (hop.symm.trans hout) nofun
    · have hsum := sum_update_add Local.opens T p ((T p).setHeld b (some (bn, .filled)))
      rw [opens_of_op hop, opens_of_op (l := (T p).setHeld b (some (bn, .filled))) hop,
        ← hinv.log.outstanding] at hsum
      exact (Nat.add_right_cancel hsum).symm
    · have hnot' : ¬ (c ∈ s.lh ∨ c = bn) := fun h => hnot (mem_append_iff.mpr h)
      exact (hview_ne c fun h => hnot' (.inr h)).trans (hsettled.view c hc fun h => hnot' (.inl h))
    · refine (dirty_logAppend (x := { s.buf b with dirty := true }) rfl hbn hbn rfl c).trans ?_
      rw [hsettled.dirty c]
      exact mem_append_iff.symm
  · exact hinv.hist.record rfl rfl rfl rfl rfl ⟨fun _ => hop, fun _ => rfl⟩

end Inv

end Xv6.Log
