import Xv6.Log.BufInv

/-!
# The disk, the log and the cache agree

`view` is what the cache should hold, by the history. Outside a commit the disk holds the last
committed contents and every logged block is pinned in the cache; from the write of the header to
its removal the log on disk holds what the home blocks lack.
-/

namespace Xv6.Log

open Function (update update_self update_of_ne)

variable {n : Nat}

/-! ### Histories -/

namespace Event

def proc : Event n → Fin n
  | .beginOp p => p
  | .logWrite p _ _ => p
  | .endOp p => p

def apply (disk : Disk) : Event n → Disk
  | .logWrite _ bn d => update disk bn d
  | _ => disk

def isEnd : Event n → Bool
  | .endOp _ => true
  | _ => false

end Event

def replay (initial : Disk) (h : List (Event n)) : Disk := h.foldl Event.apply initial

theorem replay_concat (initial : Disk) (h : List (Event n)) (e : Event n) :
    replay initial (h ++ [e]) = e.apply (replay initial h) := by
  unfold replay
  rw [List.foldl_append]
  rfl

def inOp (p : Fin n) (h : List (Event n)) : Bool :=
  ((h.filter fun e => e.proc = p).getLast?.map fun e => !e.isEnd).getD false

theorem inOp_concat (p : Fin n) (h : List (Event n)) (e : Event n) :
    inOp p (h ++ [e]) = if e.proc = p then !e.isEnd else inOp p h := by
  unfold inOp
  rw [List.filter_append]
  by_cases hp : e.proc = p
  · rw [if_pos hp, List.filter_cons_of_pos (by simpa using hp), List.filter_nil, List.getLast?_concat]
    rfl
  · rw [if_neg hp, List.filter_cons_of_neg (by simpa using hp), List.filter_nil, List.append_nil]

/-- The operations of a history are all complete: every event is followed by the `end_op` of its
process. -/
def Ended (h : List (Event n)) : Prop :=
  ∀ h₁ e h₂, h = h₁ ++ e :: h₂ → .endOp e.proc ∈ e :: h₂

theorem ended_of_not_inOp {h : List (Event n)} (hout : ∀ p, inOp p h = false) : Ended h := by
  rintro h₁ e h₂ rfl
  have hlast := hout e.proc
  unfold inOp at hlast
  have hfilter : (h₁ ++ e :: h₂).filter (fun e' => e'.proc = e.proc)
      = h₁.filter (fun e' => e'.proc = e.proc) ++ e :: h₂.filter fun e' => e'.proc = e.proc := by
    rw [List.filter_append, List.filter_cons_of_pos (by simp)]
  rw [hfilter, List.getLast?_append_of_ne_nil _ (by simp)] at hlast
  obtain ⟨e', he'⟩ : ∃ e', (e :: h₂.filter fun e' => e'.proc = e.proc).getLast? = some e' :=
    Option.isSome_iff_exists.mp (by simp [List.getLast?_isSome])
  rw [he'] at hlast
  have hmem : e' ∈ e :: h₂.filter fun e' => e'.proc = e.proc := List.mem_of_getLast? he'
  have hproc : e'.proc = e.proc ∧ e' ∈ e :: h₂ := by
    cases hmem with
    | head => exact ⟨rfl, List.mem_cons_self⟩
    | tail _ htail =>
      have hh := List.mem_filter.mp htail
      exact ⟨by simpa using hh.2, List.mem_cons_of_mem _ hh.1⟩
  cases e' with
  | endOp q =>
    rw [← hproc.1]
    exact hproc.2
  | beginOp q | logWrite q bn d => cases hlast

/-! ### The header block -/

theorem decode_length (d : Data) : (decode d).length = d 0 := by
  unfold decode
  rw [List.length_map, List.length_range]

theorem decode_encode (d : Data) (lh : List Blockno) : decode (encode d lh) = lh := by
  refine List.ext_getElem ?_ fun i h₁ h₂ => ?_
  · rw [decode_length]
    rfl
  · have hget : (decode (encode d lh))[i] = encode d lh (i + 1) := by
      simp only [decode, List.getElem_map, List.getElem_range]
    rw [hget]
    change lh.getD i _ = _
    rw [List.getD_eq_getElem?_getD, List.getElem?_eq_getElem h₂, Option.getD_some]

/-! ### The invariant -/

namespace State

def view (s : State n) : Disk := replay s.initial s.hist

def Dirty (s : State n) (bn : Blockno) : Prop :=
  ∃ b, (s.buf b).blockno = some bn ∧ (s.buf b).dirty = true

end State

structure Wf (A : List Blockno) : Prop where
  nodup : A.Nodup
  home : ∀ bn ∈ A, Home bn
  length : A.length < logSize

theorem wf_nil : Wf [] := ⟨List.nodup_nil, nofun, by decide⟩

structure Settled (s : State n) : Prop where
  empty : s.disk logStart 0 = 0
  home : ∀ bn, Home bn → s.disk bn = s.committed bn
  view : ∀ bn, Home bn → bn ∉ s.lh → s.view bn = s.committed bn
  dirty : ∀ bn, s.Dirty bn ↔ bn ∈ s.lh

/-- The header on disk lists `A`, and the blocks after the first `tail` may still have to be copied
home. -/
structure Redo (s : State n) (A : List Blockno) (tail : Nat) : Prop where
  wf : Wf A
  header : decode (s.disk logStart) = A
  logged : ∀ (j : Nat) bn, A[j]? = some bn → s.disk (logStart + j + 1) = s.view bn
  view : ∀ bn, Home bn → s.view bn = s.committed bn
  home : ∀ bn, Home bn → bn ∉ A.drop tail → s.disk bn = s.committed bn
  dirty : ∀ bn, s.Dirty bn → bn ∈ A.drop tail

def StageInv (s : State n) : Stage → Prop
  | .boot => ∃ A, Redo s A 0
  | .writeLog tail => Settled s ∧ (∀ bn, Home bn → s.snap bn = s.view bn) ∧ s.snapHist = s.hist ∧
      ∀ (j : Nat) bn, j < tail → s.lh[j]? = some bn → s.disk (logStart + j + 1) = s.view bn
  | .install tail => Redo s s.lh tail
  | .cleared => s.lh = [] ∧ ∃ A, Redo s A A.length
  | .done => Settled s ∧ s.lh = []

def Local.opens (l : Local) : Nat := if l.role = .op then 1 else 0

structure LogInv (s : State n) (T : Fin n → Local) : Prop where
  wf : Wf s.lh
  free : ∀ p, (T p).role = .out → (T p).Free
  outstanding : s.outstanding = ∑ p, (T p).opens
  len : ∀ p k, (T p).Exclusive → (T p).len = some k → s.lh.length = k
  cur : ∀ p i bn, (T p).Exclusive → (T p).cur = some (i, bn) → s.lh[i]? = some bn
  alone : ∀ p q, (T p).Exclusive → q ≠ p → (T q).role = .out
  normal : (∀ p, ¬ (T p).Exclusive) → s.ready = true ∧ s.committing = false ∧ Settled s
  stage : ∀ p boot stage, (T p).role = .excl boot stage →
    s.ready = !boot ∧ s.committing = !boot ∧ StageInv s stage

structure HistInv (s : State n) (T : Fin n → Local) : Prop where
  committed : ∀ bn, Home bn → s.committed bn = replay s.initial s.commitHist bn
  before : s.commitHist <+: s.hist
  ended : ∀ p, inOp p s.commitHist = false
  inOp : ∀ p, inOp p s.hist = true ↔ (T p).role = .op

/-- The buffers agree with the log, and the log with the disk. -/
structure Inv (s : State n) (T : Fin n → Local) : Prop where
  buf : BufInv s.buf s.lru s.disk s.view s.lh fun q => (T q).held
  log : LogInv s T
  hist : HistInv s T

/-! ### What the invariant depends on -/

section Frame

variable {s s' : State n} {T T' : Fin n → Local} {p : Fin n} {b : BufId} {bn : Blockno}

structure SameLog (s s' : State n) : Prop where
  disk : s'.disk = s.disk
  lh : s'.lh = s.lh
  view : s'.view = s.view
  committed : s'.committed = s.committed
  dirty : ∀ bn, s'.Dirty bn ↔ s.Dirty bn

theorem Settled.same (hsettled : Settled s) (hsame : SameLog s s') : Settled s' where
  empty := by
    rw [hsame.disk]
    exact hsettled.empty
  home := by
    rw [hsame.disk, hsame.committed]
    exact hsettled.home
  view := by
    rw [hsame.lh, hsame.view, hsame.committed]
    exact hsettled.view
  dirty bn := by
    rw [hsame.dirty, hsame.lh]
    exact hsettled.dirty bn

theorem Redo.same {A : List Blockno} {tail : Nat} (hredo : Redo s A tail) (hsame : SameLog s s') :
    Redo s' A tail where
  wf := hredo.wf
  header := by
    rw [hsame.disk]
    exact hredo.header
  logged := by
    rw [hsame.disk, hsame.view]
    exact hredo.logged
  view := by
    rw [hsame.view, hsame.committed]
    exact hredo.view
  home := by
    rw [hsame.disk, hsame.committed]
    exact hredo.home
  dirty bn hbn := hredo.dirty bn ((hsame.dirty bn).mp hbn)

theorem StageInv.same {stage : Stage} (hstage : StageInv s stage) (hsame : SameLog s s')
    (hsnap : s'.snap = s.snap) (hsnapHist : s'.snapHist = s.snapHist) (hhist : s'.hist = s.hist) :
    StageInv s' stage := by
  cases stage with
  | boot =>
    obtain ⟨A, hredo⟩ := hstage
    exact ⟨A, hredo.same hsame⟩
  | writeLog tail =>
    obtain ⟨hsettled, hsnapEq, hhistEq, hlogged⟩ := hstage
    refine ⟨hsettled.same hsame, ?_, ?_, ?_⟩
    · rw [hsnap, hsame.view]
      exact hsnapEq
    · rw [hsnapHist, hhist]
      exact hhistEq
    · rw [hsame.lh, hsame.disk, hsame.view]
      exact hlogged
  | install tail =>
    have hredo := Redo.same hstage hsame
    rw [← hsame.lh] at hredo
    exact hredo
  | cleared =>
    obtain ⟨hlh, A, hredo⟩ := hstage
    exact ⟨hsame.lh.trans hlh, A, hredo.same hsame⟩
  | done => exact ⟨hstage.1.same hsame, hsame.lh.trans hstage.2⟩

theorem dirty_setBuf {x : Buf n} (hdirty : x.dirty = (s.buf b).dirty)
    (hblockno : x.dirty = true → x.blockno = (s.buf b).blockno) : (s.setBuf b x).Dirty bn ↔ s.Dirty bn := by
  have hbuf : (s.setBuf b x).buf = update s.buf b x := rfl
  unfold State.Dirty
  refine exists_congr fun c => ?_
  rw [hbuf]
  by_cases hc : c = b
  · subst hc
    rw [update_self]
    constructor
    · rintro ⟨hbn, hd⟩
      exact ⟨(hblockno hd).symm.trans hbn, hdirty.symm.trans hd⟩
    · rintro ⟨hbn, hd⟩
      have hd' := hdirty.trans hd
      exact ⟨(hblockno hd').trans hbn, hd'⟩
  · rw [update_of_ne hc]

variable {l : Local} {y : Option (Blockno × Phase)} {buf : BufId → Buf n} {lru : List BufId}

theorem held_update (hl : l.held = update (T p).held b y) :
    (fun q => (update T p l q).held) = setHold (fun q => (T q).held) p b y := by
  funext q
  unfold setHold
  by_cases hq : q = p
  · rw [hq, update_self, update_self, hl]
  · rw [update_of_ne hq, update_of_ne hq]

theorem LogInv.setHeld
    (hinv : LogInv s T) (hdirty : ∀ bn, State.Dirty { s with buf := buf, lru := lru } bn ↔ s.Dirty bn)
    (hrole : (T p).role ≠ .out) :
    LogInv { s with buf := buf, lru := lru } (update T p ((T p).setHeld b y)) := by
  have hsame : SameLog s { s with buf := buf, lru := lru } := ⟨rfl, rfl, rfl, rfl, hdirty⟩
  have hT : ∀ q, (update T p ((T p).setHeld b y) q).role = (T q).role ∧
      (update T p ((T p).setHeld b y) q).len = (T q).len ∧
      (update T p ((T p).setHeld b y) q).cur = (T q).cur := fun q => by
    by_cases hq : q = p
    · rw [hq, update_self]
      exact ⟨rfl, rfl, rfl⟩
    · rw [update_of_ne hq]
      exact ⟨rfl, rfl, rfl⟩
  have hexcl : ∀ q, (update T p ((T p).setHeld b y) q).Exclusive ↔ (T q).Exclusive :=
    fun q => by
      unfold Local.Exclusive
      rw [(hT q).1]
  refine ⟨hinv.wf, fun q hq => ?_, ?_, fun q k hq hk => ?_, fun q i bn hq hi => ?_,
    fun q r hq hr => ?_, fun hnone => ?_, fun q boot stage hq => ?_⟩
  · rw [(hT q).1] at hq
    have hne : q ≠ p := by
      rintro rfl
      exact hrole hq
    rw [update_of_ne hne]
    exact hinv.free q hq
  · refine hinv.outstanding.trans (Finset.sum_congr rfl fun q _ => ?_)
    unfold Local.opens
    rw [(hT q).1]
  · rw [(hT q).2.1] at hk
    exact hinv.len q k ((hexcl q).mp hq) hk
  · rw [(hT q).2.2] at hi
    exact hinv.cur q i bn ((hexcl q).mp hq) hi
  · rw [(hT r).1]
    exact hinv.alone q r ((hexcl q).mp hq) hr
  · obtain ⟨hready, hcommitting, hsettled⟩ := hinv.normal fun q hq => hnone q ((hexcl q).mpr hq)
    exact ⟨hready, hcommitting, hsettled.same hsame⟩
  · rw [(hT q).1] at hq
    obtain ⟨hready, hcommitting, hstage⟩ := hinv.stage q boot stage hq
    exact ⟨hready, hcommitting, hstage.same hsame rfl rfl rfl⟩

theorem HistInv.setHeld (hinv : HistInv s T) :
    HistInv { s with buf := buf, lru := lru } (update T p ((T p).setHeld b y)) where
  committed := hinv.committed
  before := hinv.before
  ended := hinv.ended
  inOp q := by
    by_cases hq : q = p
    · subst hq
      rw [update_self]
      exact hinv.inOp q
    · rw [update_of_ne hq]
      exact hinv.inOp q

theorem Inv.setHeld (hinv : Inv s T)
    (hbuf : BufInv buf lru s.disk s.view s.lh (setHold (fun q => (T q).held) p b y))
    (hdirty : ∀ bn, State.Dirty { s with buf := buf, lru := lru } bn ↔ s.Dirty bn)
    (hrole : (T p).role ≠ .out) :
    Inv { s with buf := buf, lru := lru } (update T p ((T p).setHeld b y)) where
  buf := by
    rw [held_update rfl]
    exact hbuf
  log := hinv.log.setHeld hdirty hrole
  hist := hinv.hist.setHeld

theorem LogInv.role_ne_out (hinv : LogInv s T) {x : Blockno × Phase} (hheld : (T p).held b = some x) :
    (T p).role ≠ .out := by
  intro hout
  rw [hinv.free p hout b] at hheld
  cases hheld

theorem LogInv.others (hinv : LogInv s T) (hexcl : (T p).Exclusive) (q : Fin n) (hq : q ≠ p) :
    (T q).role = .out ∧ (T q).Free :=
  have hout := hinv.alone p q hexcl hq
  ⟨hout, hinv.free q hout⟩

theorem LogInv.outstanding_eq_zero (hinv : LogInv s T) (hexcl : (T p).Exclusive) : s.outstanding = 0 := by
  refine hinv.outstanding.trans (Finset.sum_eq_zero fun q _ => if_neg fun hop => ?_)
  by_cases hq : q = p
  · obtain ⟨boot, stage, hrole⟩ := hexcl
    rw [hq, hrole] at hop
    cases hop
  · rw [(hinv.others hexcl q hq).1] at hop
    cases hop

theorem LogInv.of_excl {boot : Bool} {stage : Stage}
    (hothers : ∀ q, q ≠ p → (T q).role = .out ∧ (T q).Free) (hrole : l.role = .excl boot stage)
    (hwf : Wf s.lh) (houtstanding : s.outstanding = 0) (hlen : ∀ k, l.len = some k → s.lh.length = k)
    (hcur : ∀ i bn, l.cur = some (i, bn) → s.lh[i]? = some bn) (hready : s.ready = !boot)
    (hcommitting : s.committing = !boot) (hstage : StageInv s stage) : LogInv s (update T p l) := by
  have hself : update T p l p = l := update_self ..
  have hne : ∀ q, q ≠ p → update T p l q = T q := fun q hq => update_of_ne hq ..
  have honly : ∀ q, (update T p l q).Exclusive → q = p := fun q hq => by
    by_contra hqp
    obtain ⟨boot', stage', hrole'⟩ := hq
    rw [hne q hqp, (hothers q hqp).1] at hrole'
    cases hrole'
  refine ⟨hwf, fun q hq => ?_, houtstanding.trans ?_, fun q k hq hk => ?_, fun q i bn hq hi => ?_,
    fun q r hq hr => ?_, fun hnone => ?_, fun q boot' stage' hq => ?_⟩
  · by_cases hqp : q = p
    · rw [hqp, hself, hrole] at hq
      cases hq
    · rw [hne q hqp]
      exact (hothers q hqp).2
  · refine (Finset.sum_eq_zero fun q _ => if_neg fun hop => ?_).symm
    by_cases hqp : q = p
    · rw [hqp, hself, hrole] at hop
      cases hop
    · rw [hne q hqp, (hothers q hqp).1] at hop
      cases hop
  · rw [honly q hq, hself] at hk
    exact hlen k hk
  · rw [honly q hq, hself] at hi
    exact hcur i bn hi
  · rw [honly q hq] at hr
    rw [hne r hr]
    exact (hothers r hr).1
  · refine absurd ⟨boot, stage, ?_⟩ (hnone p)
    rw [hself]
    exact hrole
  · obtain rfl := honly q ⟨boot', stage', hq⟩
    rw [hself, hrole] at hq
    cases hq
    exact ⟨hready, hcommitting, hstage⟩

theorem LogInv.of_normal (hnone : ∀ q, q ≠ p → ¬ (T q).Exclusive)
    (hfree : ∀ q, q ≠ p → (T q).role = .out → (T q).Free) (hl : ¬ l.Exclusive)
    (hlfree : l.role = .out → l.Free) (hwf : Wf s.lh)
    (houtstanding : s.outstanding = ∑ q, (update T p l q).opens) (hready : s.ready = true)
    (hcommitting : s.committing = false) (hsettled : Settled s) : LogInv s (update T p l) := by
  have hnone' : ∀ q, ¬ (update T p l q).Exclusive := fun q => by
    by_cases hq : q = p
    · rw [hq, update_self]
      exact hl
    · rw [update_of_ne hq]
      exact hnone q hq
  refine ⟨hwf, fun q hq => ?_, houtstanding, fun q _ hq => absurd hq (hnone' q),
    fun q _ _ hq => absurd hq (hnone' q), fun q _ hq => absurd hq (hnone' q),
    fun _ => ⟨hready, hcommitting, hsettled⟩, fun q boot stage hq => absurd ⟨boot, stage, hq⟩ (hnone' q)⟩
  by_cases hqp : q = p
  · rw [hqp, update_self] at hq ⊢
    exact hlfree hq
  · rw [update_of_ne hqp] at hq ⊢
    exact hfree q hqp hq

theorem HistInv.same (hinv : HistInv s T) (hinitial : s'.initial = s.initial)
    (hhist : s'.hist = s.hist) (hcommitted : s'.committed = s.committed)
    (hcommitHist : s'.commitHist = s.commitHist) (hrole : l.role = .op ↔ (T p).role = .op) :
    HistInv s' (update T p l) where
  committed := by
    rw [hcommitted, hinitial, hcommitHist]
    exact hinv.committed
  before := by
    rw [hhist, hcommitHist]
    exact hinv.before
  ended := by
    rw [hcommitHist]
    exact hinv.ended
  inOp q := by
    rw [hhist]
    by_cases hq : q = p
    · rw [hq, update_self]
      exact (hinv.inOp p).trans hrole.symm
    · rw [update_of_ne hq]
      exact hinv.inOp q

end Frame

end Xv6.Log
