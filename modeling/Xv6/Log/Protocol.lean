import Xv6.Log.Model

/-!
# What a process knows while it uses the log

The local state of a process: the buffers it holds, and how far it is if it is the one that commits
or recovers. `logProtocol` says what each step needs and changes of it; the programs obey it.
-/

namespace Xv6.Log

inductive Stage where
  /-- The header on disk has not been read. -/
  | boot
  /-- The first `tail` blocks are in the log. -/
  | writeLog (tail : Nat)
  /-- The transaction is committed, and its first `tail` blocks are at home. -/
  | install (tail : Nat)
  /-- `log.lh.n` is zero, but not on disk. -/
  | cleared
  | done
  deriving DecidableEq

inductive Role where
  /-- Outside `begin_op` and `end_op`. -/
  | out
  | op
  /-- In `commit`, or in `recover_from_log` after a boot. -/
  | excl (boot : Bool) (stage : Stage)
  deriving DecidableEq

inductive Phase where
  | ref
  | locked
  | filled
  /-- Changed by an operation, before its `log_write`. -/
  | changed
  /-- Overwritten with the current contents of a block. -/
  | copied (bn : Blockno)
  /-- Overwritten with `log.lh`. -/
  | header
  deriving DecidableEq

namespace Phase

def Locked : Phase → Prop
  | .ref => False
  | _ => True

def Filled : Phase → Prop
  | .ref | .locked => False
  | _ => True

def Own : Phase → Prop
  | .changed | .copied _ | .header => True
  | _ => False

end Phase

abbrev Holds := BufId → Option (Blockno × Phase)

structure Local where
  role : Role
  held : Holds
  /-- The value of `log.lh.n`, and of one `log.lh.block[i]`, if they have been read. -/
  len : Option Nat
  cur : Option (Nat × Blockno)

namespace Local

def setHeld (l : Local) (b : BufId) (x : Option (Blockno × Phase)) : Local :=
  { l with held := Function.update l.held b x }

def setPhase (l : Local) (b : BufId) (ph : Phase) : Local :=
  l.setHeld b ((l.held b).map fun x => (x.1, ph))

def Free (l : Local) : Prop := ∀ b, l.held b = none

def idle : Local := { role := .out, held := fun _ => none, len := none, cur := none }

def written (l : Local) (b : BufId) : Role :=
  match l.role with
  | .excl boot (.writeLog tail) =>
    if (l.held b).map Prod.fst = some logStart then .excl boot (.install 0)
    else .excl boot (.writeLog (tail + 1))
  | .excl boot (.install tail) => .excl boot (.install (tail + 1))
  | .excl boot .cleared => .excl boot .done
  | r => r

def Exclusive (l : Local) : Prop := ∃ boot stage, l.role = .excl boot stage

end Local

def logPre : Op → Local → Prop
  | .bget bn, l => l.role ≠ .out ∧ ∀ b x, l.held b = some x → x.1 ≠ bn
  | .acquiresleep b, l => ∃ bn, l.held b = some (bn, .ref)
  | .fill b, l => ∃ bn, l.held b = some (bn, .locked)
  | .modify b _, l => l.role = .op ∧ ∃ bn, l.held b = some (bn, .filled)
  | .memmove dst src, l => ∃ boot tail bn, l.cur = some (tail, bn) ∧
      ((l.role = .excl boot (.writeLog tail) ∧ l.held dst = some (logStart + tail + 1, .filled) ∧
          l.held src = some (bn, .filled)) ∨
        (l.role = .excl boot (.install tail) ∧ l.held dst = some (bn, .filled) ∧
          l.held src = some (logStart + tail + 1, .filled)))
  | .bwrite b, l =>
    (∃ boot tail bn, l.role = .excl boot (.writeLog tail) ∧ l.cur = some (tail, bn) ∧
        l.held b = some (logStart + tail + 1, .copied bn)) ∨
      (∃ tail, l.role = .excl false (.writeLog tail) ∧ l.len = some tail ∧ 0 < tail ∧
        l.held b = some (logStart, .header)) ∨
      (∃ boot tail bn, l.role = .excl boot (.install tail) ∧ l.cur = some (tail, bn) ∧
        l.held b = some (bn, .copied bn)) ∨
      ∃ boot, l.role = .excl boot .cleared ∧ l.held b = some (logStart, .header)
  | .releasesleep b, l => ∃ bn, l.held b = some (bn, .filled)
  | .bput b, l => ∃ bn, l.held b = some (bn, .ref)
  | .beginOp, l => l.role = .out
  | .endOp, l => l.role = .op ∧ l.Free
  | .endCommit, l => l.Free ∧ (l.role = .excl false .done ∨
      (l.role = .excl false (.writeLog 0) ∧ l.len = some 0))
  | .logCheck, l => l.role = .op
  | .logAppend b, l => l.role = .op ∧ ∃ bn, Home bn ∧ l.held b = some (bn, .changed)
  | .lhN, l => l.Exclusive
  | .lhBlock i, l => l.Exclusive ∧ ∃ k, l.len = some k ∧ i < k
  | .lhClear, l => l.Free ∧ ∃ boot tail, l.role = .excl boot (.install tail) ∧ l.len = some tail
  | .setHead b, l => l.Exclusive ∧ l.held b = some (logStart, .filled)
  | .getHead b, l => l.role = .excl true .boot ∧ l.held b = some (logStart, .filled) ∧
      ∀ c, c ≠ b → l.held c = none
  | .initDone, l => l.role = .excl true .done ∧ l.Free

def logRes : (o : Op) → Local → o.Res → Prop
  | .bget _, l, b => l.held b = none
  | .lhN, l, k => k < logSize ∧ ∀ k', l.len = some k' → k = k'
  | .lhBlock _, _, bn => Home bn
  | _, _, _ => True

def logNext : (o : Op) → Local → o.Res → Local
  | .bget bn, l, b => l.setHeld b (some (bn, .ref))
  | .acquiresleep b, l, _ => l.setPhase b .locked
  | .fill b, l, _ => l.setPhase b .filled
  | .modify b _, l, _ => l.setPhase b .changed
  | .memmove dst _, l, _ => l.setPhase dst (.copied ((l.cur.map Prod.snd).getD 0))
  | .bwrite b, l, _ => { l.setPhase b .filled with role := l.written b }
  | .releasesleep b, l, _ => l.setPhase b .ref
  | .bput b, l, _ => l.setHeld b none
  | .beginOp, l, _ => { l with role := .op }
  | .endOp, _, r => if r then { Local.idle with role := .excl false (.writeLog 0) } else .idle
  | .endCommit, _, _ => .idle
  | .logCheck, l, _ => l
  | .logAppend b, l, _ => l.setPhase b .filled
  | .lhN, l, k => { l with len := some k }
  | .lhBlock i, l, bn => { l with cur := some (i, bn) }
  | .lhClear, l, _ => { Local.idle with role := match l.role with
      | .excl boot _ => .excl boot .cleared
      | r => r }
  | .setHead b, l, _ => l.setPhase b .header
  | .getHead _, l, _ => { l with role := .excl true (.install 0), len := none, cur := none }
  | .initDone, _, _ => .idle

def logProtocol : Protocol Op Op.Res Local := ⟨logPre, logRes, logNext⟩

/-! ### The programs obey it -/

namespace Local

variable {l : Local} {b c : BufId} {bn : Blockno} {ph ph' : Phase} {x : Option (Blockno × Phase)}

theorem setHeld_self : (l.setHeld b x).held b = x := Function.update_self ..

theorem setHeld_of_ne (hc : c ≠ b) : (l.setHeld b x).held c = l.held c :=
  Function.update_of_ne hc ..

theorem setPhase_eq (hb : l.held b = some (bn, ph)) : l.setPhase b ph' = l.setHeld b (some (bn, ph')) := by
  unfold setPhase
  rw [hb]
  rfl

theorem setHeld_setHeld {y : Option (Blockno × Phase)} : (l.setHeld b x).setHeld b y = l.setHeld b y := by
  unfold setHeld
  simp only [Function.update_idem]

theorem setHeld_eq_self (hb : l.held b = x) : l.setHeld b x = l := by
  unfold setHeld
  rw [← hb, Function.update_eq_self]

end Local

open Local

section Obeys

variable {α : Type} {l : Local} {b : BufId} {bn : Blockno}

theorem atomic_bind_obeys (o : Op) {f : o.Res → LogM α} {post : α → Local → Prop} (hpre : logPre o l)
    (hf : ∀ r, logRes o l r → (f r).Obeys logProtocol (logNext o l r) post) :
    (atomic o >>= f).Obeys logProtocol l post :=
  .perform_bind hpre hf

theorem atomic_obeys (o : Op) {post : o.Res → Local → Prop} (hpre : logPre o l)
    (hpost : ∀ r, logRes o l r → post r (logNext o l r)) : (atomic o).Obeys logProtocol l post :=
  .perform hpre hpost

theorem bget_obeys (hrole : l.role ≠ .out) (hfresh : ∀ b x, l.held b = some x → x.1 ≠ bn) :
    (bget bn).Obeys logProtocol l fun b l' =>
      l.held b = none ∧ l' = l.setHeld b (some (bn, .locked)) := by
  refine atomic_bind_obeys (.bget bn) ⟨hrole, hfresh⟩ fun b hb => ?_
  refine atomic_bind_obeys (.acquiresleep b) ⟨bn, setHeld_self⟩ fun _ _ => ⟨hb, ?_⟩
  exact (setPhase_eq setHeld_self).trans setHeld_setHeld

theorem bread_obeys (hrole : l.role ≠ .out) (hfresh : ∀ b x, l.held b = some x → x.1 ≠ bn) :
    (bread bn).Obeys logProtocol l fun b l' =>
      l.held b = none ∧ l' = l.setHeld b (some (bn, .filled)) := by
  refine .bind (bget_obeys hrole hfresh) ?_
  rintro b _ ⟨hb, rfl⟩
  refine atomic_bind_obeys (.fill b) ⟨bn, setHeld_self⟩ fun _ _ => ⟨hb, ?_⟩
  exact (setPhase_eq setHeld_self).trans setHeld_setHeld

theorem brelse_obeys (hb : l.held b = some (bn, .filled)) :
    (brelse b).Obeys logProtocol l fun _ l' => l' = l.setHeld b none := by
  refine atomic_bind_obeys (.releasesleep b) ⟨bn, hb⟩ fun _ _ => ?_
  have hnext : logNext (.releasesleep b) l () = l.setHeld b (some (bn, .ref)) := setPhase_eq hb
  rw [hnext]
  refine atomic_obeys (.bput b) ⟨bn, setHeld_self⟩ fun _ _ => ?_
  exact setHeld_setHeld

theorem FsOp.body_obeys (x : FsOp) (hout : x.Outside) (hrole : l.role = .op) (hfree : l.Free) :
    x.body.Obeys logProtocol l fun _ l' => l' = l := by
  induction x with
  | done => rfl
  | update bn f next ih =>
    refine .bind (bread_obeys (by rw [hrole]; exact nofun) fun c x hc => ?_) ?_
    · rw [hfree c] at hc
      cases hc
    rintro b _ ⟨hb, rfl⟩
    refine atomic_bind_obeys (.modify b f) ⟨hrole, bn, setHeld_self⟩ fun d _ => ?_
    have hnext : logNext (.modify b f) (l.setHeld b (some (bn, .filled))) d
        = l.setHeld b (some (bn, .changed)) :=
      (setPhase_eq setHeld_self).trans setHeld_setHeld
    rw [hnext]
    refine atomic_bind_obeys .logCheck hrole fun _ _ => ?_
    refine atomic_bind_obeys (.logAppend b) ⟨hrole, bn, hout.1, setHeld_self⟩ fun _ _ => ?_
    have hnext' : logNext (.logAppend b) (l.setHeld b (some (bn, .changed))) ()
        = l.setHeld b (some (bn, .filled)) :=
      (setPhase_eq setHeld_self).trans setHeld_setHeld
    change (brelse b >>= fun _ => (next d).body).Obeys logProtocol
      (logNext (.logAppend b) (l.setHeld b (some (bn, .changed))) ()) _
    rw [hnext']
    refine .bind (brelse_obeys setHeld_self) fun _ l' hl' => ?_
    obtain rfl : l' = l := by rw [hl', setHeld_setHeld, setHeld_eq_self hb]
    exact ih d (hout.2 d)

structure Local.At (l : Local) (boot : Bool) (stage : Stage) (k : Nat) : Prop where
  role : l.role = .excl boot stage
  free : l.Free
  len : l.len = some k
  lt : k < logSize

variable {boot : Bool} {stage : Stage} {k tail : Nat}

theorem Local.At.exclusive (hat : l.At boot stage k) : l.role ≠ .out := by
  rw [hat.role]
  exact nofun

theorem home_ne (htail : tail < k) (hk : k < logSize) (hbn : Home bn) : logStart + tail + 1 ≠ bn := by
  unfold Home at hbn
  omega

theorem copy_obeys {dst src : BufId}
    {bn₁ bn₂ : Blockno} (hcopy : logPre (.memmove dst src) l) (hcur : l.cur = some (tail, bn))
    (hdst : l.held dst = some (bn₁, .filled)) (hsrc : l.held src = some (bn₂, .filled))
    (hne : src ≠ dst) (honly : ∀ c, c ≠ dst → c ≠ src → l.held c = none)
    (hwrite : logPre (.bwrite dst) (l.setHeld dst (some (bn₁, .copied bn))))
    (hrole : (l.setHeld dst (some (bn₁, .copied bn))).written dst = .excl boot stage)
    (hlen : l.len = some k) (hk : k < logSize) :
    (do atomic (.memmove dst src)
        bwrite dst
        brelse src
        brelse dst : LogM Unit).Obeys logProtocol l fun _ l' => l'.At boot stage k := by
  refine atomic_bind_obeys (.memmove dst src) hcopy fun _ _ => ?_
  have hcopied : logNext (.memmove dst src) l () = l.setHeld dst (some (bn₁, .copied bn)) := by
    refine (setPhase_eq hdst).trans ?_
    rw [hcur]
    rfl
  rw [hcopied]
  refine atomic_bind_obeys (.bwrite dst) hwrite fun _ _ => ?_
  have hwritten : logNext (.bwrite dst) (l.setHeld dst (some (bn₁, .copied bn))) ()
      = { l with role := .excl boot stage } := by
    change { (l.setHeld dst (some (bn₁, .copied bn))).setPhase dst .filled with
      role := (l.setHeld dst (some (bn₁, .copied bn))).written dst } = _
    rw [hrole, setPhase_eq setHeld_self, setHeld_setHeld, setHeld_eq_self hdst]
  rw [hwritten]
  refine .bind (brelse_obeys hsrc) ?_
  rintro _ _ rfl
  have hdst' : (({ l with role := .excl boot stage } : Local).setHeld src none).held dst
      = some (bn₁, .filled) := (setHeld_of_ne hne.symm).trans hdst
  refine (brelse_obeys hdst').mono ?_
  rintro _ _ rfl
  refine ⟨rfl, fun c => ?_, hlen, hk⟩
  by_cases hcd : c = dst
  · rw [hcd, setHeld_self]
  rw [setHeld_of_ne hcd]
  by_cases hcs : c = src
  · rw [hcs, setHeld_self]
  rw [setHeld_of_ne hcs]
  exact honly c hcd hcs

theorem breads_obeys {f : BufId → BufId → LogM Unit}
    {post : Unit → Local → Prop} (hat : l.At boot stage k) (htail : tail < k)
    (hf : ∀ lbuf dbuf bn l', l'.role = .excl boot stage → l'.len = some k →
      l'.cur = some (tail, bn) → lbuf ≠ dbuf → l'.held lbuf = some (logStart + tail + 1, .filled) →
      l'.held dbuf = some (bn, .filled) → (∀ c, c ≠ lbuf → c ≠ dbuf → l'.held c = none) →
        (f lbuf dbuf).Obeys logProtocol l' post) :
    (do let lbuf ← bread (logStart + tail + 1)
        let bn ← atomic (.lhBlock tail)
        let dbuf ← bread bn
        f lbuf dbuf : LogM Unit).Obeys logProtocol l post := by
  have hfree := hat.free
  refine .bind (bread_obeys hat.exclusive fun c x hc => ?_) ?_
  · rw [hfree c] at hc
    cases hc
  rintro lbuf _ ⟨-, rfl⟩
  refine atomic_bind_obeys (.lhBlock tail) ⟨⟨boot, stage, hat.role⟩, k, hat.len, htail⟩ fun bn hbn => ?_
  refine .bind (bread_obeys hat.exclusive fun c x hc => ?_) ?_
  · by_cases hcl : c = lbuf
    · have hl : some (logStart + tail + 1, .filled) = some x := by
        rw [← hc, hcl]
        exact setHeld_self.symm
      cases hl
      exact home_ne htail hat.lt hbn
    · have hc' : l.held c = some x := (setHeld_of_ne hcl).symm.trans hc
      rw [hfree c] at hc'
      cases hc'
  rintro dbuf _ ⟨hd, rfl⟩
  have hne : lbuf ≠ dbuf := by
    rintro rfl
    have hl : (l.setHeld lbuf (some (logStart + tail + 1, .filled))).held lbuf = none := hd
    rw [setHeld_self] at hl
    cases hl
  refine hf lbuf dbuf bn _ hat.role hat.len rfl hne ?_ setHeld_self fun c hcl hcd => ?_
  · rw [setHeld_of_ne hne]
    exact setHeld_self
  · rw [setHeld_of_ne hcd]
    exact (setHeld_of_ne hcl).trans (hfree c)

theorem written_block (hrole : l.role = .excl boot (.writeLog tail))
    (hb : (l.held b).map Prod.fst ≠ some logStart) : l.written b = .excl boot (.writeLog (tail + 1)) := by
  unfold Local.written
  rw [hrole]
  exact if_neg hb

theorem written_head (hrole : l.role = .excl boot (.writeLog tail))
    (hb : (l.held b).map Prod.fst = some logStart) : l.written b = .excl boot (.install 0) := by
  unfold Local.written
  rw [hrole]
  exact if_pos hb

theorem written_install (hrole : l.role = .excl boot (.install tail)) :
    l.written b = .excl boot (.install (tail + 1)) := by
  unfold Local.written
  rw [hrole]

theorem written_cleared (hrole : l.role = .excl boot .cleared) : l.written b = .excl boot .done := by
  unfold Local.written
  rw [hrole]

theorem writeLogBlock_obeys (hat : l.At boot (.writeLog tail) k) (htail : tail < k) :
    (writeLogBlock tail).Obeys logProtocol l fun _ l' => l'.At boot (.writeLog (tail + 1)) k := by
  refine breads_obeys hat htail fun lbuf dbuf bn l' hrole hlen hcur hne hl hd honly => ?_
  refine copy_obeys ⟨boot, tail, bn, hcur, .inl ⟨hrole, hl, hd⟩⟩ hcur hl hd hne.symm honly
    (.inl ⟨boot, tail, bn, hrole, hcur, setHeld_self⟩) ?_ hlen hat.lt
  refine written_block hrole fun hstart => ?_
  rw [setHeld_self] at hstart
  have hstart' : logStart + tail + 1 = logStart := Option.some.inj hstart
  omega

theorem installBlock_obeys (hat : l.At boot (.install tail) k) (htail : tail < k) :
    (installBlock tail).Obeys logProtocol l fun _ l' => l'.At boot (.install (tail + 1)) k := by
  refine breads_obeys hat htail fun lbuf dbuf bn l' hrole hlen hcur hne hl hd honly => ?_
  exact copy_obeys ⟨boot, tail, bn, hcur, .inr ⟨hrole, hd, hl⟩⟩ hcur hd hl hne
    (fun c hcd hcl => honly c hcl hcd) (.inr (.inr (.inl ⟨boot, tail, bn, hrole, hcur, setHeld_self⟩)))
    (written_install hrole) hlen hat.lt

theorem forTail_obeys (stage : Nat → Stage) {body : Nat → LogM Unit}
    (hbody : ∀ tail l', l'.At boot (stage tail) k → tail < k →
      (body tail).Obeys logProtocol l' fun _ l'' => l''.At boot (stage (tail + 1)) k)
    (m tail : Nat) (hm : tail + m = k) (hat : l.At boot (stage tail) k) :
    (forTail body tail m).Obeys logProtocol l fun _ l' => l'.At boot (stage k) k := by
  induction m generalizing tail l with
  | zero =>
    obtain rfl : tail = k := hm
    exact hat
  | succ m ih =>
    refine .bind (hbody tail l hat (by omega)) fun _ l' hat' => ?_
    exact ih (tail + 1) (by omega) hat'

theorem installTrans_obeys (hrole : l.role = .excl boot (.install 0)) (hfree : l.Free) :
    installTrans.Obeys logProtocol l fun _ l' => ∃ k, l'.At boot (.install k) k := by
  refine atomic_bind_obeys .lhN ⟨boot, .install 0, hrole⟩ fun k hk => ?_
  have hloop := forTail_obeys .install (fun tail l' hat htail => installBlock_obeys hat htail) k 0
    (Nat.zero_add k) (l := { l with len := some k }) ⟨hrole, hfree, rfl, hk.1⟩
  exact hloop.mono fun _ _ hat => ⟨k, hat⟩

theorem writeLog_obeys (hat : l.At boot (.writeLog 0) k) :
    writeLog.Obeys logProtocol l fun _ l' => l'.At boot (.writeLog k) k := by
  refine atomic_bind_obeys .lhN ⟨boot, .writeLog 0, hat.role⟩ fun k' hk => ?_
  obtain rfl : k' = k := hk.2 k hat.len
  exact forTail_obeys .writeLog (fun tail l' hat htail => writeLogBlock_obeys hat htail) k' 0
    (Nat.zero_add k') (l := { l with len := some k' }) ⟨hat.role, hat.free, rfl, hat.lt⟩

theorem writeHead_obeys {stage' : Stage} (hrole : l.role = .excl boot stage) (hfree : l.Free)
    (hwrite : ∀ b, logPre (.bwrite b) (l.setHeld b (some (logStart, .header))) ∧
      (l.setHeld b (some (logStart, .header))).written b = .excl boot stage') :
    writeHead.Obeys logProtocol l fun _ l' => l'.role = .excl boot stage' ∧ l'.Free := by
  refine .bind (bread_obeys (by rw [hrole]; exact nofun) fun c x hc => ?_) ?_
  · rw [hfree c] at hc
    cases hc
  rintro b _ ⟨hb, rfl⟩
  refine atomic_bind_obeys (.setHead b) ⟨⟨boot, stage, hrole⟩, setHeld_self⟩ fun _ _ => ?_
  have hhead : logNext (.setHead b) (l.setHeld b (some (logStart, .filled))) ()
      = l.setHeld b (some (logStart, .header)) :=
    (setPhase_eq setHeld_self).trans setHeld_setHeld
  rw [hhead]
  refine atomic_bind_obeys (.bwrite b) (hwrite b).1 fun _ _ => ?_
  have hwritten : logNext (.bwrite b) (l.setHeld b (some (logStart, .header))) ()
      = { l with role := .excl boot stage' }.setHeld b (some (logStart, .filled)) := by
    change { (l.setHeld b (some (logStart, .header))).setPhase b .filled with
      role := (l.setHeld b (some (logStart, .header))).written b } = _
    rw [(hwrite b).2, setPhase_eq setHeld_self, setHeld_setHeld]
    rfl
  rw [hwritten]
  refine (brelse_obeys setHeld_self).mono ?_
  rintro _ _ rfl
  refine ⟨rfl, fun c => ?_⟩
  by_cases hc : c = b
  · rw [hc, setHeld_self]
  · exact (setHeld_of_ne hc).trans ((setHeld_of_ne hc).trans (hfree c))

theorem readHead_obeys (hrole : l.role = .excl true .boot) (hfree : l.Free) :
    readHead.Obeys logProtocol l fun _ l' => l'.role = .excl true (.install 0) ∧ l'.Free := by
  refine .bind (bread_obeys (by rw [hrole]; exact nofun) fun c x hc => ?_) ?_
  · rw [hfree c] at hc
    cases hc
  rintro b _ ⟨hb, rfl⟩
  refine atomic_bind_obeys (.getHead b)
    ⟨hrole, setHeld_self, fun c hc => (setHeld_of_ne hc).trans (hfree c)⟩ fun r _ => ?_
  have hheld : (logNext (.getHead b) (l.setHeld b (some (logStart, .filled))) r).held b
      = some (logStart, .filled) := setHeld_self
  refine (brelse_obeys hheld).mono ?_
  rintro _ _ rfl
  refine ⟨rfl, fun c => ?_⟩
  by_cases hc : c = b
  · rw [hc, setHeld_self]
  · exact (setHeld_of_ne hc).trans ((setHeld_of_ne hc).trans (hfree c))

theorem install_obeys (hrole : l.role = .excl boot (.install 0)) (hfree : l.Free) :
    (do installTrans
        atomic .lhClear
        writeHead : LogM Unit).Obeys logProtocol l
      fun _ l' => l'.role = .excl boot .done ∧ l'.Free := by
  refine Prog.Obeys.bind (installTrans_obeys hrole hfree) ?_
  rintro _ l₁ ⟨k, hat⟩
  refine atomic_bind_obeys .lhClear ⟨hat.free, boot, k, hat.role, hat.len⟩ fun _ _ => ?_
  have hcleared : logNext .lhClear l₁ () = { Local.idle with role := .excl boot .cleared } := by
    change { Local.idle with role := match l₁.role with
      | .excl boot _ => .excl boot .cleared
      | r => r } = _
    rw [hat.role]
  rw [hcleared]
  exact writeHead_obeys rfl (fun _ => rfl) fun b =>
    ⟨.inr (.inr (.inr ⟨boot, rfl, setHeld_self⟩)), written_cleared rfl⟩

theorem commit_obeys (hrole : l.role = .excl false (.writeLog 0)) (hfree : l.Free) :
    commit.Obeys logProtocol l fun _ l' => logPre .endCommit l' := by
  refine atomic_bind_obeys .lhN ⟨false, .writeLog 0, hrole⟩ fun k hk => ?_
  have hat : ({ l with len := some k } : Local).At false (.writeLog 0) k := ⟨hrole, hfree, rfl, hk.1⟩
  by_cases hpos : 0 < k
  · rw [if_pos hpos]
    refine .bind (writeLog_obeys hat) fun _ l₁ hat₁ => ?_
    refine .bind (writeHead_obeys hat₁.role hat₁.free fun b =>
      ⟨.inr (.inl ⟨k, hat₁.role, hat₁.len, hpos, setHeld_self⟩), written_head hat₁.role ?_⟩) ?_
    · rw [setHeld_self]
      rfl
    rintro _ l₂ ⟨hrole₂, hfree₂⟩
    exact (install_obeys hrole₂ hfree₂).mono fun _ l' hl' => ⟨hl'.2, .inl hl'.1⟩
  · rw [if_neg hpos]
    obtain rfl : k = 0 := Nat.eq_zero_of_not_pos hpos
    exact ⟨hfree, .inr ⟨hrole, rfl⟩⟩

theorem endOp_obeys (hrole : l.role = .op) (hfree : l.Free) :
    endOp.Obeys logProtocol l fun _ l' => l' = .idle := by
  refine atomic_bind_obeys .endOp ⟨hrole, hfree⟩ fun doCommit _ => ?_
  cases doCommit with
  | false => rfl
  | true =>
    refine .bind (commit_obeys rfl fun _ => rfl) fun _ l' hl' => ?_
    exact atomic_obeys .endCommit hl' fun _ _ => rfl

theorem FsOp.prog_obeys (x : FsOp) (hout : x.Outside) :
    x.prog.Obeys logProtocol .idle fun _ l' => l' = .idle := by
  refine atomic_bind_obeys .beginOp rfl fun _ _ => ?_
  refine .bind (x.body_obeys hout rfl fun _ => rfl) ?_
  rintro _ _ rfl
  exact endOp_obeys rfl fun _ => rfl

theorem initlog_obeys : initlog.Obeys logProtocol { Local.idle with role := .excl true .boot }
      fun _ l' => l' = .idle := by
  refine .bind (.bind (readHead_obeys rfl fun _ => rfl)
    fun _ l₁ hl₁ => install_obeys hl₁.1 hl₁.2) fun _ l₂ hl₂ => ?_
  exact atomic_obeys .initDone hl₂ fun _ _ => rfl

end Obeys

end Xv6.Log
