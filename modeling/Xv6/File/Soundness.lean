import Xv6.File.ProcSteps
import Mathlib.Algebra.BigOperators.Group.Finset.Sigma

/-!
# The accounts of open files

The system calls obey the protocol, so that the accounts hold in every interleaving of them; between
calls nothing is in hand, and they are the ones a reader of `file.c` expects.
-/

namespace Xv6.OpenFile

open Function (update update_self update_of_ne)

variable {l : Local} {f : FileId}

/-! ### Pieces of local states -/

namespace Local

theorem close_of_held (hheld : 0 < l.held f) : l.close f = (l.drop f).setRaw f false := by
  rw [close, if_pos hheld]

theorem held_hold (l : Local) (f : FileId) : (l.hold f).held f = l.held f + 1 := by
  simp [hold]

theorem drop_hold (l : Local) (f : FileId) : (l.hold f).drop f = l := by
  simp [hold, drop]

theorem setRaw_eq {b : Bool} (hraw : l.raw f = b) : l.setRaw f b = l := by
  subst hraw
  simp [setRaw]

def alloc (l : Local) (f : FileId) : Local := (l.hold f).setRaw f true

theorem held_alloc (l : Local) (f : FileId) : (l.alloc f).held f = l.held f + 1 := l.held_hold f

theorem raw_alloc (l : Local) (f : FileId) : (l.alloc f).raw f = true := by
  simp [alloc, setRaw]

theorem close_hold (hraw : l.raw f = false) : (l.hold f).close f = l := by
  rw [close_of_held (by rw [held_hold]; exact Nat.succ_pos _), drop_hold, setRaw_eq hraw]

theorem close_alloc (hraw : l.raw f = false) : (l.alloc f).close f = l := by
  rw [close_of_held (by rw [held_alloc]; exact Nat.succ_pos _)]
  have hdrop : ((l.alloc f).drop f).setRaw f false = ((l.hold f).drop f).setRaw f false := by
    simp [alloc, drop, setRaw, hold]
  rw [hdrop, drop_hold, setRaw_eq hraw]

theorem setRaw_alloc (hraw : l.raw f = false) : (l.alloc f).setRaw f false = l.hold f := by
  have hidem : (l.alloc f).setRaw f false = (l.hold f).setRaw f false := by
    simp [alloc, setRaw]
  exact hidem.trans (setRaw_eq hraw)

theorem ends_addEnd_pos (l : Local) (q : Page) (w : Bool) : 0 < (l.addEnd q w).ends q w := by
  have hone : oneEnd q w q w = 1 := if_pos ⟨rfl, rfl⟩
  rw [ends_addEnd, hone]
  exact Nat.succ_pos _

theorem dropEnd_addEnd (l : Local) (q : Page) (w : Bool) : (l.addEnd q w).dropEnd q w = l := by
  simp [addEnd, dropEnd, setEnd]

theorem dropEnd_addEnd_addEnd (l : Local) (q : Page) :
    ((l.addEnd q false).addEnd q true).dropEnd q false = l.addEnd q true := by
  have hcomm : (l.addEnd q false).addEnd q true = (l.addEnd q true).addEnd q false := by
    unfold addEnd setEnd
    simp only [update_self, Function.update_idem, update_of_ne Bool.false_ne_true.symm,
      update_of_ne Bool.false_ne_true, Function.update_comm Bool.false_ne_true]
  rw [hcomm, dropEnd_addEnd]

theorem alloc_comm {g : FileId} (hne : g ≠ f) : (l.alloc f).alloc g = (l.alloc g).alloc f := by
  simp [alloc, hold, setRaw, hne, Ne.symm hne, Function.update_comm hne]

end Local

/-! ### Closing a file -/

theorem obeys_pipeclose {q : Page} {w : Bool} (hpage : l.page = none) :
    (pipeclose q w).Obeys fileProtocol (l.addEnd q w) fun _ l' => l' = l := by
  refine .perform_bind ⟨hpage, l.ends_addEnd_pos q w⟩ ?_
  intro last _
  change Prog.Obeys _ _ (fileNext (.pipeclose q w) (l.addEnd q w) last) _
  simp only [fileNext, Local.dropEnd_addEnd]
  cases last with
  | true =>
    refine Prog.Obeys.perform rfl ?_
    intro _ _
    change { l with page := none } = l
    rw [← hpage]
  | false => exact rfl

theorem obeys_fileclose (hhas : l.Has f) (hpage : l.page = none) :
    (fileclose f).Obeys fileProtocol l fun _ l' => l' = l.close f := by
  have hsame := (l.sameElse_close f).1
  refine .perform_bind hhas ?_
  intro r _
  change Prog.Obeys _ _ (fileNext (.fileclose f) l r) _
  cases r with
  | none => exact rfl
  | some ff =>
    dsimp only [fileNext]
    split
    · exact obeys_pipeclose (hsame.page.trans hpage)
    · exact rfl

theorem obeys_close_hold (hraw : l.raw f = false) (hpage : l.page = none) :
    (fileclose f).Obeys fileProtocol (l.hold f) fun _ l' => l' = l := by
  have hpos : 0 < (l.hold f).held f := by
    rw [Local.held_hold]
    exact Nat.succ_pos _
  apply (obeys_fileclose (.inl hpos) hpage).mono
  intro _ l' hl'
  rw [hl', Local.close_hold hraw]

theorem obeys_close_alloc (hraw : l.raw f = false) (hpage : l.page = none) :
    (fileclose f).Obeys fileProtocol (l.alloc f) fun _ l' => l' = l := by
  have hpos : 0 < (l.alloc f).held f := by
    rw [Local.held_alloc]
    exact Nat.succ_pos _
  apply (obeys_fileclose (.inl hpos) hpage).mono
  intro _ l' hl'
  rw [hl', Local.close_alloc hraw]

def Local.Quiet (l : Local) : Prop := { l with known := none, cleared := 0 } = Local.idle

theorem obeys_returning {body : Kernel Int}
    (hbody : body.Obeys fileProtocol Local.idle fun _ l => l.Quiet) :
    (returning body).Obeys fileProtocol Local.idle fun _ l => l = Local.idle := by
  refine .bind hbody ?_
  intro v l hquiet
  exact ⟨hquiet, fun _ _ => rfl⟩

/-! ### The calls -/

theorem obeys_argfd (fd : Int) : (argfd fd).Obeys fileProtocol Local.idle fun r l =>
      match r with
      | none => l.Quiet
      | some (i, f) => l = { Local.idle with known := some (i, f) } := by
  unfold argfd
  split
  · refine .perform_bind trivial ?_
    intro r _
    cases r with
    | none | some f => exact rfl
  · exact rfl

theorem obeys_sysDup (fd : Int) : (sysDup fd).Obeys fileProtocol Local.idle fun _ l => l.Quiet := by
  refine .bind (obeys_argfd fd) ?_
  intro r l hr
  cases r with
  | none => exact hr
  | some x =>
    obtain ⟨i, f⟩ := x
    dsimp only at hr
    subst hr
    refine .perform_bind ⟨rfl, .inr ⟨rfl, i, rfl⟩⟩ ?_
    intro r hres
    cases r with
    | none => exact rfl
    | some fd' =>
      have hne : i ≠ fd' := hres i f rfl
      refine .perform_bind ⟨rfl, .inr ⟨i, fd', rfl, rfl, hne⟩⟩ ?_
      intro _ _
      exact rfl

theorem obeys_sysClose (fd : Int) : (sysClose fd).Obeys fileProtocol Local.idle fun _ l => l.Quiet := by
  refine .bind (obeys_argfd fd) ?_
  intro r l hr
  cases r with
  | none => exact hr
  | some x =>
    obtain ⟨i, f⟩ := x
    dsimp only at hr
    subst hr
    refine .perform_bind (.inr ⟨rfl, f, rfl⟩) ?_
    intro _ _
    change Prog.Obeys _ _ ({ Local.idle.clear i with known := none }.hold f) _
    refine .bind (obeys_close_hold rfl rfl) ?_
    intro _ l hl
    rw [hl]
    exact rfl

theorem obeys_sysOpen (omode : UInt32) :
    (sysOpen omode).Obeys fileProtocol Local.idle fun _ l => l.Quiet := by
  refine .perform_bind trivial ?_
  intro found _
  cases found with
  | false => exact rfl
  | true =>
    refine .perform_bind trivial ?_
    intro r _
    cases r with
    | none => exact rfl
    | some f =>
      change Prog.Obeys _ _ (Local.idle.alloc f) _
      have hpos : 0 < (Local.idle.alloc f).held f := by
        rw [Local.held_alloc]
        exact Nat.succ_pos _
      refine .perform_bind ⟨rfl, .inl hpos⟩ ?_
      intro r _
      cases r with
      | none =>
        change Prog.Obeys _ _ (Local.idle.alloc f) _
        refine .bind (obeys_close_alloc rfl rfl) ?_
        intro _ l hl
        rw [hl]
        exact rfl
      | some fd =>
        change Prog.Obeys _ _ (fileNext (.fdalloc f) (Local.idle.alloc f) (some fd)) _
        simp only [fileNext, if_pos hpos]
        refine Prog.Obeys.perform_bind (Local.raw_alloc _ f) ?_
        intro _ _
        change ((Local.idle.alloc f).drop f).setRaw f false = Local.idle
        rw [← Local.close_of_held hpos, Local.close_alloc rfl]

theorem obeys_pipealloc : pipealloc.Obeys fileProtocol Local.idle fun r l =>
      match r with
      | none => l = Local.idle
      | some (f0, f1) => f1 ≠ f0 ∧ l = (Local.idle.hold f1).hold f0 := by
  refine .perform_bind trivial ?_
  intro r _
  cases r with
  | none => exact rfl
  | some f0 =>
    change Prog.Obeys _ _ (Local.idle.alloc f0) _
    refine .perform_bind trivial ?_
    intro r hres
    cases r with
    | none =>
      change Prog.Obeys _ _ (Local.idle.alloc f0) _
      exact .bind (obeys_close_alloc rfl rfl) fun _ l hl => hl
    | some f1 =>
      have hne : f1 ≠ f0 := by
        intro heq
        have hzero : (Local.idle.alloc f0).held f1 = 0 := hres.1
        rw [heq, Local.held_alloc] at hzero
        cases hzero
      have hraw0 : (Local.idle.alloc f1).raw f0 = false := raw_setRaw_of_ne true (Ne.symm hne)
      change Prog.Obeys _ _ ((Local.idle.alloc f0).alloc f1) _
      rw [Local.alloc_comm hne]
      refine .perform_bind rfl ?_
      intro r _
      cases r with
      | none =>
        change Prog.Obeys _ _ ((Local.idle.alloc f1).alloc f0) _
        refine .bind (obeys_close_alloc hraw0 rfl) ?_
        intro _ l hl
        rw [hl]
        exact .bind (obeys_close_alloc rfl rfl) fun _ l hl => hl
      | some q =>
        refine .perform_bind rfl ?_
        intro _ _
        change Prog.Obeys _ _ ((((Local.idle.alloc f1).alloc f0).addEnd q false).addEnd q true) _
        refine Prog.Obeys.perform_bind ⟨Local.raw_alloc _ f0, ?_⟩ ?_
        · rw [ends_addEnd]
          exact (Local.ends_addEnd_pos _ q false).trans_le (Nat.le_add_right _ _)
        intro _ _
        change Prog.Obeys _ _ ((((((Local.idle.alloc f1).alloc f0).setRaw f0 false).addEnd q
          false).addEnd q true).dropEnd q false) _
        rw [Local.dropEnd_addEnd_addEnd, Local.setRaw_alloc hraw0]
        refine Prog.Obeys.perform_bind ⟨Local.raw_alloc _ f1, Local.ends_addEnd_pos _ q true⟩ ?_
        intro _ _
        refine ⟨hne, ?_⟩
        change ((((Local.idle.alloc f1).setRaw f1 false).hold f0).addEnd q true).dropEnd q true = _
        rw [Local.dropEnd_addEnd, Local.setRaw_alloc rfl]

theorem obeys_sysPipe : sysPipe.Obeys fileProtocol Local.idle fun _ l => l.Quiet := by
  refine .bind obeys_pipealloc ?_
  intro r l hr
  cases r with
  | none =>
    rw [hr]
    exact rfl
  | some x =>
    obtain ⟨rf, wf⟩ := x
    obtain ⟨hne, hl⟩ := hr
    subst hl
    -- whatever has happened to the descriptors, the two references are dropped
    have hclose : ∀ (known : Option (Fd × FileId)) (cleared : Nat),
        (do fileclose rf; fileclose wf; pure (-1) : Kernel Int).Obeys fileProtocol
          (({ Local.idle with known := known, cleared := cleared }.hold wf).hold rf)
          fun _ l => l.Quiet := by
      intro known cleared
      refine .bind (obeys_close_hold rfl rfl) ?_
      intro _ l hl
      rw [hl]
      refine .bind (obeys_close_hold rfl rfl) ?_
      intro _ l hl
      rw [hl]
      exact rfl
    have hposr : 0 < ((Local.idle.hold wf).hold rf).held rf := by
      rw [Local.held_hold]
      exact Nat.succ_pos _
    have hposw : 0 < (Local.idle.hold wf).held wf := by
      rw [Local.held_hold]
      exact Nat.succ_pos _
    refine .perform_bind ⟨rfl, .inl hposr⟩ ?_
    intro r _
    cases r with
    | none => exact hclose none 0
    | some fd0 =>
      change Prog.Obeys _ _ (fileNext (.fdalloc rf) ((Local.idle.hold wf).hold rf) (some fd0)) _
      simp only [fileNext, if_pos hposr, Local.drop_hold]
      refine Prog.Obeys.perform_bind ⟨rfl, .inl hposw⟩ ?_
      intro r _
      cases r with
      | none =>
        refine Prog.Obeys.perform_bind (.inr ⟨rfl, rf, rfl⟩) ?_
        intro _ _
        exact hclose none (if 0 = fd0.val then fd0.val + 1 else 0)
      | some fd1 =>
        change (fileNext (.fdalloc wf) _ (some fd1)).Quiet
        simp only [fileNext, if_pos hposw]
        change (Local.idle.hold wf).drop wf = Local.idle
        exact Local.drop_hold _ wf

def Local.Filling (np : Slot) (i : Nat) (l : Local) : Prop :=
  ∃ k ≤ i, { l with known := none, cleared := 0 } = { Local.idle with child := some (np, k) }

theorem obeys_dupChild (np : Slot) (fd : Fd) (hl : l.Filling np fd.val) :
    (dupChild np fd).Obeys fileProtocol l fun _ => Local.Filling np (fd.val + 1) := by
  obtain ⟨k, hk, hl⟩ := hl
  have hchild : l.child = some (np, k) := congrArg Local.child hl
  have hheld : l.held = fun _ => 0 := congrArg Local.held hl
  have howed : l.owed = none := congrArg Local.owed hl
  have hraw : l.raw = fun _ => false := congrArg Local.raw hl
  refine .perform_bind trivial ?_
  intro r _
  cases r with
  | none => exact ⟨k, Nat.le_succ_of_le hk, hl⟩
  | some f =>
    refine .perform_bind ⟨congrFun hraw f, .inl ⟨howed, fd, rfl⟩⟩ ?_
    intro _ _
    have hdup : ({ l with known := some (fd, f) } : Local).dup f
        = ({ l with known := some (fd, f) } : Local).hold f := if_pos howed
    change Prog.Obeys _ _ (({ l with known := some (fd, f) } : Local).dup f) _
    rw [hdup]
    refine .perform ⟨⟨k, hchild, hk⟩, ?_, congrFun hraw f⟩ ?_
    · rw [Local.held_hold]
      exact Nat.succ_pos _
    · intro _ _
      refine ⟨fd.val + 1, le_rfl, ?_⟩
      have hdrop := Local.drop_hold { l with known := some (fd, f) } f
      change { (({ l with known := some (fd, f) } : Local).hold f).drop f with
        known := none, cleared := 0, child := some (np, fd.val + 1) } = _
      rw [hdrop]
      exact congrArg (fun l : Local => { l with child := some (np, fd.val + 1) }) hl

theorem obeys_start {np : Slot} {pid : Nat} :
    (start np pid).Obeys fileProtocol { Local.idle with child := some (np, 0) } fun _ l => l.Quiet := by
  refine .bind (.forFin (fun fd l => obeys_dupChild np fd) ⟨0, le_rfl, rfl⟩) ?_
  intro _ l hfilling
  obtain ⟨k, -, hl⟩ := hfilling
  refine Prog.Obeys.perform_bind ⟨k, congrArg Local.child hl⟩ ?_
  intro _ _
  exact congrArg (fun l : Local => { l with child := none }) hl

theorem obeys_allocproc : allocproc.Obeys fileProtocol Local.idle fun r l =>
      match r with
      | none => l = Local.idle
      | some (np, _) => l = { Local.idle with child := some (np, 0) } := by
  refine .perform_bind rfl ?_
  intro r _
  cases r with
  | none => exact rfl
  | some x =>
    obtain ⟨np, pid⟩ := x
    refine .perform_bind trivial ?_
    intro ok _
    cases ok with
    | true => exact rfl
    | false =>
      refine .perform_bind rfl ?_
      intro _ _
      exact rfl

theorem obeys_fork : fork.Obeys fileProtocol Local.idle fun _ l => l.Quiet := by
  refine .bind obeys_allocproc ?_
  intro r l hr
  cases r with
  | none =>
    rw [hr]
    exact rfl
  | some x =>
    rw [hr]
    refine .perform_bind trivial ?_
    intro ok _
    cases ok with
    | true => exact obeys_start
    | false =>
      refine .perform_bind rfl ?_
      intro _ _
      exact rfl

theorem obeys_threadCreate (stack : UInt32) :
    (threadCreate stack).Obeys fileProtocol Local.idle fun _ l => l.Quiet := by
  unfold threadCreate
  split
  · exact rfl
  refine .bind obeys_allocproc ?_
  intro r l hr
  cases r with
  | none =>
    rw [hr]
    exact rfl
  | some x =>
    rw [hr]
    exact obeys_start

theorem obeys_closeFd (fd : Fd) (hquiet : l.Quiet) (hcleared : l.cleared = fd.val) :
    (closeFd fd).Obeys fileProtocol l fun _ l' => l'.Quiet ∧ l'.cleared = fd.val + 1 := by
  have hheld : l.held = fun _ => 0 := congrArg Local.held hquiet
  have howed : l.owed = none := congrArg Local.owed hquiet
  have hraw : l.raw = fun _ => false := congrArg Local.raw hquiet
  have hpage : l.page = none := congrArg Local.page hquiet
  refine .perform_bind trivial ?_
  intro r _
  cases r with
  | none => exact ⟨hquiet, if_pos hcleared⟩
  | some f =>
    refine .bind (obeys_fileclose (.inr ⟨howed, fd, rfl⟩) hpage) ?_
    intro _ l' hl'
    have hclose : ({ l with known := some (fd, f) } : Local).close f
        = { l with known := some (fd, f), owed := some (fd, f) } := by
      have hzero : ¬0 < ({ l with known := some (fd, f) } : Local).held f := by
        change ¬0 < l.held f
        rw [hheld]
        exact Nat.lt_irrefl 0
      unfold Local.close
      rw [if_neg hzero]
      exact Local.setRaw_eq (congrFun hraw f)
    change l' = ({ l with known := some (fd, f) } : Local).close f at hl'
    rw [hl', hclose]
    refine .perform (.inl ⟨f, rfl⟩) ?_
    intro _ _
    refine ⟨?_, if_pos hcleared⟩
    exact congrArg (fun l : Local => { l with owed := none }) hquiet

theorem obeys_exit : exit.Obeys fileProtocol Local.idle fun _ l => l = Local.idle := by
  have hloop : (Prog.forFin nofile closeFd).Obeys fileProtocol Local.idle
      fun _ l => l.Quiet ∧ l.cleared = nofile :=
    .forFin (I := fun i (l : Local) => l.Quiet ∧ l.cleared = i)
      (fun fd l hl => obeys_closeFd fd hl.1 hl.2) ⟨rfl, rfl⟩
  refine .bind hloop ?_
  intro _ l hl
  exact ⟨hl, fun _ _ => rfl⟩

theorem obeys_syscall (call : Call) :
    (syscall call).Obeys fileProtocol Local.idle fun _ l => l = Local.idle := by
  cases call with
  | «open» omode => exact obeys_returning (obeys_sysOpen omode)
  | dup fd => exact obeys_returning (obeys_sysDup fd)
  | close fd => exact obeys_returning (obeys_sysClose fd)
  | pipe => exact obeys_returning obeys_sysPipe
  | fork => exact obeys_returning obeys_fork
  | threadCreate stack => exact obeys_returning (obeys_threadCreate stack)
  | exit | threadExit => exact .bind obeys_exit fun _ l hl => hl
  | wait q =>
    apply obeys_returning
    refine .perform_bind trivial ?_
    intro _ _
    exact rfl

/-! ### The accounts -/

def State.IsEnd (s : State) (q : Page) (f : FileId) : Prop :=
  0 < (s.file f).ref ∧ (s.file f).type = .fdPipe ∧ (s.file f).pipe = q

structure Accounted (s : State) : Prop where
  ref : ∀ f, (s.file f).ref = (Finset.univ.filter fun x : Slot × Fd => s.ofile x.1 x.2 = some f).card
  free : ∀ f, (s.file f).ref = 0 → (s.file f).type = .fdNone
  readopen : ∀ q, s.kallocs q = s.kfrees q + 1 →
    ((s.pipe q).readopen = true ↔ ∃ f, s.IsEnd q f ∧ (s.file f).readable = true)
  writeopen : ∀ q, s.kallocs q = s.kfrees q + 1 →
    ((s.pipe q).writeopen = true ↔ ∃ f, s.IsEnd q f ∧ (s.file f).writable = true)
  /-- The page is freed once for each time it was allocated, unless an end is still there. -/
  freed : ∀ q, (∃ f, s.IsEnd q f) ∧ s.kallocs q = s.kfrees q + 1 ∨
    (¬∃ f, s.IsEnd q f) ∧ s.kallocs q = s.kfrees q

variable {s : State} {T : Slot → Local} {q : Page} {w : Bool}

theorem endsOf_pos_iff (hends : ∀ p, (T p).ends q w = 0) :
    0 < endsOf s T q w ↔ ∃ f, (s.file f).type = .fdPipe ∧ (s.file f).pipe = q ∧ (s.file f).writable = w := by
  have hlocal : ∑ p, (T p).ends q w = 0 := Finset.sum_eq_zero fun p _ => hends p
  unfold endsOf
  rw [hlocal, Nat.add_zero, Finset.sum_pos_iff]
  constructor
  · rintro ⟨f, -, hpos⟩
    unfold endTerm oneEnd at hpos
    split at hpos
    · rename_i htype
      split at hpos
      · rename_i heq
        exact ⟨f, htype, heq⟩
      · cases hpos
    · cases hpos
  · rintro ⟨f, htype, heq⟩
    refine ⟨f, Finset.mem_univ f, ?_⟩
    rw [endTerm_pipe htype, oneEnd, if_pos heq]
    exact Nat.one_pos

theorem Inv.ref_pos_of_pipe (hinv : Inv s T) {f : FileId} (hpipe : (s.file f).type = .fdPipe) :
    0 < (s.file f).ref := by
  apply Nat.pos_of_ne_zero
  intro hzero
  have hnone := hinv.refs.free f hzero
  rw [hpipe] at hnone
  cases hnone

theorem Inv.accounted (hinv : Inv s T) (hidle : ∀ p, T p = Local.idle) : Accounted s := by
  have hends : ∀ q w, 0 < endsOf s T q w ↔
      ∃ f, (s.file f).type = .fdPipe ∧ (s.file f).pipe = q ∧ (s.file f).writable = w := fun q w =>
    endsOf_pos_iff fun p => by rw [hidle p]; rfl
  have hpages : ∀ q, pagesOf T q = 0 := by
    intro q
    unfold pagesOf
    exact Finset.sum_eq_zero fun p _ => pageTerm_none (by rw [hidle p]; rfl) q
  have hflags : ∀ q, s.kallocs q = s.kfrees q + 1 → ∀ w, (s.pipe q).isOpen w = true ↔
      ∃ f, s.IsEnd q f ∧ (s.file f).writable = w := by
    intro q halloc w
    have hpos : (s.pipe q).isOpen w = true ↔ 0 < endsOf s T q w := by
      have hold := hinv.pipes.pages q
      have hpages := hpages q
      obtain hzero | hflags := hinv.pipes.flags q
      · have hfalse := hzero false
        have htrue := hzero true
        omega
      · rw [hflags w]
        cases (s.pipe q).isOpen w <;> simp
    rw [hpos, hends]
    constructor
    · rintro ⟨f, htype, hpipe, hw⟩
      exact ⟨f, ⟨hinv.ref_pos_of_pipe htype, htype, hpipe⟩, hw⟩
    · rintro ⟨f, ⟨-, htype, hpipe⟩, hw⟩
      exact ⟨f, htype, hpipe, hw⟩
  constructor
  · intro f
    rw [hinv.refs.ref f, Finset.card_filter, Fintype.sum_prod_type]
    refine Finset.sum_congr rfl fun p _ => ?_
    rw [hidle p]
    unfold refsOf refCount
    refine (Nat.add_zero _).trans (Finset.sum_congr rfl fun fd _ => ?_)
    simp [fdTerm, Local.idle]
  · exact hinv.refs.free
  · intro q halloc
    have hread := hflags q halloc false
    refine hread.trans ?_
    constructor
    · rintro ⟨f, hend, hw⟩
      exact ⟨f, hend, by rw [hinv.pipes.shape f hend.2.1, hw]; rfl⟩
    · rintro ⟨f, hend, hr⟩
      have hshape := hinv.pipes.shape f hend.2.1
      rw [hr] at hshape
      exact ⟨f, hend, by simpa using hshape.symm⟩
  · intro q halloc
    exact hflags q halloc true
  · intro q
    have hold := hinv.pipes.pages q
    have hpages := hpages q
    have hiff : (∃ f, s.IsEnd q f) ↔ 0 < endsOf s T q false + endsOf s T q true := by
      rw [Nat.add_pos_iff_pos_or_pos, hends, hends]
      constructor
      · rintro ⟨f, -, htype, hpipe⟩
        cases hw : (s.file f).writable with
        | false => exact .inl ⟨f, htype, hpipe, hw⟩
        | true => exact .inr ⟨f, htype, hpipe, hw⟩
      · rintro (⟨f, htype, hpipe, -⟩ | ⟨f, htype, hpipe, -⟩) <;>
          exact ⟨f, hinv.ref_pos_of_pipe htype, htype, hpipe⟩
    rw [hiff]
    omega

/-- A call that is about to free a page: it is allocated, and no file is an end of it. -/
theorem Inv.kfree_once (hinv : Inv s T) {p : Slot} (hpage : (T p).page = some q) :
    s.kallocs q = s.kfrees q + 1 ∧ ¬∃ f, s.IsEnd q f := by
  obtain ⟨halloc, hzero⟩ := hinv.pipes.page hpage
  refine ⟨halloc, ?_⟩
  rintro ⟨f, -, htype, hpipe⟩
  have hterm : endTerm (s.file f) q (s.file f).writable = 1 := by
    rw [endTerm_pipe htype]
    exact if_pos ⟨hpipe, rfl⟩
  have hzero := hzero (s.file f).writable
  unfold endsOf at hzero
  have hsum := le_sum (fun g => endTerm (s.file g) q (s.file f).writable) f
  omega

theorem Inv.not_panics (hinv : Inv s T) {p : Slot} {o : Op} (hpre : filePre o (T p)) : ¬Panics s o := by
  have hown := hinv.refs.own p
  cases o with
  | filedup f =>
    obtain ⟨-, ⟨howed, hknown⟩ | ⟨fd, fd', howed, hknown, hne⟩⟩ := hpre
    · exact Nat.not_lt_of_le (hinv.refs.one_le_ref (hown.refsOf_pos (.inr ⟨howed, hknown⟩)))
    · apply Nat.not_lt_of_le
      apply hinv.refs.one_le_ref (p := p)
      apply refCount_pos_of_fd (hown.known fd f hknown)
      rw [howed]
      intro heq
      exact hne (Option.some.inj heq).symm
  | fileclose f => exact Nat.not_lt_of_le (hinv.refs.one_le_ref (hown.refsOf_pos hpre))
  | _ => exact id

theorem Inv.init : Inv State.init fun _ => Local.idle := by
  have hends : ∀ q w, endsOf .init (fun _ => .idle) q w = 0 := by
    intro q w
    unfold endsOf
    have hfile : ∑ f, endTerm (State.init.file f) q w = 0 :=
      Finset.sum_eq_zero fun f _ => endTerm_other (x := State.init.file f) (by simp [State.init]) q w
    have hlocal : ∑ _p : Slot, Local.idle.ends q w = 0 := Finset.sum_eq_zero fun _ _ => rfl
    rw [hfile, hlocal]
  have hpages : ∀ q, pagesOf (fun _ => .idle) q = 0 := by
    intro q
    unfold pagesOf
    exact Finset.sum_eq_zero fun _ _ => pageTerm_none rfl q
  constructor
  · constructor
    · intro f
      refine (Finset.sum_eq_zero fun p _ => ?_).symm
      unfold refsOf refCount
      refine (Nat.add_zero _).trans (Finset.sum_eq_zero fun fd _ => ?_)
      exact if_neg fun hfd => nomatch hfd.1
    · intro f _
      rfl
    · intro p
      exact ⟨nofun, nofun, nofun, nofun⟩
  · constructor
    · nofun
    · intro q
      exact .inl (hends q)
    · intro q
      rw [hends, hends, hpages]
      rfl
    · intro q
      exact Nat.zero_le _
  · exact ⟨fun _ _ => rfl, fun _ _ _ => rfl, nofun, nofun⟩

/-- In every interleaving of calls by any processes, failures included: between calls the tables are
accounted for; `filedup` and `fileclose` do not panic; and `kfree` gets a page of a pipe that has not
been freed, when no file is an end of it. -/
theorem open_files_accounted {c : System} (hrun : Pool.Reaches sem starts System.init c) :
    (c.Quiet → Accounted c.shared) ∧ ∀ p o next, c.thread p = .op o next → ¬Panics c.shared o ∧
        ∀ q, o = .kfree q → c.shared.kallocs q = c.shared.kfrees q + 1 ∧ ¬∃ f, c.shared.IsEnd q f := by
  have hsafe : ∀ p s x l, starts p s x → l = .idle →
      x.Safe sem Inv (fun _ => fileProtocol.pre) p l fun _ l' => l' = .idle := by
    rintro p s x l ⟨-, call, rfl⟩ rfl
    refine (obeys_syscall call).safe ?_
    rintro p o s T r s' hinv hpre ⟨ch, hexec⟩
    exact hinv.exec hpre hexec
  have hinit : System.init.Inv sem Inv (fun _ => fileProtocol.pre) fun _ l => l = Local.idle :=
    ⟨fun _ => Local.idle, Inv.init, fun _ => rfl⟩
  obtain ⟨T, hinv, hthreads⟩ := hinit.reaches hsafe hrun
  constructor
  · intro hquiet
    apply hinv.accounted
    intro p
    obtain ⟨v, hv⟩ := hquiet p
    have hp := hthreads p
    rw [hv] at hp
    exact hp
  · intro p o next hthread
    have hp := hthreads p
    rw [hthread] at hp
    refine ⟨hinv.not_panics hp.1, ?_⟩
    rintro q rfl
    exact hinv.kfree_once hp.1

def firstPage : Choice := { ok := true, page := some 0, junk := { readopen := false, writeopen := false } }

def initproc : Slot := ⟨0, by decide⟩

def secondFile : FileId := ⟨1, by decide⟩

/-- The first process makes a pipe: two files with one descriptor each. -/
theorem open_files_accounted_pipe :
    ∃ c : System, Pool.Reaches sem starts System.init c ∧ (c.shared.file secondFile).ref = 1 ∧
      (c.shared.pipe 0).writeopen = true ∧ Accounted c.shared := by
  have hrun : (Pool.sched (fun p => exec firstPage p) (List.replicate 9 initproc)
        ⟨update (fun _ => .pure 0) initproc (syscall .pipe), State.init⟩).map (fun c : System =>
          decide ((∀ p, (c.thread p).nextOp.isNone) ∧ (c.shared.file secondFile).ref = 1 ∧
            (c.shared.pipe 0).writeopen = true)) = some true := by
    decide +kernel
  obtain ⟨c, hc, hdec⟩ := Option.map_eq_some_iff.mp hrun
  obtain ⟨hidle, href, hopen⟩ := of_decide_eq_true hdec
  have hstart : Pool.Step sem starts System.init
      ⟨update (fun _ => .pure 0) initproc (syscall .pipe), .init⟩ :=
    .start initproc 0 (syscall .pipe) rfl ⟨rfl, .pipe, rfl⟩
  have hreach : Pool.Reaches sem starts System.init c :=
    .head hstart (Pool.reaches_of_sched (fun p o s r s' hexec => ⟨firstPage, hexec⟩) _ hc)
  have hquiet : c.Quiet := by
    intro p
    have hp := hidle p
    cases hthread : c.thread p with
    | pure v => exact ⟨v, rfl⟩
    | op o next =>
      rw [hthread] at hp
      cases hp
  exact ⟨c, hreach, href, hopen, (open_files_accounted hreach).1 hquiet⟩

end Xv6.OpenFile
