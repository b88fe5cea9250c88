import Xv6.File.Model
import Xv6.Lib.Count

/-!
# Who holds what

A reference to a file is a descriptor, or a call in progress has it in hand; an end of a pipe is a
file, or a call is about to close it. `fileProtocol` says how the operations move references, ends
and pages between the tables and the local state of the process, and `Inv` that nothing is counted
twice or forgotten.
-/

namespace Xv6.OpenFile

open Function (update update_self update_of_ne update_eq_self update_idem)

structure Local where
  /-- References that it has outside its descriptors. -/
  held : FileId → Nat
  /-- A descriptor that it has read or set. -/
  known : Option (Fd × FileId)
  /-- A descriptor that has no reference: `dup` sets it before `filedup`, and `exit` clears it after
  `fileclose`. -/
  owed : Option (Fd × FileId)
  /-- Files that it has allocated and not filled in. -/
  raw : FileId → Bool
  /-- The entry that it fills in, from which descriptor on. -/
  child : Option (Slot × Nat)
  /-- The descriptors below are empty. -/
  cleared : Nat
  /-- Ends of pipes that it has in hand. -/
  ends : Page → Bool → Nat
  /-- A page that is no pipe, or not any more. -/
  page : Option Page

namespace Local

def idle : Local where
  held := fun _ => 0
  known := none
  owed := none
  raw := fun _ => false
  child := none
  cleared := 0
  ends := fun _ _ => 0
  page := none

def hold (l : Local) (f : FileId) : Local := { l with held := update l.held f (l.held f + 1) }

def drop (l : Local) (f : FileId) : Local := { l with held := update l.held f (l.held f - 1) }

def setRaw (l : Local) (f : FileId) (b : Bool) : Local := { l with raw := update l.raw f b }

def setEnd (l : Local) (q : Page) (w : Bool) (n : Nat) : Local :=
  { l with ends := update l.ends q (update (l.ends q) w n) }

def addEnd (l : Local) (q : Page) (w : Bool) : Local := l.setEnd q w (l.ends q w + 1)

def dropEnd (l : Local) (q : Page) (w : Bool) : Local := l.setEnd q w (l.ends q w - 1)

def clear (l : Local) (fd : Fd) : Local :=
  { l with cleared := if l.cleared = fd.val then fd.val + 1 else l.cleared }

/-- `filedup` gives the descriptor that is owed one its reference, or takes one in hand. -/
def dup (l : Local) (f : FileId) : Local := if l.owed = none then l.hold f else { l with owed := none }

/-- `fileclose` drops the reference in hand, or the one of the descriptor that was read. -/
def close (l : Local) (f : FileId) : Local :=
  (if 0 < l.held f then l.drop f else { l with owed := l.known }).setRaw f false

def Has (l : Local) (f : FileId) : Prop := 0 < l.held f ∨ (l.owed = none ∧ ∃ fd, l.known = some (fd, f))

end Local

def filePre : Op → Local → Prop
  | .filedup f, l => l.raw f = false ∧ ((l.owed = none ∧ ∃ fd, l.known = some (fd, f)) ∨
      ∃ fd fd', l.owed = some (fd', f) ∧ l.known = some (fd, f) ∧ fd ≠ fd')
  | .fileclose f, l => l.Has f
  | .setFile f (.pipe q w), l => l.raw f = true ∧ 0 < l.ends q w
  | .setFile f (.inode _ _), l => l.raw f = true
  | .clearOfile fd, l => (∃ f, l.owed = some (fd, f)) ∨ (l.owed = none ∧ ∃ f, l.known = some (fd, f))
  | .fdalloc f, l => l.owed = none ∧ l.Has f
  | .kalloc, l => l.page = none
  | .kfree q, l => l.page = some q
  | .pipeinit q, l => l.page = some q
  | .pipeclose q w, l => l.page = none ∧ 0 < l.ends q w
  | .allocproc, l => l.child = none
  | .abortproc np, l => l.child = some (np, 0)
  | .setChild np fd f, l => (∃ k, l.child = some (np, k) ∧ k ≤ fd.val) ∧ 0 < l.held f ∧ l.raw f = false
  | .ready np, l => ∃ k, l.child = some (np, k)
  | .zombie, l => { l with known := none, cleared := 0 } = Local.idle ∧ l.cleared = nofile
  | .ret _, l => { l with known := none, cleared := 0 } = Local.idle
  | _, _ => True

def fileRes : (o : Op) → Local → o.Res → Prop
  | .fdalloc _, l, some fd' => ∀ fd f, l.known = some (fd, f) → fd ≠ fd'
  | .filealloc, l, some f => l.held f = 0 ∧ l.raw f = false
  | _, _, _ => True

def fileNext : (o : Op) → Local → o.Res → Local
  | .filealloc, l, some f => (l.hold f).setRaw f true
  | .filedup f, l, _ => l.dup f
  | .fileclose f, l, some ff =>
    if ff.type = .fdPipe then (l.close f).addEnd ff.pipe ff.writable else l.close f
  | .fileclose f, l, none => l.close f
  | .setFile f (.pipe q w), l, _ => (l.setRaw f false).dropEnd q w
  | .setFile f (.inode _ _), l, _ => l.setRaw f false
  | .getOfile fd, l, some f => { l with known := some (fd, f) }
  | .getOfile fd, l, none => { l.clear fd with known := none }
  | .clearOfile fd, l, _ =>
    match l.owed, l.known with
    | none, some (_, f) => { (l.hold f).clear fd with known := none }
    | _, _ => { l.clear fd with owed := none, known := none }
  | .fdalloc f, l, some fd =>
    if 0 < l.held f then { l.drop f with known := some (fd, f), cleared := 0 }
    else { l with owed := some (fd, f), cleared := 0 }
  | .kalloc, l, r => { l with page := r }
  | .kfree _, l, _ => { l with page := none }
  | .pipeinit q, l, _ => { (l.addEnd q false).addEnd q true with page := none }
  | .pipeclose q w, l, last => if last then { l.dropEnd q w with page := some q } else l.dropEnd q w
  | .allocproc, l, some (np, _) => { l with child := some (np, 0) }
  | .abortproc _, l, _ => { l with child := none }
  | .setChild np fd f, l, _ => { l.drop f with child := some (np, fd.val + 1) }
  | .ready _, l, _ => { l with child := none }
  | .zombie, _, _ => Local.idle
  | .ret _, _, _ => Local.idle
  | _, l, _ => l

def fileProtocol : Protocol Op Op.Res Local := ⟨filePre, fileRes, fileNext⟩

/-! ### Counting references -/

def fdTerm (ofile : Fd → Option FileId) (owed : Option (Fd × FileId)) (f : FileId) (fd : Fd) : Nat :=
  if ofile fd = some f ∧ owed.map Prod.fst ≠ some fd then 1 else 0

def refCount (ofile : Fd → Option FileId) (held : FileId → Nat) (owed : Option (Fd × FileId))
    (f : FileId) : Nat :=
  ∑ fd, fdTerm ofile owed f fd + held f

abbrev refsOf (ofile : Fd → Option FileId) (l : Local) (f : FileId) : Nat :=
  refCount ofile l.held l.owed f

structure Own (s : State) (p : Slot) (l : Local) : Prop where
  known : ∀ fd f, l.known = some (fd, f) → s.ofile p fd = some f
  owed : ∀ fd f, l.owed = some (fd, f) → s.ofile p fd = some f
  cleared : ∀ fd : Fd, fd.val < l.cleared → s.ofile p fd = none
  raw : ∀ f, l.raw f = true → (s.file f).ref = 1 ∧ (s.file f).type = .fdNone ∧ 0 < refsOf (s.ofile p) l f

structure Refs (s : State) (T : Slot → Local) : Prop where
  ref : ∀ f, (s.file f).ref = ∑ p, refsOf (s.ofile p) (T p) f
  free : ∀ f, (s.file f).ref = 0 → (s.file f).type = .fdNone
  own : ∀ p, Own s p (T p)

variable {s s' : State} {T : Slot → Local} {p : Slot} {l : Local} {f g : FileId} {fd : Fd}
  {ofile : Fd → Option FileId}

theorem Refs.change (hrefs : Refs s T) (hofile : ∀ q, q ≠ p → s'.ofile q = s.ofile q)
    (href : ∀ g, (s'.file g).ref + refsOf (s.ofile p) (T p) g = (s.file g).ref + refsOf (s'.ofile p) l g)
    (hfree : ∀ g, (s'.file g).ref = 0 → (s'.file g).type = .fdNone) (hown : Own s' p l)
    (hraw : ∀ q, q ≠ p → ∀ g, (T q).raw g = true → s'.file g = s.file g) : Refs s' (update T p l) := by
  constructor
  · intro g
    have hne : ∀ q, q ≠ p → refsOf (s'.ofile q) (update T p l q) g = refsOf (s.ofile q) (T q) g := by
      intro q hq
      rw [hofile q hq, update_of_ne hq]
    have hsum := sum_add_of_eq_except hne
    rw [update_self, ← hrefs.ref g] at hsum
    have href := href g
    omega
  · exact hfree
  · intro q
    by_cases hq : q = p
    · subst hq
      rw [update_self]
      exact hown
    have hq' := hrefs.own q
    rw [update_of_ne hq]
    constructor
    · rw [hofile q hq]
      exact hq'.known
    · rw [hofile q hq]
      exact hq'.owed
    · rw [hofile q hq]
      exact hq'.cleared
    · intro g hg
      rw [hofile q hq, hraw q hq g hg]
      exact hq'.raw g hg

theorem refCount_add (ofile ofile' : Fd → Option FileId) (held : FileId → Nat)
    (owed owed' : Option (Fd × FileId)) (g : FileId) (fd : Fd)
    (hne : ∀ fd', fd' ≠ fd → fdTerm ofile' owed' g fd' = fdTerm ofile owed g fd') :
    refCount ofile' held owed' g + fdTerm ofile owed g fd
      = refCount ofile held owed g + fdTerm ofile' owed' g fd := by
  have hsum := sum_add_of_eq_except hne
  unfold refCount
  omega

def one (f g : FileId) : Nat := if f = g then 1 else 0

@[simp]
theorem one_self (f : FileId) : one f f = 1 := if_pos rfl

theorem one_of_ne (hne : g ≠ f) : one f g = 0 := if_neg hne.symm

variable {held : FileId → Nat} {owed : Option (Fd × FileId)}

theorem refCount_hold (held : FileId → Nat) (g : FileId) :
    refCount ofile (update held f (held f + 1)) owed g = refCount ofile held owed g + one f g := by
  unfold refCount
  by_cases hg : g = f
  · subst hg
    rw [update_self, one_self, Nat.add_assoc]
  · rw [update_of_ne hg, one_of_ne hg, Nat.add_zero]

theorem refCount_drop (g : FileId) (hheld : 0 < held f) :
    refCount ofile (update held f (held f - 1)) owed g + one f g = refCount ofile held owed g := by
  unfold refCount
  by_cases hg : g = f
  · subst hg
    rw [update_self, one_self]
    omega
  · rw [update_of_ne hg, one_of_ne hg, Nat.add_zero]

theorem refCount_owe (held : FileId → Nat) (g : FileId) (hfd : ofile fd = some f) :
    refCount ofile held (some (fd, f)) g + one f g = refCount ofile held none g := by
  have hadd := refCount_add ofile ofile held none (some (fd, f)) g fd fun fd' hne => by
    simp [fdTerm, Ne.symm hne]
  simp only [fdTerm, hfd, Option.map_some, Option.map_none, ne_eq, not_true_eq_false, and_false,
    if_false, reduceCtorEq, not_false_eq_true, and_true, Option.some.injEq] at hadd
  unfold one
  omega

theorem refCount_clear (held : FileId → Nat) (g : FileId) (hfd : ofile fd = some f) :
    refCount (update ofile fd none) held none g + one f g = refCount ofile held none g := by
  have hadd := refCount_add ofile (update ofile fd none) held none none g fd fun fd' hne => by
    simp [fdTerm, update_of_ne hne]
  simp only [fdTerm, hfd, update_self, Option.map_none, ne_eq, if_false, reduceCtorEq,
    not_false_eq_true, and_true, Option.some.injEq] at hadd
  unfold one
  omega

theorem refCount_clear_owed (held : FileId → Nat) (g : FileId) :
    refCount (update ofile fd none) held none g = refCount ofile held (some (fd, f)) g := by
  have hadd := refCount_add ofile (update ofile fd none) held (some (fd, f)) none g fd fun fd' hne => by
    simp [fdTerm, update_of_ne hne, Ne.symm hne]
  simp only [fdTerm, update_self, Option.map_some, ne_eq, not_true_eq_false, and_false, if_false,
    reduceCtorEq, false_and] at hadd
  omega

theorem refCount_set (held : FileId → Nat) (g : FileId) (hfd : ofile fd = none) :
    refCount (update ofile fd (some f)) held none g = refCount ofile held none g + one f g := by
  have hset : update ofile fd (some f) fd = some f := update_self fd (some f) ofile
  have hclear := refCount_clear held g hset
  rw [update_idem, ← hfd, update_eq_self] at hclear
  exact hclear.symm

theorem refCount_set_owed (held : FileId → Nat) (g : FileId) (hfd : ofile fd = none) :
    refCount (update ofile fd (some f)) held (some (fd, f)) g = refCount ofile held none g := by
  have hset : update ofile fd (some f) fd = some f := update_self fd (some f) ofile
  have howe := refCount_owe held g hset
  have hcount := refCount_set (f := f) held g hfd
  omega

theorem refCount_pos_of_fd (hfd : ofile fd = some f) (howed : owed.map Prod.fst ≠ some fd) :
    0 < refCount ofile held owed f := by
  have hterm : fdTerm ofile owed f fd = 1 := if_pos ⟨hfd, howed⟩
  have hle := le_sum (fdTerm ofile owed f) fd
  unfold refCount
  omega

theorem held_le_refCount : held f ≤ refCount ofile held owed f := Nat.le_add_left _ _

attribute [irreducible] refCount

theorem Own.refsOf_pos (hown : Own s p l) (hhas : l.Has f) : 0 < refsOf (s.ofile p) l f := by
  obtain hheld | ⟨howed, fd, hknown⟩ := hhas
  · exact hheld.trans_le held_le_refCount
  · apply refCount_pos_of_fd (hown.known fd f hknown)
    rw [howed]
    nofun

theorem Refs.one_le_ref (hrefs : Refs s T) (hpos : 0 < refsOf (s.ofile p) (T p) f) :
    1 ≤ (s.file f).ref := by
  rw [hrefs.ref f]
  exact Nat.le_trans hpos (le_sum (fun q => refsOf (s.ofile q) (T q) f) p)

/-- Nobody else has a reference to a file that is not filled in. -/
theorem Refs.raw_only (hrefs : Refs s T) {q : Slot} (hraw : (T q).raw f = true)
    (hpos : 0 < refsOf (s.ofile p) (T p) f) : q = p := by
  by_contra hne
  obtain ⟨href, -, hq⟩ := (hrefs.own q).raw f hraw
  have hle := add_le_sum (fun r => refsOf (s.ofile r) (T r) f) hne
  have hsum := hrefs.ref f
  omega

/-! ### Counting ends -/

def oneEnd (q : Page) (w : Bool) (q' : Page) (w' : Bool) : Nat := if q = q' ∧ w = w' then 1 else 0

def endTerm (x : File) (q : Page) (w : Bool) : Nat :=
  if x.type = .fdPipe then oneEnd x.pipe x.writable q w else 0

theorem endTerm_pipe {x : File} (htype : x.type = .fdPipe) (q : Page) (w : Bool) :
    endTerm x q w = oneEnd x.pipe x.writable q w := if_pos htype

theorem endTerm_other {x : File} (htype : x.type ≠ .fdPipe) (q : Page) (w : Bool) :
    endTerm x q w = 0 := if_neg htype

theorem ends_addEnd (l : Local) (q q' : Page) (w w' : Bool) :
    (l.addEnd q w).ends q' w' = l.ends q' w' + oneEnd q w q' w' := by
  unfold Local.addEnd Local.setEnd oneEnd
  by_cases hq : q' = q
  · subst hq
    by_cases hw : w' = w
    · subst hw
      simp
    · simp [update_of_ne hw, Ne.symm hw]
  · simp [update_of_ne hq, Ne.symm hq]

theorem Local.addEnd_dropEnd {l : Local} {q : Page} {w : Bool} (hends : 0 < l.ends q w) :
    (l.dropEnd q w).addEnd q w = l := by
  unfold Local.addEnd Local.dropEnd Local.setEnd
  simp only [update_self, update_idem, Nat.sub_add_cancel hends, update_eq_self]

theorem ends_dropEnd {l : Local} {q : Page} {w : Bool} (hends : 0 < l.ends q w) (q' : Page) (w' : Bool) :
    (l.dropEnd q w).ends q' w' + oneEnd q w q' w' = l.ends q' w' := by
  rw [← ends_addEnd, Local.addEnd_dropEnd hends]

def endsOf (s : State) (T : Slot → Local) (q : Page) (w : Bool) : Nat :=
  ∑ f, endTerm (s.file f) q w + ∑ p, (T p).ends q w

def pageTerm (l : Local) (q : Page) : Nat := if l.page = some q then 1 else 0

def pagesOf (T : Slot → Local) (q : Page) : Nat := ∑ p, pageTerm (T p) q

structure Pipes (s : State) (T : Slot → Local) : Prop where
  shape : ∀ f, (s.file f).type = .fdPipe → (s.file f).readable = !(s.file f).writable
  flags : ∀ q, (∀ w, endsOf s T q w = 0) ∨ ∀ w, endsOf s T q w = ((s.pipe q).isOpen w).toNat
  pages : ∀ q, s.kallocs q = s.kfrees q + pagesOf T q + min 1 (endsOf s T q false + endsOf s T q true)
  once : ∀ q, s.kallocs q ≤ s.kfrees q + 1

variable {q : Page} {w : Bool}

theorem endsOf_setFile (x : File) :
    endsOf (s.setFile f x) T q w + endTerm (s.file f) q w = endsOf s T q w + endTerm x q w := by
  have hsum := sum_update_add (fun y : File => endTerm y q w) s.file f x
  unfold endsOf State.setFile
  dsimp only
  omega

theorem endsOf_update (l : Local) :
    endsOf s (update T p l) q w + (T p).ends q w = endsOf s T q w + l.ends q w := by
  have hsum := sum_update_add (fun l : Local => l.ends q w) T p l
  unfold endsOf
  omega

theorem endsOf_of_file_eq (hfile : s'.file = s.file) (T : Slot → Local) (q : Page) (w : Bool) :
    endsOf s' T q w = endsOf s T q w := by
  unfold endsOf
  rw [hfile]

theorem endsOf_congr (hfile : s'.file = s.file) (hends : l.ends = (T p).ends) (q : Page) (w : Bool) :
    endsOf s' (update T p l) q w = endsOf s T q w := by
  have hupd := endsOf_update (s := s) (T := T) (p := p) (q := q) (w := w) l
  rw [hends] at hupd
  rw [endsOf_of_file_eq hfile]
  omega

theorem pagesOf_update (l : Local) :
    pagesOf (update T p l) q + pageTerm (T p) q = pagesOf T q + pageTerm l q :=
  sum_update_add (fun l : Local => pageTerm l q) T p l

theorem pageTerm_le (p : Slot) : pageTerm (T p) q ≤ pagesOf T q := le_sum (fun r => pageTerm (T r) q) p

attribute [irreducible] endsOf pagesOf

theorem pageTerm_none (hpage : l.page = none) (q : Page) : pageTerm l q = 0 := by
  simp [pageTerm, hpage]

theorem pageTerm_some (hpage : l.page = some q) (q' : Page) : pageTerm l q' = if q = q' then 1 else 0 := by
  simp [pageTerm, hpage]

theorem pagesOf_congr (hpage : l.page = (T p).page) (q : Page) :
    pagesOf (update T p l) q = pagesOf T q := by
  have hupd := pagesOf_update (T := T) (p := p) (q := q) l
  have hterm : pageTerm l q = pageTerm (T p) q := by
    unfold pageTerm
    rw [hpage]
  omega

theorem Pipes.move {T' : Slot → Local} (hpipes : Pipes s T)
    (hshape : ∀ f, (s'.file f).type = .fdPipe → (s'.file f).readable = !(s'.file f).writable)
    (hpipe : s'.pipe = s.pipe) (hkallocs : s'.kallocs = s.kallocs) (hkfrees : s'.kfrees = s.kfrees)
    (hends : ∀ q w, endsOf s' T' q w = endsOf s T q w)
    (hpages : ∀ q, pagesOf T' q = pagesOf T q) : Pipes s' T' := by
  constructor
  · exact hshape
  · intro q
    simp only [hends, hpipe]
    exact hpipes.flags q
  · intro q
    simp only [hends, hpages, hkallocs, hkfrees]
    exact hpipes.pages q
  · rw [hkallocs, hkfrees]
    exact hpipes.once

theorem Pipes.frame (hpipes : Pipes s T) (hfile : s'.file = s.file) (hpipe : s'.pipe = s.pipe)
    (hkallocs : s'.kallocs = s.kallocs) (hkfrees : s'.kfrees = s.kfrees) (hends : l.ends = (T p).ends)
    (hpage : l.page = (T p).page) : Pipes s' (update T p l) := by
  refine hpipes.move ?_ hpipe hkallocs hkfrees (endsOf_congr hfile hends) (pagesOf_congr hpage)
  rw [hfile]
  exact hpipes.shape

/-! ### The process table -/

structure Table (s : State) (T : Slot → Local) : Prop where
  /-- Only a live process is in a call. -/
  idle : ∀ q, s.proc q ≠ .live → T q = Local.idle
  empty : ∀ q, s.proc q = .unused ∨ s.proc q = .zombie → ∀ fd, s.ofile q fd = none
  child : ∀ q np k, (T q).child = some (np, k) →
    s.proc np = .embryo ∧ ∀ fd : Fd, k ≤ fd.val → s.ofile np fd = none
  unique : ∀ q q' np k k', (T q).child = some (np, k) → (T q').child = some (np, k') → q = q'

theorem Table.frame (htable : Table s T) (hlive : s.proc p = .live) (hproc : s'.proc = s.proc)
    (hofile : ∀ q, q ≠ p → s'.ofile q = s.ofile q) (hchild : l.child = (T p).child) :
    Table s' (update T p l) := by
  have hkeep : ∀ q, (update T p l q).child = (T q).child := by
    intro q
    by_cases hq : q = p
    · subst hq
      rw [update_self, hchild]
    · rw [update_of_ne hq]
  have hother : ∀ q, s.proc q ≠ .live → q ≠ p := fun q hq heq => hq (heq ▸ hlive)
  constructor
  · intro q hq
    rw [hproc] at hq
    rw [update_of_ne (hother q hq)]
    exact htable.idle q hq
  · intro q hq
    rw [hproc] at hq
    have hne : q ≠ p := hother q fun hl => by
      rw [hl] at hq
      cases hq <;> contradiction
    rw [hofile q hne]
    exact htable.empty q hq
  · intro q np k hnp
    rw [hkeep] at hnp
    obtain ⟨hembryo, hempty⟩ := htable.child q np k hnp
    have hne : np ≠ p := hother np (by rw [hembryo]; nofun)
    rw [hproc, hofile np hne]
    exact ⟨hembryo, hempty⟩
  · intro q q' np k k' hq hq'
    rw [hkeep] at hq hq'
    exact htable.unique q q' np k k' hq hq'

structure Inv (s : State) (T : Slot → Local) : Prop where
  refs : Refs s T
  pipes : Pipes s T
  table : Table s T

end Xv6.OpenFile
