import Xv6.File.Accounting

/-!
# Every operation keeps the accounts

One lemma for each operation that the protocol allows.
-/

namespace Xv6.OpenFile

open Function (update update_self update_of_ne)

variable {s s' : State} {T : Slot → Local} {p : Slot} {l : Local} {f g : FileId} {fd : Fd} {q : Page}
  {w : Bool}

/-! ### Files -/

section File

theorem file_setFile_self (x : File) : (s.setFile f x).file f = x := by
  simp [State.setFile]

theorem file_setFile_of_ne (x : File) (hne : g ≠ f) : (s.setFile f x).file g = s.file g := by
  simp [State.setFile, update_of_ne hne]

theorem raw_setRaw_of_ne (b : Bool) (hne : g ≠ f) : (l.setRaw f b).raw g = l.raw g := by
  simp [Local.setRaw, update_of_ne hne]

theorem raw_setRaw_false (hraw : (l.setRaw f false).raw g = true) : g ≠ f ∧ l.raw g = true := by
  by_cases hg : g = f
  · simp [Local.setRaw, hg] at hraw
  · rw [raw_setRaw_of_ne false hg] at hraw
    exact ⟨hg, hraw⟩

theorem ref_setFile {x : File} (hx : x.ref = (s.file f).ref + 1) (g : FileId) :
    ((s.setFile f x).file g).ref = (s.file g).ref + one f g := by
  by_cases hg : g = f
  · subst hg
    rw [file_setFile_self, hx, one_self]
  · rw [file_setFile_of_ne x hg, one_of_ne hg, Nat.add_zero]

theorem Inv.setFile (hinv : Inv s T) (hlive : s.proc p = .live) {x : File}
    (href : ∀ g, ((s.setFile f x).file g).ref + refsOf (s.ofile p) (T p) g
      = (s.file g).ref + refsOf (s.ofile p) l g)
    (hfree : x.ref = 0 → x.type = .fdNone) (hown : Own (s.setFile f x) p l)
    (hraw : ∀ q, q ≠ p → (T q).raw f = false)
    (hshape : x.type = .fdPipe → x.readable = !x.writable)
    (hends : ∀ q w, endTerm x q w + l.ends q w = endTerm (s.file f) q w + (T p).ends q w)
    (hpage : l.page = (T p).page) (hchild : l.child = (T p).child) :
    Inv (s.setFile f x) (update T p l) := by
  constructor
  · refine hinv.refs.change (fun _ _ => rfl) href ?_ hown ?_
    · intro g
      by_cases hg : g = f
      · subst hg
        rw [file_setFile_self]
        exact hfree
      · rw [file_setFile_of_ne x hg]
        exact hinv.refs.free g
    · intro q hq g hg
      apply file_setFile_of_ne
      intro heq
      rw [heq, hraw q hq] at hg
      cases hg
  · refine hinv.pipes.move ?_ rfl rfl rfl ?_ ?_
    · intro g
      by_cases hg : g = f
      · subst hg
        rw [file_setFile_self]
        exact hshape
      · rw [file_setFile_of_ne x hg]
        exact hinv.pipes.shape g
    · intro q w
      have hfile := endsOf_setFile (s := s) (T := update T p l) (f := f) (q := q) (w := w) x
      have hlocal := endsOf_update (s := s) (T := T) (p := p) (q := q) (w := w) l
      have hends := hends q w
      omega
    · exact pagesOf_congr hpage
  · exact hinv.table.frame hlive rfl (fun _ _ => rfl) hchild

theorem Inv.filealloc (hinv : Inv s T) (hlive : s.proc p = .live) (hfirst : (s.file f).ref = 0) :
    fileRes .filealloc (T p) (some f) ∧
      Inv (s.setFile f { s.file f with ref := 1 }) (update T p (((T p).hold f).setRaw f true)) := by
  have hown := hinv.refs.own p
  have htype := hinv.refs.free f hfirst
  have hraw : ∀ q, (T q).raw f = false := by
    intro q
    by_contra hne
    have hone := ((hinv.refs.own q).raw f (by simpa using hne)).1
    omega
  have hheld : (T p).held f = 0 := by
    have hle := le_sum (fun q => refsOf (s.ofile q) (T q) f) p
    have href := hinv.refs.ref f
    have hpart : (T p).held f ≤ refsOf (s.ofile p) (T p) f := held_le_refCount
    omega
  have hhold : ∀ g, refsOf (s.ofile p) ((T p).hold f) g = refsOf (s.ofile p) (T p) g + one f g :=
    fun g => refCount_hold (T p).held g
  refine ⟨⟨hheld, hraw p⟩, ?_⟩
  refine hinv.setFile hlive ?_ nofun ?_ (fun q _ => hraw q) ?_ ?_ rfl rfl
  · intro g
    have hx := ref_setFile (s := s) (f := f) (x := { s.file f with ref := 1 }) (by rw [hfirst]) g
    have hhold := hhold g
    change _ = _ + refsOf (s.ofile p) ((T p).hold f) g
    omega
  · refine ⟨hown.known, hown.owed, hown.cleared, ?_⟩
    intro g hg
    change _ ∧ _ ∧ 0 < refsOf (s.ofile p) ((T p).hold f) g
    rw [hhold]
    by_cases hgf : g = f
    · subst hgf
      rw [file_setFile_self, one_self]
      exact ⟨rfl, htype, Nat.succ_pos _⟩
    · rw [file_setFile_of_ne _ hgf]
      rw [raw_setRaw_of_ne true hgf] at hg
      obtain ⟨href, hnone, hpos⟩ := hown.raw g hg
      exact ⟨href, hnone, hpos.trans_le (Nat.le_add_right _ _)⟩
  · intro hpipe
    exact absurd (htype.symm.trans hpipe) nofun
  · intro q w
    rfl

structure Local.SameElse (l l' : Local) : Prop where
  known : l'.known = l.known
  cleared : l'.cleared = l.cleared
  ends : l'.ends = l.ends
  page : l'.page = l.page
  child : l'.child = l.child

theorem Local.sameElse_dup (l : Local) (f : FileId) : l.SameElse (l.dup f) ∧ (l.dup f).raw = l.raw := by
  unfold Local.dup
  split
  · exact ⟨⟨rfl, rfl, rfl, rfl, rfl⟩, rfl⟩
  · exact ⟨⟨rfl, rfl, rfl, rfl, rfl⟩, rfl⟩

theorem Local.sameElse_close (l : Local) (f : FileId) :
    l.SameElse (l.close f) ∧ (l.close f).raw = (l.setRaw f false).raw := by
  unfold Local.close
  split
  · exact ⟨⟨rfl, rfl, rfl, rfl, rfl⟩, rfl⟩
  · exact ⟨⟨rfl, rfl, rfl, rfl, rfl⟩, rfl⟩

theorem Own.refsOf_dup (hown : Own s p l) (hpre : filePre (.filedup f) l) (g : FileId) :
    refsOf (s.ofile p) (l.dup f) g = refsOf (s.ofile p) l g + one f g := by
  unfold Local.dup
  obtain ⟨-, ⟨howed, -⟩ | ⟨fd, fd', howed, -⟩⟩ := hpre
  · rw [if_pos howed]
    exact refCount_hold l.held g
  · have howe := refCount_owe l.held g (hown.owed fd' f howed)
    rw [if_neg (by rw [howed]; nofun)]
    change refCount (s.ofile p) l.held none g = refCount (s.ofile p) l.held l.owed g + one f g
    rw [howed]
    exact howe.symm

theorem Own.refsOf_close (hown : Own s p l) (hhas : l.Has f) (g : FileId) :
    refsOf (s.ofile p) (l.close f) g + one f g = refsOf (s.ofile p) l g := by
  unfold Local.close
  split
  · rename_i hheld
    exact refCount_drop g hheld
  · rename_i hheld
    obtain hpos | ⟨howed, fd, hknown⟩ := hhas
    · exact absurd hpos hheld
    · change refCount (s.ofile p) l.held l.known g + one f g = refCount (s.ofile p) l.held l.owed g
      rw [hknown, howed]
      exact refCount_owe l.held g (hown.known fd f hknown)

theorem Inv.filedup (hinv : Inv s T) (hlive : s.proc p = .live) (hpre : filePre (.filedup f) (T p)) :
    Inv (s.setFile f { s.file f with ref := (s.file f).ref + 1 }) (update T p ((T p).dup f)) := by
  have hown := hinv.refs.own p
  have hdup := hown.refsOf_dup hpre
  obtain ⟨hsame, hrawEq⟩ := (T p).sameElse_dup f
  obtain ⟨hnraw, hpre⟩ := hpre
  -- the call has a reference, so that nobody else has the file to itself
  have hpos : 0 < refsOf (s.ofile p) (T p) f := by
    obtain ⟨howed, hknown⟩ | ⟨fd, fd', howed, hknown, hne⟩ := hpre
    · exact hown.refsOf_pos (.inr ⟨howed, hknown⟩)
    · apply refCount_pos_of_fd (hown.known fd f hknown)
      rw [howed]
      intro heq
      exact hne (Option.some.inj heq).symm
  have hraw : ∀ q, (T q).raw f = false := by
    intro q
    by_contra hq
    have hqp := hinv.refs.raw_only (by simpa using hq) hpos
    rw [hqp] at hq
    exact hq hnraw
  refine hinv.setFile hlive ?_ nofun ?_ (fun q _ => hraw q) (hinv.pipes.shape f) ?_ hsame.page hsame.child
  · intro g
    have hx := ref_setFile (s := s) (f := f) (x := { s.file f with ref := (s.file f).ref + 1 }) rfl g
    have hdup := hdup g
    omega
  · constructor
    · rw [hsame.known]
      exact hown.known
    · intro fd g hg
      unfold Local.dup at hg
      split at hg
      · exact hown.owed fd g hg
      · cases hg
    · rw [hsame.cleared]
      exact hown.cleared
    · intro g hg
      rw [hrawEq] at hg
      have hgf : g ≠ f := by
        intro heq
        rw [heq, hnraw] at hg
        cases hg
      obtain ⟨href, hnone, hgpos⟩ := hown.raw g hg
      have hdup := hdup g
      rw [file_setFile_of_ne _ hgf]
      refine ⟨href, hnone, ?_⟩
      change 0 < refsOf (s.ofile p) _ g
      omega
  · intro q w
    rw [hsame.ends]
    rfl

theorem Inv.fileclose (hinv : Inv s T) (hlive : s.proc p = .live) (hhas : (T p).Has f) {x : File}
    {ends : Page → Bool → Nat} (href : x.ref + 1 = (s.file f).ref)
    (hfree : x.ref = 0 → x.type = .fdNone) (hshape : x.type = .fdPipe → x.readable = !x.writable)
    (hends : ∀ q w, endTerm x q w + ends q w = endTerm (s.file f) q w + (T p).ends q w) :
    Inv (s.setFile f x) (update T p { (T p).close f with ends := ends }) := by
  have hown := hinv.refs.own p
  have hpos := hown.refsOf_pos hhas
  have hclose := hown.refsOf_close hhas
  obtain ⟨hsame, hrawEq⟩ := (T p).sameElse_close f
  refine hinv.setFile hlive ?_ hfree ?_ ?_ hshape hends hsame.page hsame.child
  · intro g
    have hclose := hclose g
    change _ = _ + refsOf (s.ofile p) ((T p).close f) g
    by_cases hg : g = f
    · subst hg
      rw [file_setFile_self]
      rw [one_self] at hclose
      omega
    · rw [file_setFile_of_ne x hg]
      rw [one_of_ne hg] at hclose
      omega
  · constructor
    · intro fd g hg
      exact hown.known fd g (hsame.known.symm.trans hg)
    · intro fd g hg
      have howed : ((T p).close f).owed = some (fd, g) := hg
      unfold Local.close at howed
      split at howed
      · exact hown.owed fd g howed
      · exact hown.known fd g howed
    · intro fd hfd
      exact hown.cleared fd (Nat.lt_of_lt_of_eq hfd hsame.cleared)
    · intro g hg
      obtain ⟨hgf, hgraw⟩ := raw_setRaw_false ((congrFun hrawEq g).symm.trans hg)
      obtain ⟨hone, hnone, hgpos⟩ := hown.raw g hgraw
      have hclose := hclose g
      rw [one_of_ne hgf] at hclose
      rw [file_setFile_of_ne x hgf]
      refine ⟨hone, hnone, ?_⟩
      change 0 < refsOf (s.ofile p) ((T p).close f) g
      omega
  · intro q hq
    by_contra hraw
    exact hq (hinv.refs.raw_only (by simpa using hraw) hpos)

theorem Inv.fill (hinv : Inv s T) (hlive : s.proc p = .live) (hraw : (T p).raw f = true) {x : File}
    {ends : Page → Bool → Nat} (href : x.ref = (s.file f).ref)
    (hshape : x.type = .fdPipe → x.readable = !x.writable)
    (hends : ∀ q w, endTerm x q w + ends q w = (T p).ends q w) :
    Inv (s.setFile f x) (update T p { (T p).setRaw f false with ends := ends }) := by
  have hown := hinv.refs.own p
  obtain ⟨hone, hnone, hpos⟩ := hown.raw f hraw
  refine hinv.setFile hlive ?_ ?_ ?_ ?_ hshape ?_ rfl rfl
  · intro g
    change _ = _ + refsOf (s.ofile p) (T p) g
    by_cases hg : g = f
    · subst hg
      rw [file_setFile_self, href]
    · rw [file_setFile_of_ne x hg]
  · intro hx
    omega
  · refine ⟨hown.known, hown.owed, hown.cleared, ?_⟩
    intro g hg
    obtain ⟨hgf, hgraw⟩ := raw_setRaw_false (l := T p) hg
    rw [file_setFile_of_ne x hgf]
    exact hown.raw g hgraw
  · intro q hq
    by_contra hqraw
    exact hq (hinv.refs.raw_only (by simpa using hqraw) hpos)
  · intro q w
    have hzero : endTerm (s.file f) q w = 0 := endTerm_other (by rw [hnone]; nofun) q w
    rw [hzero, Nat.zero_add]
    exact hends q w

end File

/-! ### Descriptors -/

section Descriptor

theorem ofile_setOfile_self (x : Option FileId) :
    (s.setOfile p fd x).ofile p = update (s.ofile p) fd x := by
  simp [State.setOfile]

theorem ofile_setOfile_of_ne {q : Slot} (x : Option FileId) (hne : q ≠ p) :
    (s.setOfile p fd x).ofile q = s.ofile q := by
  simp [State.setOfile, update_of_ne hne]

theorem Inv.setOfile (hinv : Inv s T) (hlive : s.proc p = .live) {x : Option FileId}
    (href : ∀ g, refsOf (update (s.ofile p) fd x) l g = refsOf (s.ofile p) (T p) g)
    (hknown : ∀ fd' f, l.known = some (fd', f) → update (s.ofile p) fd x fd' = some f)
    (howed : ∀ fd' f, l.owed = some (fd', f) → update (s.ofile p) fd x fd' = some f)
    (hcleared : ∀ fd' : Fd, fd'.val < l.cleared → update (s.ofile p) fd x fd' = none)
    (hraw : l.raw = (T p).raw) (hends : l.ends = (T p).ends) (hpage : l.page = (T p).page)
    (hchild : l.child = (T p).child) : Inv (s.setOfile p fd x) (update T p l) := by
  have hofile : ∀ q, q ≠ p → (s.setOfile p fd x).ofile q = s.ofile q := fun q hq =>
    ofile_setOfile_of_ne x hq
  constructor
  · refine hinv.refs.change hofile ?_ hinv.refs.free ?_ fun _ _ _ _ => rfl
    · intro g
      rw [ofile_setOfile_self, href]
      rfl
    · constructor
      · rw [ofile_setOfile_self]
        exact hknown
      · rw [ofile_setOfile_self]
        exact howed
      · rw [ofile_setOfile_self]
        exact hcleared
      · intro g hg
        rw [hraw] at hg
        rw [ofile_setOfile_self, href]
        exact (hinv.refs.own p).raw g hg
  · exact hinv.pipes.frame rfl rfl rfl rfl hends hpage
  · exact hinv.table.frame hlive rfl hofile hchild

theorem cleared_clear (hcleared : ∀ fd' : Fd, fd'.val < l.cleared → s.ofile p fd' = none) (fd' : Fd)
    (hlt : fd'.val < (l.clear fd).cleared) : update (s.ofile p) fd none fd' = none := by
  by_cases hfd : fd' = fd
  · rw [hfd, update_self]
  rw [update_of_ne hfd]
  apply hcleared
  have hne : fd'.val ≠ fd.val := fun heq => hfd (Fin.ext heq)
  unfold Local.clear at hlt
  dsimp only at hlt
  split at hlt
  · omega
  · exact hlt

theorem Inv.clearOfile (hinv : Inv s T) (hlive : s.proc p = .live) (hpre : filePre (.clearOfile fd) (T p)) :
    Inv (s.setOfile p fd none) (update T p (fileNext (.clearOfile fd) (T p) ())) := by
  have hown := hinv.refs.own p
  obtain ⟨f, howed⟩ | ⟨howed, f, hknown⟩ := hpre
  · simp only [fileNext, howed]
    refine hinv.setOfile hlive ?_ nofun nofun (cleared_clear hown.cleared) rfl rfl rfl rfl
    intro g
    change refCount _ (T p).held none g = refCount _ (T p).held (T p).owed g
    rw [howed]
    exact refCount_clear_owed (T p).held g
  · simp only [fileNext, howed, hknown]
    refine hinv.setOfile hlive ?_ nofun ?_ (cleared_clear hown.cleared) rfl rfl rfl rfl
    · intro g
      have hclear := refCount_clear (T p).held g (hown.known fd f hknown)
      change refCount _ (update (T p).held f ((T p).held f + 1)) (T p).owed g
        = refCount _ (T p).held (T p).owed g
      rw [howed, refCount_hold]
      exact hclear
    · intro fd' g hg
      exact absurd (howed.symm.trans hg) nofun

theorem Inv.fdalloc (hinv : Inv s T) (hlive : s.proc p = .live) (hpre : filePre (.fdalloc f) (T p))
    (hempty : s.ofile p fd = none) : fileRes (.fdalloc f) (T p) (some fd) ∧
      Inv (s.setOfile p fd (some f)) (update T p (fileNext (.fdalloc f) (T p) (some fd))) := by
  have hown := hinv.refs.own p
  obtain ⟨howed, -⟩ := hpre
  have hne : ∀ fd' g, (T p).known = some (fd', g) → fd' ≠ fd := by
    intro fd' g hg heq
    have hsome := hown.known fd' g hg
    rw [heq, hempty] at hsome
    cases hsome
  refine ⟨hne, ?_⟩
  simp only [fileNext]
  split
  · rename_i hheld
    refine hinv.setOfile hlive ?_ ?_ ?_ nofun rfl rfl rfl rfl
    · intro g
      have hdrop : refCount (update (s.ofile p) fd (some f))
          (update (T p).held f ((T p).held f - 1)) none g + one f g
          = refCount (update (s.ofile p) fd (some f)) (T p).held none g := refCount_drop g hheld
      have hset := refCount_set (f := f) (T p).held g hempty
      change refCount _ (update (T p).held f ((T p).held f - 1)) (T p).owed g
        = refCount _ (T p).held (T p).owed g
      rw [howed]
      omega
    · intro fd' g hg
      cases hg
      exact update_self fd (some f) (s.ofile p)
    · intro fd' g hg
      exact absurd (howed.symm.trans hg) nofun
  · refine hinv.setOfile hlive ?_ ?_ ?_ nofun rfl rfl rfl rfl
    · intro g
      change refCount _ (T p).held (some (fd, f)) g = refCount _ (T p).held (T p).owed g
      rw [howed]
      exact refCount_set_owed (T p).held g hempty
    · intro fd' g hg
      rw [update_of_ne (hne fd' g hg)]
      exact hown.known fd' g hg
    · intro fd' g hg
      cases hg
      exact update_self fd (some f) (s.ofile p)

end Descriptor

/-! ### Local steps -/

structure Local.SameRefs (l l' : Local) : Prop where
  held : l'.held = l.held
  owed : l'.owed = l.owed
  raw : l'.raw = l.raw

theorem Local.SameRefs.refsOf {ofile : Fd → Option FileId} {l' : Local} (hsame : l.SameRefs l') (g : FileId) :
    refsOf ofile l' g = OpenFile.refsOf ofile l g := by
  unfold OpenFile.refsOf
  rw [hsame.held, hsame.owed]

theorem Refs.frame (hrefs : Refs s T) (hfile : s'.file = s.file) (hofile : s'.ofile = s.ofile)
    (hsame : (T p).SameRefs l) (hknown : ∀ fd f, l.known = some (fd, f) → s.ofile p fd = some f)
    (hcleared : ∀ fd : Fd, fd.val < l.cleared → s.ofile p fd = none) : Refs s' (update T p l) := by
  have hown := hrefs.own p
  refine hrefs.change (fun q _ => congrFun hofile q) ?_ (by rw [hfile]; exact hrefs.free) ?_
    fun _ _ g _ => congrFun hfile g
  · intro g
    rw [hfile, hofile, hsame.refsOf]
  · constructor
    · rw [hofile]
      exact hknown
    · rw [hofile, hsame.owed]
      exact hown.owed
    · rw [hofile]
      exact hcleared
    · intro g hg
      rw [hsame.raw] at hg
      rw [hfile, hofile, hsame.refsOf]
      exact hown.raw g hg

theorem Inv.look (hinv : Inv s T) (hlive : s.proc p = .live) (hsame : (T p).SameRefs l)
    (hknown : ∀ fd f, l.known = some (fd, f) → s.ofile p fd = some f)
    (hcleared : ∀ fd : Fd, fd.val < l.cleared → s.ofile p fd = none) (hends : l.ends = (T p).ends)
    (hpage : l.page = (T p).page) (hchild : l.child = (T p).child) : Inv s (update T p l) :=
  ⟨hinv.refs.frame rfl rfl hsame hknown hcleared, hinv.pipes.frame rfl rfl rfl rfl hends hpage,
    hinv.table.frame hlive rfl (fun _ _ => rfl) hchild⟩

theorem Inv.same (hinv : Inv s T) : Inv s (update T p (T p)) := by
  rw [Function.update_eq_self]
  exact hinv

theorem Inv.getOfile (hinv : Inv s T) (hlive : s.proc p = .live) :
    Inv s (update T p (fileNext (.getOfile fd) (T p) (s.ofile p fd))) := by
  have hown := hinv.refs.own p
  cases hfd : s.ofile p fd with
  | none =>
    refine hinv.look hlive ⟨rfl, rfl, rfl⟩ nofun ?_ rfl rfl rfl
    intro fd' hlt
    have hclear := cleared_clear hown.cleared fd' hlt
    rw [← hfd, Function.update_eq_self] at hclear
    exact hclear.trans hfd
  | some f =>
    refine hinv.look hlive ⟨rfl, rfl, rfl⟩ ?_ hown.cleared rfl rfl rfl
    intro fd' g hg
    cases hg
    exact hfd

theorem Inv.ret (hinv : Inv s T) (hlive : s.proc p = .live)
    (hidle : { T p with known := none, cleared := 0 } = Local.idle) : Inv s (update T p Local.idle) := by
  rw [← hidle]
  exact hinv.look hlive ⟨rfl, rfl, rfl⟩ nofun nofun rfl rfl rfl

/-! ### Pages -/

section Page

theorem Inv.ofPipes (hinv : Inv s T) (hlive : s.proc p = .live) (hfile : s'.file = s.file)
    (hofile : s'.ofile = s.ofile) (hproc : s'.proc = s.proc) (hsame : (T p).SameRefs l)
    (helse : l.known = (T p).known ∧ l.cleared = (T p).cleared ∧ l.child = (T p).child)
    (hpipes : Pipes s' (update T p l)) : Inv s' (update T p l) := by
  obtain ⟨hknown, hcleared, hchild⟩ := helse
  have hown := hinv.refs.own p
  refine ⟨?_, hpipes, hinv.table.frame hlive hproc (fun q _ => congrFun hofile q) hchild⟩
  refine hinv.refs.frame hfile hofile hsame ?_ ?_
  · rw [hknown]
    exact hown.known
  · rw [hcleared]
    exact hown.cleared

theorem Pipes.page (hpipes : Pipes s T) (hpage : (T p).page = some q) :
    s.kallocs q = s.kfrees q + 1 ∧ ∀ w, endsOf s T q w = 0 := by
  have hle : pageTerm (T p) q ≤ pagesOf T q := pageTerm_le p
  have hterm := pageTerm_some hpage q
  rw [if_pos rfl] at hterm
  have hpages := hpipes.pages q
  have honce := hpipes.once q
  refine ⟨by omega, ?_⟩
  intro w
  cases w <;> omega

theorem update_succ (count : Page → Nat) (q q' : Page) :
    update count q (count q + 1) q' = count q' + if q = q' then 1 else 0 := by
  by_cases hq : q' = q
  · subst hq
    rw [update_self, if_pos rfl]
  · rw [update_of_ne hq, if_neg (Ne.symm hq), Nat.add_zero]

theorem Inv.kalloc (hinv : Inv s T) (hlive : s.proc p = .live) (hpage : (T p).page = none)
    (hfree : s.IsFree q) (junk : Pipe) :
    Inv (s.takePage q junk) (update T p { T p with page := some q }) := by
  have hends : ∀ q' w, endsOf (s.takePage q junk) (update T p { T p with page := some q }) q' w
      = endsOf s T q' w := endsOf_congr rfl rfl
  have hpages : ∀ q', pagesOf (update T p { T p with page := some q }) q'
      = pagesOf T q' + if q = q' then 1 else 0 := by
    intro q'
    have hupd := pagesOf_update (T := T) (p := p) (q := q') { T p with page := some q }
    rw [pageTerm_none hpage, pageTerm_some rfl] at hupd
    exact hupd
  have hkallocs : ∀ q', (s.takePage q junk).kallocs q' = s.kallocs q' + if q = q' then 1 else 0 :=
    update_succ s.kallocs q
  have hkfrees : ∀ q', (s.takePage q junk).kfrees q' = s.kfrees q' := fun _ => rfl
  have hold := hinv.pipes.pages q
  unfold State.IsFree at hfree
  refine hinv.ofPipes hlive rfl rfl rfl ⟨rfl, rfl, rfl⟩ ⟨rfl, rfl, rfl⟩ ?_
  constructor
  · exact hinv.pipes.shape
  · intro q'
    simp only [hends]
    by_cases hq : q' = q
    · subst hq
      left
      intro w
      cases w <;> omega
    · have hpipe : (s.takePage q junk).pipe q' = s.pipe q' := by
        simp [State.takePage, State.setPipe, update_of_ne hq]
      rw [hpipe]
      exact hinv.pipes.flags q'
  · intro q'
    rw [hends, hends, hpages, hkallocs, hkfrees]
    have hpages := hinv.pipes.pages q'
    omega
  · intro q'
    rw [hkallocs, hkfrees]
    have honce := hinv.pipes.once q'
    split
    · rename_i hq
      subst hq
      omega
    · exact honce

theorem Inv.kfree (hinv : Inv s T) (hlive : s.proc p = .live) (hpage : (T p).page = some q) :
    Inv (s.freePage q) (update T p { T p with page := none }) := by
  have hends : ∀ q' w, endsOf (s.freePage q) (update T p { T p with page := none }) q' w
      = endsOf s T q' w := endsOf_congr rfl rfl
  have hpages : ∀ q', pagesOf (update T p { T p with page := none }) q'
      + (if q = q' then 1 else 0) = pagesOf T q' := by
    intro q'
    have hupd := pagesOf_update (T := T) (p := p) (q := q') { T p with page := none }
    rw [pageTerm_some hpage, pageTerm_none rfl] at hupd
    exact hupd
  have hkallocs : ∀ q', (s.freePage q).kallocs q' = s.kallocs q' := fun _ => rfl
  have hkfrees : ∀ q', (s.freePage q).kfrees q' = s.kfrees q' + if q = q' then 1 else 0 :=
    update_succ s.kfrees q
  refine hinv.ofPipes hlive rfl rfl rfl ⟨rfl, rfl, rfl⟩ ⟨rfl, rfl, rfl⟩ ?_
  constructor
  · exact hinv.pipes.shape
  · intro q'
    simp only [hends]
    exact hinv.pipes.flags q'
  · intro q'
    rw [hends, hends, hkallocs, hkfrees]
    have hpages := hpages q'
    have hold := hinv.pipes.pages q'
    omega
  · intro q'
    rw [hkallocs, hkfrees]
    have honce := hinv.pipes.once q'
    omega

theorem pipe_setPipe_self (x : Pipe) : (s.setPipe q x).pipe q = x := by
  simp [State.setPipe]

theorem pipe_setPipe_of_ne {q' : Page} (x : Pipe) (hne : q' ≠ q) : (s.setPipe q x).pipe q' = s.pipe q' := by
  simp [State.setPipe, update_of_ne hne]

theorem endsOf_setPipe (x : Pipe) (T : Slot → Local) (q' : Page) (w' : Bool) :
    endsOf (s.setPipe q x) T q' w' = endsOf s T q' w' := by
  have hfile : (s.setPipe q x).file = s.file := rfl
  exact endsOf_of_file_eq hfile T q' w'

theorem oneEnd_of_ne {q' : Page} {w' : Bool} (hne : q' ≠ q) : oneEnd q w q' w' = 0 :=
  if_neg fun heq => hne heq.1.symm

theorem Pipes.pipeinit (hpipes : Pipes s T) (hpage : (T p).page = some q) (hnone : l.page = none)
    (hl : ∀ q' w, l.ends q' w = (T p).ends q' w + oneEnd q false q' w + oneEnd q true q' w) :
    Pipes (s.setPipe q { readopen := true, writeopen := true }) (update T p l) := by
  obtain ⟨halloc, hzero⟩ := hpipes.page hpage
  have hends : ∀ q' w, endsOf (s.setPipe q { readopen := true, writeopen := true }) (update T p l) q' w
      = endsOf s T q' w + (oneEnd q false q' w + oneEnd q true q' w) := by
    intro q' w
    have hupd := endsOf_update (s := s) (T := T) (p := p) (q := q') (w := w) l
    have hl := hl q' w
    rw [endsOf_setPipe]
    omega
  have hpages : ∀ q', pagesOf (update T p l) q' + (if q = q' then 1 else 0) = pagesOf T q' := by
    intro q'
    have hupd := pagesOf_update (T := T) (p := p) (q := q') l
    rw [pageTerm_some hpage, pageTerm_none hnone] at hupd
    exact hupd
  constructor
  · exact hpipes.shape
  · intro q'
    simp only [hends]
    by_cases hq : q' = q
    · subst hq
      right
      intro w
      rw [hzero, pipe_setPipe_self]
      cases w <;> simp [oneEnd, Pipe.isOpen]
    · simp only [oneEnd_of_ne hq, Nat.add_zero, pipe_setPipe_of_ne _ hq]
      exact hpipes.flags q'
  · intro q'
    have hpages := hpages q'
    have hold := hpipes.pages q'
    change s.kallocs q' = s.kfrees q' + _ + _
    rw [hends, hends]
    by_cases hq : q' = q
    · subst hq
      have hfalse := hzero false
      have htrue := hzero true
      simp only [oneEnd, true_and, if_true, reduceCtorEq, if_false] at hpages ⊢
      omega
    · rw [if_neg (Ne.symm hq)] at hpages
      simp only [oneEnd_of_ne hq]
      omega
  · exact hpipes.once

theorem Inv.pipeinit (hinv : Inv s T) (hlive : s.proc p = .live) (hpage : (T p).page = some q) :
    Inv (s.setPipe q { readopen := true, writeopen := true })
      (update T p { ((T p).addEnd q false).addEnd q true with page := none }) := by
  refine hinv.ofPipes hlive rfl rfl rfl ⟨rfl, rfl, rfl⟩ ⟨rfl, rfl, rfl⟩ ?_
  apply hinv.pipes.pipeinit hpage rfl
  intro q' w
  have hfalse := ends_addEnd (T p) q q' false w
  have htrue := ends_addEnd ((T p).addEnd q false) q q' true w
  exact htrue.trans (by rw [hfalse])

theorem isOpen_close_self (x : Pipe) (w : Bool) : (x.close w).isOpen w = false := by
  cases w <;> rfl

theorem isOpen_close_of_ne (x : Pipe) {w w' : Bool} (hne : w' ≠ w) :
    (x.close w).isOpen w' = x.isOpen w' := by
  cases w <;> cases w' <;> first | rfl | exact absurd rfl hne

/-- An end that a call has in hand is open, and it is the only one of its kind. -/
theorem Pipes.inHand (hpipes : Pipes s T) (hends : 0 < (T p).ends q w) :
    endsOf s T q w = 1 ∧ ∀ w', endsOf s T q w' = ((s.pipe q).isOpen w').toNat := by
  have hpos : 0 < endsOf s T q w := by
    have hupd := endsOf_update (s := s) (T := T) (p := p) (q := q) (w := w) .idle
    have hidle : Local.idle.ends q w = 0 := rfl
    omega
  obtain hzero | hflags := hpipes.flags q
  · have hzero := hzero w
    omega
  · have hle := Bool.toNat_le ((s.pipe q).isOpen w)
    have hw := hflags w
    exact ⟨by omega, hflags⟩

theorem Pipes.pipeclose (hpipes : Pipes s T) (hnone : (T p).page = none) (hpos : 0 < (T p).ends q w)
    {last : Bool} (hlast : last = !((s.pipe q).isOpen !w))
    (hl : ∀ q' w', l.ends q' w' + oneEnd q w q' w' = (T p).ends q' w')
    (hpage : l.page = if last then some q else none) :
    Pipes (s.setPipe q ((s.pipe q).close w)) (update T p l) := by
  obtain ⟨hone, hflags⟩ := hpipes.inHand hpos
  have hends : ∀ q' w', endsOf (s.setPipe q ((s.pipe q).close w)) (update T p l) q' w' + oneEnd q w q' w'
      = endsOf s T q' w' := by
    intro q' w'
    have hupd := endsOf_update (s := s) (T := T) (p := p) (q := q') (w := w') l
    have hl := hl q' w'
    rw [endsOf_setPipe]
    omega
  have hself : oneEnd q w q w = 1 := if_pos ⟨rfl, rfl⟩
  have hnot : oneEnd q w q (!w) = 0 := if_neg fun heq => by cases w <;> cases heq.2
  have hpages : ∀ q', pagesOf (update T p l) q' = pagesOf T q' + if last = true ∧ q = q' then 1 else 0 := by
    intro q'
    have hupd := pagesOf_update (T := T) (p := p) (q := q') l
    rw [pageTerm_none hnone] at hupd
    cases last with
    | false =>
      rw [pageTerm_none hpage] at hupd
      simpa using hupd
    | true =>
      rw [pageTerm_some hpage] at hupd
      simpa using hupd
  constructor
  · exact hpipes.shape
  · intro q'
    by_cases hq : q' = q
    · subst hq
      right
      intro w'
      have hends := hends q' w'
      rw [pipe_setPipe_self]
      by_cases hw : w' = w
      · subst hw
        rw [isOpen_close_self, Bool.toNat_false]
        omega
      · rw [isOpen_close_of_ne _ hw, ← hflags w']
        have hzero : oneEnd q' w q' w' = 0 := if_neg fun heq => hw heq.2.symm
        omega
    · rw [pipe_setPipe_of_ne _ hq]
      have hsame : ∀ w', endsOf (s.setPipe q ((s.pipe q).close w)) (update T p l) q' w' = endsOf s T q' w' := by
        intro w'
        have hends := hends q' w'
        rwa [oneEnd_of_ne hq] at hends
      simp only [hsame]
      exact hpipes.flags q'
  · intro q'
    have hold := hpipes.pages q'
    have hfalse := hends q' false
    have htrue := hends q' true
    rw [hpages]
    change s.kallocs q' = s.kfrees q' + _ + _
    by_cases hq : q' = q
    · subst hq
      have hother := hflags !w
      have hendsw := hends q' w
      have hendsn := hends q' !w
      cases hopen : (s.pipe q').isOpen !w with
      | false =>
        rw [hopen] at hlast hother
        subst hlast
        simp only [Bool.toNat_false] at hother
        cases w <;> simp only [Bool.not_false, Bool.not_true, and_self, if_true] at * <;> omega
      | true =>
        rw [hopen] at hlast hother
        subst hlast
        simp only [Bool.toNat_true] at hother
        cases w <;> simp only [Bool.not_false, Bool.not_true, reduceCtorEq, false_and, if_false] at * <;> omega
    · rw [oneEnd_of_ne hq] at hfalse htrue
      rw [if_neg fun heq => hq heq.2.symm]
      omega
  · exact hpipes.once

theorem Inv.pipeclose (hinv : Inv s T) (hlive : s.proc p = .live) (hpre : filePre (.pipeclose q w) (T p)) :
    Inv (s.setPipe q ((s.pipe q).close w)) (update T p (fileNext (.pipeclose q w) (T p)
        (!((s.pipe q).close w).readopen && !((s.pipe q).close w).writeopen))) := by
  obtain ⟨hnone, hpos⟩ := hpre
  have hlast : (!((s.pipe q).close w).readopen && !((s.pipe q).close w).writeopen)
      = !((s.pipe q).isOpen !w) := by
    cases w <;> simp [Pipe.close, Pipe.isOpen]
  rw [hlast]
  have hends := ends_dropEnd hpos
  simp only [fileNext]
  cases hopen : (s.pipe q).isOpen !w with
  | true =>
    refine hinv.ofPipes hlive rfl rfl rfl ⟨rfl, rfl, rfl⟩ ⟨rfl, rfl, rfl⟩ ?_
    have hkept : false = !((s.pipe q).isOpen !w) := by rw [hopen]; rfl
    exact hinv.pipes.pipeclose hnone hpos hkept hends hnone
  | false =>
    refine hinv.ofPipes hlive rfl rfl rfl ⟨rfl, rfl, rfl⟩ ⟨rfl, rfl, rfl⟩ ?_
    have hgone : true = !((s.pipe q).isOpen !w) := by rw [hopen]; rfl
    exact hinv.pipes.pipeclose hnone hpos hgone hends rfl

end Page

end Xv6.OpenFile
