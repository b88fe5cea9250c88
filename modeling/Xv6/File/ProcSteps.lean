import Xv6.File.Steps

/-!
# Processes that come and go

`allocproc`, the entry that `fork` and `thread_create` fill in, `exit`, and the reaping of zombies keep
the accounts; and so does every operation.
-/

namespace Xv6.OpenFile

open Function (update update_self update_of_ne)

variable {s s' : State} {T T' : Slot → Local} {p np r : Slot} {l : Local} {f : FileId} {fd : Fd}

theorem Table.setProc (htable : Table s T) (hlive : s.proc p = .live) {x : ProcState}
    (hproc : s'.proc = update s.proc r x) (hofile : s'.ofile = s.ofile)
    (hidle : x ≠ .live → T' r = Local.idle) (hempty : x = .unused ∨ x = .zombie → ∀ fd, s.ofile r fd = none)
    (hT : ∀ q, q ≠ p → T' q = T q)
    (hchild : ∀ q np k, (T' q).child = some (np, k) → (T q).child = some (np, k) ∧ np ≠ r) :
    Table s' T' := by
  have hother : ∀ q, q ≠ r → s'.proc q = s.proc q := by
    intro q hq
    rw [hproc, update_of_ne hq]
  have hself : s'.proc r = x := by rw [hproc, update_self]
  constructor
  · intro q hq
    by_cases hqr : q = r
    · subst hqr
      rw [hself] at hq
      exact hidle hq
    · rw [hother q hqr] at hq
      have hqp : q ≠ p := fun heq => hq (heq ▸ hlive)
      rw [hT q hqp]
      exact htable.idle q hq
  · intro q hq
    rw [hofile]
    by_cases hqr : q = r
    · subst hqr
      rw [hself] at hq
      exact hempty hq
    · rw [hother q hqr] at hq
      exact htable.empty q hq
  · intro q np k hnp
    obtain ⟨hold, hne⟩ := hchild q np k hnp
    rw [hofile, hother np hne]
    exact htable.child q np k hold
  · intro q q' np k k' hq hq'
    exact htable.unique q q' np k k' (hchild q np k hq).1 (hchild q' np k' hq').1

theorem Inv.child_idle (hinv : Inv s T) (hlive : s.proc p = .live) {k : Nat}
    (hchild : (T p).child = some (np, k)) : np ≠ p ∧ T np = Local.idle := by
  obtain ⟨hembryo, -⟩ := hinv.table.child p np k hchild
  have hne : s.proc np ≠ .live := by
    rw [hembryo]
    nofun
  exact ⟨fun heq => hne (heq ▸ hlive), hinv.table.idle np hne⟩

theorem Inv.frameProc (hinv : Inv s T) {x : ProcState} {child : Option (Slot × Nat)}
    (htable : Table (s.setProc r x) (update T p { T p with child := child })) :
    Inv (s.setProc r x) (update T p { T p with child := child }) := by
  have hown := hinv.refs.own p
  exact ⟨hinv.refs.frame rfl rfl ⟨rfl, rfl, rfl⟩ hown.known hown.cleared,
    hinv.pipes.frame rfl rfl rfl rfl rfl rfl, htable⟩

section

variable (hinv : Inv s T) (hlive : s.proc p = .live)
include hinv hlive

theorem Inv.allocproc (hunused : s.proc np = .unused) :
    Inv (s.embryo np) (update T p { T p with child := some (np, 0) }) := by
  have hown := hinv.refs.own p
  have hnp : np ≠ p := by
    intro heq
    rw [heq, hlive] at hunused
    cases hunused
  -- nobody fills in an unused entry
  have hfresh : ∀ q k, (T q).child ≠ some (np, k) := by
    intro q k hq
    have hembryo := (hinv.table.child q np k hq).1
    rw [hunused] at hembryo
    cases hembryo
  have hother : ∀ q, q ≠ np → (s.embryo np).proc q = s.proc q := by
    intro q hq
    simp [State.embryo, State.setProc, update_of_ne hq]
  have hself : (s.embryo np).proc np = .embryo := by simp [State.embryo, State.setProc]
  refine ⟨hinv.refs.frame rfl rfl ⟨rfl, rfl, rfl⟩ hown.known hown.cleared,
    hinv.pipes.frame rfl rfl rfl rfl rfl rfl, ?_⟩
  constructor
  · intro q hq
    by_cases hqnp : q = np
    · subst hqnp
      rw [update_of_ne hnp]
      exact hinv.table.idle q (by rw [hunused]; nofun)
    · rw [hother q hqnp] at hq
      have hqp : q ≠ p := fun heq => hq (heq ▸ hlive)
      rw [update_of_ne hqp]
      exact hinv.table.idle q hq
  · intro q hq
    have hqnp : q ≠ np := by
      intro heq
      rw [heq, hself] at hq
      cases hq <;> contradiction
    rw [hother q hqnp] at hq
    exact hinv.table.empty q hq
  · intro q np' k hq
    by_cases hqp : q = p
    · subst hqp
      rw [update_self] at hq
      cases hq
      exact ⟨hself, fun fd _ => hinv.table.empty np (.inl hunused) fd⟩
    · rw [update_of_ne hqp] at hq
      rw [hother np' fun heq => hfresh q k (heq ▸ hq)]
      exact hinv.table.child q np' k hq
  · intro q q' np' k k' hq hq'
    by_cases hqp : q = p
    · by_cases hqp' : q' = p
      · rw [hqp, hqp']
      · subst hqp
        rw [update_self] at hq
        rw [update_of_ne hqp'] at hq'
        cases hq
        exact absurd hq' (hfresh q' k')
    · rw [update_of_ne hqp] at hq
      by_cases hqp' : q' = p
      · subst hqp'
        rw [update_self] at hq'
        cases hq'
        exact absurd hq (hfresh q k)
      · rw [update_of_ne hqp'] at hq'
        exact hinv.table.unique q q' np' k k' hq hq'

theorem Inv.giveUp {k : Nat} {x : ProcState} (hchild : (T p).child = some (np, k))
    (hx : x = .live ∨ (x = .unused ∧ k = 0)) :
    Inv (s.setProc np x) (update T p { T p with child := none }) := by
  obtain ⟨hnp, hidle⟩ := hinv.child_idle hlive hchild
  obtain ⟨-, hempty⟩ := hinv.table.child p np k hchild
  apply hinv.frameProc
  refine hinv.table.setProc hlive rfl rfl ?_ ?_ (fun q hq => update_of_ne hq _ T) ?_
  · intro _
    rw [update_of_ne hnp]
    exact hidle
  · intro hgone fd
    obtain hx | ⟨-, hk⟩ := hx
    · rw [hx] at hgone
      cases hgone <;> contradiction
    · exact hempty fd (by omega)
  · intro q np' k' hq
    by_cases hqp : q = p
    · subst hqp
      rw [update_self] at hq
      cases hq
    · rw [update_of_ne hqp] at hq
      refine ⟨hq, ?_⟩
      intro heq
      rw [heq] at hq
      exact hqp (hinv.table.unique q p np k' k hq hchild)

theorem Inv.reap (hzombie : s.proc r = .zombie) (pid : Slot → Nat) :
    Inv { s.setProc r .unused with pid := pid } (update T p (T p)) := by
  have hown := hinv.refs.own p
  refine ⟨hinv.refs.frame rfl rfl ⟨rfl, rfl, rfl⟩ hown.known hown.cleared,
    hinv.pipes.frame rfl rfl rfl rfl rfl rfl, ?_⟩
  rw [Function.update_eq_self]
  refine hinv.table.setProc hlive rfl rfl ?_ ?_ (fun _ _ => rfl) ?_
  · intro _
    exact hinv.table.idle r (by rw [hzombie]; nofun)
  · intro _
    exact hinv.table.empty r (.inr hzombie)
  · intro q np k hq
    refine ⟨hq, ?_⟩
    intro heq
    have hembryo := (hinv.table.child q np k hq).1
    rw [heq, hzombie] at hembryo
    cases hembryo

theorem Inv.zombie (hpre : filePre .zombie (T p)) : Inv (s.setProc p .zombie) (update T p Local.idle) := by
  obtain ⟨hidle, hcleared⟩ := hpre
  have hown := hinv.refs.own p
  rw [← hidle]
  refine ⟨hinv.refs.frame rfl rfl ⟨rfl, rfl, rfl⟩ nofun nofun, hinv.pipes.frame rfl rfl rfl rfl rfl rfl, ?_⟩
  refine hinv.table.setProc hlive rfl rfl ?_ ?_ (fun q hq => update_of_ne hq _ T) ?_
  · intro _
    rw [update_self]
    exact hidle
  · intro _ fd
    exact hown.cleared fd (by rw [hcleared]; exact fd.isLt)
  · intro q np k hq
    by_cases hqp : q = p
    · subst hqp
      rw [update_self, hidle] at hq
      cases hq
    · rw [update_of_ne hqp] at hq
      refine ⟨hq, ?_⟩
      intro heq
      have hembryo := (hinv.table.child q np k hq).1
      rw [heq, hlive] at hembryo
      cases hembryo

end

/-! ### A descriptor of the child -/

section Child

variable {k : Nat} (hinv : Inv s T) (hlive : s.proc p = .live) (hchild : (T p).child = some (np, k))
  (hk : k ≤ fd.val)

include hinv hlive hchild hk

theorem Inv.refs_setChild (hheld : 0 < (T p).held f) (hraw : (T p).raw f = false)
    (hrefs : ∀ ofile g, refsOf ofile l g = refsOf ofile ((T p).drop f) g) (hknown : l.known = (T p).known)
    (howed : l.owed = (T p).owed) (hcleared : l.cleared = (T p).cleared) (hrawEq : l.raw = (T p).raw) :
    Refs (s.setOfile np fd (some f)) (update T p l) := by
  obtain ⟨hnp, hidle⟩ := hinv.child_idle hlive hchild
  obtain ⟨-, hempty⟩ := hinv.table.child p np k hchild
  have hown := hinv.refs.own p
  have hofile : ∀ q, q ≠ np → (s.setOfile np fd (some f)).ofile q = s.ofile q := fun q hq =>
    ofile_setOfile_of_ne (some f) hq
  have hdrop : ∀ g, refsOf (s.ofile p) ((T p).drop f) g + one f g = refsOf (s.ofile p) (T p) g := fun g =>
    refCount_drop g hheld
  have hset : ∀ g, refsOf (update (s.ofile np) fd (some f)) (T np) g
      = refsOf (s.ofile np) (T np) g + one f g := by
    intro g
    rw [hidle]
    exact refCount_set _ g (hempty fd hk)
  constructor
  · intro g
    -- first the caller drops its reference, then the child gets one
    have hcaller : ∀ q, q ≠ p → refsOf (s.ofile q) (update T p l q) g = refsOf (s.ofile q) (T q) g := by
      intro q hq
      rw [update_of_ne hq]
    have hcallee : ∀ q, q ≠ np → refsOf ((s.setOfile np fd (some f)).ofile q) (update T p l q) g
        = refsOf (s.ofile q) (update T p l q) g := by
      intro q hq
      rw [hofile q hq]
    have hfirst := sum_add_of_eq_except hcaller
    have hsecond := sum_add_of_eq_except hcallee
    rw [update_self, hrefs] at hfirst
    rw [update_of_ne hnp, ofile_setOfile_self] at hsecond
    have hdrop := hdrop g
    have hset := hset g
    have href := hinv.refs.ref g
    change (s.file g).ref = _
    omega
  · exact hinv.refs.free
  · intro q
    by_cases hqp : q = p
    · subst hqp
      rw [update_self]
      have hsame := hofile q (Ne.symm hnp)
      refine ⟨?_, ?_, ?_, ?_⟩ <;> rw [hsame]
      · rw [hknown]
        exact hown.known
      · rw [howed]
        exact hown.owed
      · rw [hcleared]
        exact hown.cleared
      · intro g hg
        rw [hrawEq] at hg
        have hgf : g ≠ f := by
          intro heq
          rw [heq, hraw] at hg
          cases hg
        obtain ⟨hone, hnone, hpos⟩ := hown.raw g hg
        have hdrop := hdrop g
        rw [one_of_ne hgf] at hdrop
        rw [hrefs]
        exact ⟨hone, hnone, by omega⟩
    · rw [update_of_ne hqp]
      by_cases hqnp : q = np
      · subst hqnp
        rw [hidle]
        exact ⟨nofun, nofun, nofun, nofun⟩
      · have hold := hinv.refs.own q
        have hsame := hofile q hqnp
        refine ⟨?_, ?_, ?_, ?_⟩ <;> rw [hsame]
        · exact hold.known
        · exact hold.owed
        · exact hold.cleared
        · exact hold.raw

theorem Inv.table_setChild (hl : l.child = some (np, fd.val + 1)) :
    Table (s.setOfile np fd (some f)) (update T p l) := by
  obtain ⟨hembryo, hempty⟩ := hinv.table.child p np k hchild
  have hofile : ∀ q, q ≠ np → (s.setOfile np fd (some f)).ofile q = s.ofile q := fun q hq =>
    ofile_setOfile_of_ne (some f) hq
  have hkeep : ∀ q np' k', (update T p l q).child = some (np', k') → ∃ k, (T q).child = some (np', k) := by
    intro q np' k' hq
    by_cases hqp : q = p
    · subst hqp
      rw [update_self, hl] at hq
      cases hq
      exact ⟨k, hchild⟩
    · rw [update_of_ne hqp] at hq
      exact ⟨k', hq⟩
  constructor
  · intro q hq
    have hqp : q ≠ p := fun heq => hq (heq ▸ hlive)
    rw [update_of_ne hqp]
    exact hinv.table.idle q hq
  · intro q hq
    change s.proc q = _ ∨ s.proc q = _ at hq
    have hqnp : q ≠ np := by
      intro heq
      rw [heq, hembryo] at hq
      cases hq <;> contradiction
    rw [hofile q hqnp]
    exact hinv.table.empty q hq
  · intro q np' k' hq
    by_cases hqp : q = p
    · subst hqp
      rw [update_self, hl] at hq
      cases hq
      refine ⟨hembryo, ?_⟩
      intro fd' hle
      have hne : fd' ≠ fd := by
        intro heq
        rw [heq] at hle
        omega
      rw [ofile_setOfile_self, update_of_ne hne]
      exact hempty fd' (by omega)
    · rw [update_of_ne hqp] at hq
      have hne : np' ≠ np := by
        intro heq
        rw [heq] at hq
        exact hqp (hinv.table.unique q p np k' k hq hchild)
      rw [hofile np' hne]
      exact hinv.table.child q np' k' hq
  · intro q q' np' k₁ k₂ hq hq'
    obtain ⟨k₁', hq⟩ := hkeep q np' k₁ hq
    obtain ⟨k₂', hq'⟩ := hkeep q' np' k₂ hq'
    exact hinv.table.unique q q' np' k₁' k₂' hq hq'

end Child

theorem Inv.setChild (hinv : Inv s T) (hlive : s.proc p = .live)
    (hpre : filePre (.setChild np fd f) (T p)) :
    Inv (s.setOfile np fd (some f)) (update T p { (T p).drop f with child := some (np, fd.val + 1) }) := by
  obtain ⟨⟨k, hchild, hk⟩, hheld, hraw⟩ := hpre
  exact ⟨hinv.refs_setChild hlive hchild hk hheld hraw (fun _ _ => rfl) rfl rfl rfl rfl,
    hinv.pipes.frame rfl rfl rfl rfl rfl rfl, hinv.table_setChild hlive hchild hk rfl⟩

/-! ### Every operation -/

theorem firstFile_ref (hfirst : s.firstFile = some f) : (s.file f).ref = 0 := by
  have hsome := List.find?_some hfirst
  simpa using hsome

theorem firstFd_empty (hfirst : s.firstFd p = some fd) : s.ofile p fd = none := by
  have hsome := List.find?_some hfirst
  simpa using hsome

theorem firstProc_unused (hfirst : s.firstProc = some np) : s.proc np = .unused := by
  have hsome := List.find?_some hfirst
  simpa using hsome

theorem Inv.exec (hinv : Inv s T) {ch : Choice} {o : Op} {res : o.Res} (hpre : filePre o (T p))
    (hexec : exec ch p o s = some (res, s')) :
    fileRes o (T p) res ∧ Inv s' (update T p (fileNext o (T p) res)) := by
  have hlive : s.proc p = .live := by
    by_contra hne
    unfold OpenFile.exec at hexec
    rw [if_neg hne] at hexec
    cases hexec
  unfold OpenFile.exec at hexec
  rw [if_pos hlive] at hexec
  cases o with
  | filealloc =>
    dsimp only at hexec
    split at hexec <;> cases hexec
    · rename_i f hfirst
      exact hinv.filealloc hlive (firstFile_ref hfirst)
    · exact ⟨trivial, hinv.same⟩
  | filedup f =>
    dsimp only at hexec
    split at hexec <;> cases hexec
    exact ⟨trivial, hinv.filedup hlive hpre⟩
  | fileclose f =>
    dsimp only at hexec
    split at hexec
    · cases hexec
    rename_i href
    split at hexec <;> cases hexec
    · rename_i hmore
      refine ⟨trivial, ?_⟩
      have hsame := ((T p).sameElse_close f).1
      have hclose := hinv.fileclose (x := { s.file f with ref := (s.file f).ref - 1 }) hlive hpre
        (by dsimp only; omega) (fun hzero => absurd hmore (by dsimp only at hzero; omega))
        (hinv.pipes.shape f) (fun q w => rfl)
      rw [← hsame.ends] at hclose
      exact hclose
    · rename_i hlast
      refine ⟨trivial, ?_⟩
      have hsame := ((T p).sameElse_close f).1
      have hzero : ∀ q w, endTerm { s.file f with ref := 0, type := .fdNone } q w = 0 :=
        endTerm_other (by rintro ⟨⟩)
      simp only [fileNext]
      split
      · rename_i hpipe
        refine hinv.fileclose hlive hpre (by dsimp only; omega) (fun _ => rfl) (by rintro ⟨⟩) ?_
        intro q w
        have hadd := ends_addEnd ((T p).close f) (s.file f).pipe q (s.file f).writable w
        rw [hsame.ends] at hadd
        change _ + (((T p).close f).addEnd (s.file f).pipe (s.file f).writable).ends q w = _
        rw [hzero, endTerm_pipe hpipe]
        omega
      · rename_i hother
        have hclose := hinv.fileclose (x := { s.file f with ref := 0, type := .fdNone }) hlive hpre
          (by dsimp only; omega) (fun _ => rfl) (by rintro ⟨⟩) (fun q w => by rw [hzero, endTerm_other hother])
        rw [← hsame.ends] at hclose
        exact hclose
  | setFile f c =>
    cases hexec
    refine ⟨trivial, ?_⟩
    cases c with
    | pipe q w =>
      obtain ⟨hraw, hpos⟩ := hpre
      refine hinv.fill hlive hraw rfl (fun _ => rfl) ?_
      intro q' w'
      have hdrop := ends_dropEnd (l := (T p).setRaw f false) hpos q' w'
      rw [endTerm_pipe rfl]
      exact (Nat.add_comm _ _).trans hdrop
    | inode readable writable =>
      refine hinv.fill hlive hpre rfl (by rintro ⟨⟩) ?_
      intro q w
      rw [endTerm_other (x := Content.apply (.inode readable writable) (s.file f)) (by rintro ⟨⟩)]
      exact Nat.zero_add _
  | getOfile fd =>
    cases hexec
    exact ⟨trivial, hinv.getOfile hlive⟩
  | clearOfile fd =>
    cases hexec
    exact ⟨trivial, hinv.clearOfile hlive hpre⟩
  | fdalloc f =>
    dsimp only at hexec
    split at hexec <;> cases hexec
    · rename_i fd hfirst
      exact hinv.fdalloc hlive hpre (firstFd_empty hfirst)
    · exact ⟨trivial, hinv.same⟩
  | kalloc =>
    dsimp only at hexec
    split at hexec
    · cases hexec
      refine ⟨trivial, ?_⟩
      have hnone : (T p).page = none := hpre
      have hsame : { T p with page := none } = T p := by rw [← hnone]
      simp only [fileNext, hsame]
      exact hinv.same
    · split at hexec <;> cases hexec
      rename_i hfree
      exact ⟨trivial, hinv.kalloc hlive hpre hfree ch.junk⟩
  | kfree q =>
    cases hexec
    exact ⟨trivial, hinv.kfree hlive hpre⟩
  | pipeinit q =>
    cases hexec
    exact ⟨trivial, hinv.pipeinit hlive hpre⟩
  | pipeclose q w =>
    cases hexec
    exact ⟨trivial, hinv.pipeclose hlive hpre⟩
  | allocproc =>
    dsimp only at hexec
    split at hexec <;> cases hexec
    · rename_i np hfirst
      exact ⟨trivial, hinv.allocproc hlive (firstProc_unused hfirst)⟩
    · exact ⟨trivial, hinv.same⟩
  | abortproc np =>
    cases hexec
    exact ⟨trivial, hinv.giveUp hlive hpre (.inr ⟨rfl, rfl⟩)⟩
  | setChild np fd f =>
    cases hexec
    exact ⟨trivial, hinv.setChild hlive hpre⟩
  | ready np =>
    cases hexec
    obtain ⟨k, hchild⟩ := hpre
    exact ⟨trivial, hinv.giveUp hlive hchild (.inl rfl)⟩
  | zombie =>
    cases hexec
    exact ⟨trivial, hinv.zombie hlive hpre⟩
  | reap q =>
    dsimp only at hexec
    split at hexec <;> cases hexec
    rename_i hzombie
    exact ⟨trivial, hinv.reap hlive hzombie _⟩
  | kstack | copyuvm | namei =>
    cases hexec
    exact ⟨trivial, hinv.same⟩
  | ret v =>
    cases hexec
    exact ⟨trivial, hinv.ret hlive hpre⟩

end Xv6.OpenFile
