import Xv6.Memory.Model
import Xv6.Ptable.Phase

/-!
# What a step does to memory

Every step that is no error is one of a few changes of what the entries hold.
-/

namespace Xv6.Memory

open Function (update)

open Vm Ptable

namespace State

inductive Effect (kmap : Kmap) (s : State) : Ptable.Act → Option Change → State → Prop
  | none (a : Ptable.Act) : Effect kmap s a none s
  | stack (p np : Slot) (call : Create) (f : Frame) (k : Kmem)
      (hpc : (s.table.proc p).pc = .kstack call np) (hk : s.kmem.kalloc = some (f, k)) :
      Effect kmap s (.kstack p true) .none { s with kstack := update s.kstack np (some f), kmem := k }
  | noStack (a : Ptable.Act) (p np : Slot) : Effect kmap s a (some (.drop p np))
        { s with kstack := update s.kstack np .none, kmem := s.kmem.refused }
  | thread (a : Ptable.Act) (p np : Slot) (hp : (s.table.proc p).phase = .live) :
      Effect kmap s a (some (.fill .threadCreate p np)) (s.shareSpace p np)
  | fork (a : Ptable.Act) (p np : Slot) (i : Nat) (src d : Pgdir) (k : Kmem)
      (hp : (s.table.proc p).phase = .live) (hpgdir : s.pgdir p = some i) (hsrc : s.dir i = some src)
      (hcopy : copyuvm kmap src (s.sz p) s.kmem = .ok (some d, k)) :
      Effect kmap s a (some (.fill .fork p np)) (s.addSpace np d (s.sz p) k)
  | noFork (a : Ptable.Act) (p np : Slot) (i : Nat) (src : Pgdir) (k : Kmem) (f : Frame)
      (hcopy : copyuvm kmap src (s.sz p) s.kmem = .ok (.none, k)) (hstack : s.kstack np = some f) :
      Effect kmap s a (some (.drop p np))
        { s with
          pgdir := update s.pgdir np .none
          kstack := update s.kstack np .none
          kmem := k.kfree f }
  | wait (a : Ptable.Act) (p q : Slot) (f : Frame) (i : Nat) (d : Pgdir) (k : Kmem)
      (hstack : s.kstack q = some f) (hpgdir : s.pgdir q = some i) (hdir : s.dir i = some d)
      (hfree : freevm d (s.kmem.kfree f) = .ok k) : Effect kmap s a (some (.collect .wait p q))
        { s with
          kstack := update s.kstack q .none
          dir := update s.dir i .none
          kmem := k }
  | join (a : Ptable.Act) (p q : Slot) : Effect kmap s a (some (.collect .threadJoin p q))
        { s with kstack := update s.kstack q .none }

inductive Call (kmap : Kmap) (s : State) : Act → State → Prop
  | noExec (p : Slot) (phdrs : List Proghdr) (args : Bool) (k : Kmem)
      (himage : execImage kmap phdrs args s.kmem = .ok (none, k)) :
      Call kmap s (.exec p phdrs args) { s with kmem := k }
  | exec (p : Slot) (phdrs : List Proghdr) (args : Bool) (d : Pgdir) (sz : Nat) (k : Kmem) (i : Nat)
      (old : Pgdir) (k' : Kmem) (hp : (s.table.proc p).phase = .live)
      (himage : execImage kmap phdrs args s.kmem = .ok (some (d, sz), k))
      (hpgdir : s.pgdir p = some i) (hold : (s.addSpace p d sz k).dir i = some old)
      (hfree : freevm old k = .ok k') : Call kmap s (.exec p phdrs args)
        { s.addSpace p d sz k with
          dir := update (s.addSpace p d sz k).dir i none
          kmem := k' }
  | sbrk (p : Slot) (n : BitVec 32) (i : Nat) (d : Pgdir) (r : Int) (sz : Nat) (d' : Pgdir) (k : Kmem)
      (hp : (s.table.proc p).phase = .live) (hpgdir : s.pgdir p = some i) (hdir : s.dir i = some d)
      (hgrow : growproc n (s.sz p) d s.kmem = .ok (r, sz, d', k)) : Call kmap s (.sbrk p n)
        { s with
          sz := update s.sz p sz
          dir := update s.dir i (some d')
          kmem := k }
  | noPipe (p : Slot) : Call kmap s (.pipe p) { s with kmem := s.kmem.refused }
  | pipe (p : Slot) (f : Frame) (k : Kmem) (hk : s.kmem.kalloc = some (f, k)) : Call kmap s (.pipe p)
        { s with
          pipe := update s.pipe f (some { readopen := true, writeopen := true })
          kmem := k }
  | closeEnd (f : Frame) (writable : Bool) (x x' : Pipe) (hpipe : s.pipe f = some x) :
      Call kmap s (.pipeclose f writable) { s with pipe := update s.pipe f (some x') }
  | closePipe (f : Frame) (writable : Bool) (x : Pipe) (hpipe : s.pipe f = some x) :
      Call kmap s (.pipeclose f writable) { s with pipe := update s.pipe f none, kmem := s.kmem.kfree f }

variable {kmap : Kmap} {s s' : State}

variable {i : Option Nat} {a : Ptable.Act} {p : Slot} {ok : Bool} {t : Ptable.State} {x : Fault}

theorem space?_eq_some {j : Nat} {d : Pgdir} (h : s.space? i = some (j, d)) :
    i = some j ∧ s.dir j = some d := by
  obtain ⟨j', rfl, hmap⟩ := Option.bind_eq_some_iff.mp h
  obtain ⟨d', hd', heq⟩ := Option.map_eq_some_iff.mp hmap
  cases heq
  exact ⟨rfl, hd'⟩

theorem lift_eq_ok {α : Type} {r : Except Panic α} {x : α} (h : lift r = .ok x) : r = .ok x := by
  cases r with
  | ok y => exact congrArg Except.ok (Except.ok.inj h)
  | error e => cases h

theorem freeStack_eq_ok {q : Slot} (h : s.freeStack q = .ok s') : ∃ f, s.kstack q = some f ∧
    s' = { s with kstack := update s.kstack q none, kmem := s.kmem.kfree f } := by
  unfold freeStack at h
  split at h
  · cases h
  · rename_i f hf
    exact ⟨f, hf, (Except.ok.inj h).symm⟩

theorem freeSpace_eq_ok (h : s.freeSpace i = .ok s') : ∃ j d k, i = some j ∧
    s.dir j = some d ∧ freevm d s.kmem = .ok k ∧ s' = { s with dir := update s.dir j none, kmem := k } := by
  unfold freeSpace at h
  split at h
  · cases h
  · rename_i j d hspace
    obtain ⟨rfl, hdir⟩ := space?_eq_some hspace
    obtain ⟨k, hfree, hok⟩ := exists_of_bind_ok h
    exact ⟨j, d, k, rfl, hdir, lift_eq_ok hfree, (Except.ok.inj hok).symm⟩

theorem effect_reap {call : Reaper} {q : Slot} (h : s.reap call q = .ok s') :
    Effect kmap s a (some (.collect call p q)) s' := by
  cases call with
  | wait =>
    obtain ⟨s₁, hstack, hspace⟩ := exists_of_bind_ok h
    obtain ⟨f, hf, rfl⟩ := freeStack_eq_ok hstack
    obtain ⟨i, d, k, hpgdir, hdir, hfree, rfl⟩ := freeSpace_eq_ok hspace
    exact .wait a p q f i d k hf hpgdir hdir hfree
  | threadJoin =>
    cases h
    exact .join a p q

theorem effect_copySpace {np : Slot} (hp : (s.table.proc p).phase = .live)
    (h : s.copySpace kmap p np ok = some (.ok s')) :
    Effect kmap s a (some (if ok = false then .drop p np else .fill .fork p np)) s' := by
  unfold copySpace at h
  split at h
  · cases h
  rename_i i src hspace
  obtain ⟨hpgdir, hdir⟩ := space?_eq_some hspace
  split at h
  · cases h
  · rename_i d k hcopy
    cases ok with
    | false => cases h
    | true =>
      cases h
      exact .fork a p np i src d k hp hpgdir hdir hcopy
  · rename_i k hcopy
    cases ok with
    | true => cases h
    | false =>
      obtain ⟨f, hf, rfl⟩ := freeStack_eq_ok (Option.some.inj h)
      exact .noFork a p np i src k f hcopy hf

theorem effect_kstack (h : s.effect kmap (.kstack p ok) = some (.ok s')) :
    Effect kmap s (.kstack p ok) (s.table.change? (.kstack p ok)) s' := by
  simp only [effect] at h
  split at h
  · rename_i call np hpc
    obtain ⟨s₁, hs₁, heq⟩ := Option.map_eq_some_iff.mp h
    cases heq
    unfold allocStack at hs₁
    cases ok with
    | false =>
      simp only [Ptable.State.change?, hpc]
      split at hs₁
      · cases hs₁
        exact .noStack _ p np
      · cases hs₁
    | true =>
      split at hs₁
      · cases hs₁
      · rename_i f k hk
        cases hs₁
        exact .stack p np call f k hpc hk
  · cases h

theorem effect_copy (hp : (s.table.proc p).phase = .live) (h : s.effect kmap (.copy p ok) = some (.ok s')) :
    Effect kmap s (.copy p ok) (s.table.change? (.copy p ok)) s' := by
  simp only [effect] at h
  split at h
  · rename_i np hpc
    simp only [Ptable.State.change?, hpc, true_and]
    exact effect_copySpace hp h
  · rename_i np hpc
    cases h
    simp only [Ptable.State.change?, hpc, reduceCtorEq, false_and, if_false]
    exact .thread _ p np hp
  · cases h

theorem effect_other (heff : s.effect kmap a = match s.table.change? a with
      | some (.collect call _ q) => some (s.reap call q)
      | _ => some (.ok s))
    (hc : ∀ c, s.table.change? a = some c → ∃ call p q, c = .collect call p q)
    (h : s.effect kmap a = some (.ok s')) : Effect kmap s a (s.table.change? a) s' := by
  rw [heff] at h
  cases hchange : s.table.change? a with
  | none =>
    rw [hchange] at h
    cases h
    exact .none a
  | some c =>
    obtain ⟨call, p, q, rfl⟩ := hc c hchange
    rw [hchange] at h
    exact effect_reap (Option.some.inj h)

theorem phase_of_step (ha : a = .copy p ok)
    (hstep : s.table.step a = some t) : (s.table.proc p).phase = .live := by
  subst ha
  simp only [Ptable.State.step] at hstep
  split at hstep
  · rename_i hstate _
    exact Proc.phase_running hstate
  · cases hstep

theorem effect_cases (hstep : s.table.step a = some t)
    (h : s.effect kmap a = some (.ok s')) : Effect kmap s a (s.table.change? a) s' := by
  have hcollect : ∀ {call : Reaper} {p : Slot} {o : Option Slot} {c : Change},
      o.map (.collect call p) = some c → ∃ call p q, c = .collect call p q := by
    intro call p o c hc
    obtain ⟨q, -, rfl⟩ := Option.map_eq_some_iff.mp hc
    exact ⟨call, p, q, rfl⟩
  cases a with
  | kstack p ok => exact effect_kstack h
  | copy p ok => exact effect_copy (phase_of_step rfl hstep) h
  | wait p | threadJoin p => exact effect_other rfl (fun c => hcollect) h
  | schedule p =>
    refine effect_other rfl (fun c hc => ?_) h
    obtain ⟨g, -, rfl⟩ := Option.map_eq_some_iff.mp hc
    exact ⟨g.1, p, g.2, rfl⟩
  | _ => exact effect_other rfl nofun h

/-! ### The other calls -/

theorem call_exec {phdrs : List Proghdr} {args : Bool}
    (hp : (s.table.proc p).phase = .live) (h : s.exec kmap p phdrs args = .ok s') :
    Call kmap s (.exec p phdrs args) s' := by
  obtain ⟨⟨_ | ⟨d, sz⟩, k⟩, himage, hok⟩ := exists_of_bind_ok h
  · cases hok
    exact .noExec p phdrs args k (lift_eq_ok himage)
  · obtain ⟨i, old, k', hpgdir, hold, hfree, rfl⟩ := freeSpace_eq_ok hok
    exact .exec p phdrs args d sz k i old k' hp (lift_eq_ok himage) hpgdir hold hfree

theorem call_sbrk {n : BitVec 32} (hp : (s.table.proc p).phase = .live)
    (h : s.sbrk p n = .ok s') : Call kmap s (.sbrk p n) s' := by
  unfold sbrk at h
  split at h
  · cases h
  · rename_i i d hspace
    obtain ⟨hpgdir, hdir⟩ := space?_eq_some hspace
    obtain ⟨⟨r, sz, d', k⟩, hgrow, hok⟩ := exists_of_bind_ok h
    cases hok
    exact .sbrk p n i d r sz d' k hp hpgdir hdir (lift_eq_ok hgrow)

theorem call_pipealloc (p : Slot) : Call kmap s (.pipe p) s.pipealloc := by
  unfold pipealloc
  split
  · exact .noPipe p
  · rename_i f k hk
    exact .pipe p f k hk

theorem call_pipeclose {f : Frame} {x : Pipe} (writable : Bool) (hpipe : s.pipe f = some x) :
    Call kmap s (.pipeclose f writable) (s.pipeclose f x writable) := by
  unfold pipeclose
  generalize (if writable then { x with writeopen := false } else { x with readopen := false }) = x'
  dsimp only
  split
  · exact .closePipe f writable x hpipe
  · exact .closeEnd f writable x x' hpipe

/-- **What a step does.** A step of the table changes the entries and what they hold; the other calls
change what is held. -/
theorem next_cases {a : Act} (h : s.next kmap a = some s') :
    (∃ b t e, a = .table b ∧ s.table.step b = some t ∧ Effect kmap s b (s.table.change? b) e ∧
      s' = { e with table := t }) ∨ Call kmap s a s' := by
  unfold next at h
  obtain ⟨r, hr, hok⟩ := Option.bind_eq_some_iff.mp h
  cases r with
  | error e => cases hok
  | ok s₁ =>
    cases hok
    cases a with
    | table b =>
      simp only [step] at hr
      split at hr
      · cases hr
      · rename_i t hstep
        obtain ⟨r, heff, hmap⟩ := Option.map_eq_some_iff.mp hr
        cases r with
        | error e => cases hmap
        | ok e =>
          cases hmap
          exact .inl ⟨b, t, e, rfl, hstep, effect_cases hstep heff, rfl⟩
    | exec p phdrs args =>
      obtain ⟨⟨hstate, -⟩, hexec⟩ := Option.ite_none_right_eq_some.mp hr
      exact .inr (call_exec (Proc.phase_running hstate) (Option.some.inj hexec))
    | sbrk p n =>
      obtain ⟨⟨hstate, -⟩, hsbrk⟩ := Option.ite_none_right_eq_some.mp hr
      exact .inr (call_sbrk (Proc.phase_running hstate) (Option.some.inj hsbrk))
    | pipe p =>
      obtain ⟨-, ⟨⟩⟩ := Option.ite_none_right_eq_some.mp hr
      exact .inr (call_pipealloc p)
    | pipeclose f writable =>
      simp only [step] at hr
      split at hr
      · cases hr
      · rename_i x hpipe
        obtain ⟨-, ⟨⟩⟩ := Option.ite_none_right_eq_some.mp hr
        exact .inr (call_pipeclose writable hpipe)

/-! ### Steps that go wrong -/

inductive Fails (kmap : Kmap) (s : State) : Act → Fault → Prop
  | copyFreed (p : Slot) (ok : Bool) (hp : (s.table.proc p).phase = .live)
      (hspace : s.space? (s.pgdir p) = none) : Fails kmap s (.table (.copy p ok)) .freed
  | copy (p : Slot) (ok : Bool) (i : Nat) (src : Pgdir) (e : Panic)
      (hp : (s.table.proc p).phase = .live) (hpgdir : s.pgdir p = some i) (hdir : s.dir i = some src)
      (hcopy : copyuvm kmap src (s.sz p) s.kmem = .error e) : Fails kmap s (.table (.copy p ok)) (.panic e)
  | stack (a : Ptable.Act) : Fails kmap s (.table a) (.panic .kfree)
  | waitFreed (a : Ptable.Act) (p q : Slot) (hc : s.table.change? a = some (.collect .wait p q))
      (hspace : s.space? (s.pgdir q) = none) : Fails kmap s (.table a) .freed
  | wait (a : Ptable.Act) (q : Slot) (i : Nat) (d : Pgdir) (k : Kmem) (e : Panic)
      (hdir : s.dir i = some d) (hfree : freevm d k = .error e) : Fails kmap s (.table a) (.panic e)
  | image (p : Slot) (phdrs : List Proghdr) (args : Bool) (e : Panic)
      (himage : execImage kmap phdrs args s.kmem = .error e) : Fails kmap s (.exec p phdrs args) (.panic e)
  | execFreed (p : Slot) (phdrs : List Proghdr) (args : Bool) (d : Pgdir) (sz : Nat) (k : Kmem)
      (hp : (s.table.proc p).phase = .live) (hspace : (s.addSpace p d sz k).space? (s.pgdir p) = none) :
      Fails kmap s (.exec p phdrs args) .freed
  | exec (p : Slot) (phdrs : List Proghdr) (args : Bool) (old : Pgdir) (k : Kmem) (e : Panic)
      (hfree : freevm old k = .error e) : Fails kmap s (.exec p phdrs args) (.panic e)
  | sbrkFreed (p : Slot) (n : BitVec 32) (hp : (s.table.proc p).phase = .live)
      (hspace : s.space? (s.pgdir p) = none) : Fails kmap s (.sbrk p n) .freed
  | sbrk (p : Slot) (n : BitVec 32) (i : Nat) (d : Pgdir) (e : Panic)
      (hp : (s.table.proc p).phase = .live) (hpgdir : s.pgdir p = some i) (hdir : s.dir i = some d)
      (hgrow : growproc n (s.sz p) d s.kmem = .error e) : Fails kmap s (.sbrk p n) (.panic e)

theorem lift_eq_error {α : Type} {r : Except Panic α} (h : lift r = .error x) :
    ∃ e, x = .panic e ∧ r = .error e := by
  cases r with
  | ok y => cases h
  | error e =>
    cases h
    exact ⟨e, rfl, rfl⟩

theorem error_of_bind {ε α β : Type} {r : Except ε α} {f : α → Except ε β} {e : ε}
    (h : r >>= f = .error e) : r = .error e ∨ ∃ x, r = .ok x ∧ f x = .error e := by
  cases r with
  | ok x => exact .inr ⟨x, rfl, h⟩
  | error e' => exact .inl (congrArg Except.error (Except.error.inj h))

theorem freeStack_eq_error {q : Slot} (h : s.freeStack q = .error x) : x = .panic .kfree := by
  unfold freeStack at h
  split at h
  · cases h
    rfl
  · cases h

theorem freeSpace_eq_error (h : s.freeSpace i = .error x) : x = .freed ∧ s.space? i = none ∨
      ∃ j d e, s.dir j = some d ∧ x = .panic e ∧ freevm d s.kmem = .error e := by
  unfold freeSpace at h
  split at h
  · rename_i hspace
    cases h
    exact .inl ⟨rfl, hspace⟩
  · rename_i j d hspace
    obtain ⟨-, hdir⟩ := space?_eq_some hspace
    obtain hlift | ⟨k, -, hok⟩ := error_of_bind h
    · obtain ⟨e, rfl, hfree⟩ := lift_eq_error hlift
      exact .inr ⟨j, d, e, hdir, rfl, hfree⟩
    · cases hok

theorem fails_copy (hp : (s.table.proc p).phase = .live)
    (h : s.effect kmap (.copy p ok) = some (.error x)) : Fails kmap s (.table (.copy p ok)) x := by
  simp only [effect] at h
  split at h
  case h_2 => cases h
  case h_3 => cases h
  unfold copySpace at h
  split at h
  · rename_i hspace
    cases h
    exact .copyFreed p ok hp hspace
  rename_i i src hspace
  obtain ⟨hpgdir, hdir⟩ := space?_eq_some hspace
  split at h
  · rename_i e hcopy
    cases h
    exact .copy p ok i src e hp hpgdir hdir hcopy
  · cases ok <;> cases h
  · cases ok with
    | true => cases h
    | false =>
      rw [freeStack_eq_error (Option.some.inj h)]
      exact .stack _

theorem fails_reap (h : (match s.table.change? a with
      | some (.collect call _ q) => some (s.reap call q)
      | _ => some (.ok s)) = some (.error x)) : Fails kmap s (.table a) x := by
  split at h
  · rename_i call p q hc
    cases call with
    | threadJoin => cases h
    | wait =>
      obtain hstack | ⟨s₁, hstack, herror⟩ := error_of_bind (Option.some.inj h)
      · rw [freeStack_eq_error hstack]
        exact .stack _
      · obtain ⟨f, -, rfl⟩ := freeStack_eq_ok hstack
        obtain ⟨rfl, hspace⟩ | ⟨j, d, e, hdir, rfl, hfree⟩ := freeSpace_eq_error herror
        · exact .waitFreed a p q hc hspace
        · exact .wait a q j d _ e hdir hfree
  · cases h

theorem fails_exec {phdrs : List Proghdr} {args : Bool}
    (hp : (s.table.proc p).phase = .live) (h : s.exec kmap p phdrs args = .error x) :
    Fails kmap s (.exec p phdrs args) x := by
  obtain hlift | ⟨⟨_ | ⟨d, sz⟩, k⟩, -, hok⟩ := error_of_bind h
  · obtain ⟨e, rfl, himage⟩ := lift_eq_error hlift
    exact .image p phdrs args e himage
  · cases hok
  · obtain ⟨rfl, hspace⟩ | ⟨j, old, e, -, rfl, hfree⟩ := freeSpace_eq_error hok
    · exact .execFreed p phdrs args d sz k hp hspace
    · exact .exec p phdrs args old _ e hfree

theorem fails_sbrk {n : BitVec 32} (hp : (s.table.proc p).phase = .live)
    (h : s.sbrk p n = .error x) : Fails kmap s (.sbrk p n) x := by
  unfold sbrk at h
  split at h
  · rename_i hspace
    cases h
    exact .sbrkFreed p n hp hspace
  · rename_i i d hspace
    obtain ⟨hpgdir, hdir⟩ := space?_eq_some hspace
    obtain hlift | ⟨r, -, hok⟩ := error_of_bind h
    · obtain ⟨e, rfl, hgrow⟩ := lift_eq_error hlift
      exact .sbrk p n i d e hp hpgdir hdir hgrow
    · cases hok

theorem fails_table (hstep : s.table.step a = some t)
    (h : s.effect kmap a = some (.error x)) : Fails kmap s (.table a) x := by
  cases a with
  | kstack p ok =>
    simp only [effect] at h
    split at h
    · obtain ⟨s₁, -, heq⟩ := Option.map_eq_some_iff.mp h
      cases heq
    · cases h
  | copy p ok => exact fails_copy (phase_of_step rfl hstep) h
  | _ => exact fails_reap h

theorem fails_of_step {a : Act} (h : s.step kmap a = some (.error x)) :
    Fails kmap s a x := by
  cases a with
  | table b =>
    simp only [step] at h
    split at h
    · cases h
    · rename_i t hstep
      obtain ⟨r, heff, hmap⟩ := Option.map_eq_some_iff.mp h
      cases r with
      | error e =>
        cases hmap
        exact fails_table hstep heff
      | ok e => cases hmap
  | exec p phdrs args =>
    obtain ⟨⟨hstate, -⟩, hexec⟩ := Option.ite_none_right_eq_some.mp h
    exact fails_exec (Proc.phase_running hstate) (Option.some.inj hexec)
  | sbrk p n =>
    obtain ⟨⟨hstate, -⟩, hsbrk⟩ := Option.ite_none_right_eq_some.mp h
    exact fails_sbrk (Proc.phase_running hstate) (Option.some.inj hsbrk)
  | pipe p =>
    obtain ⟨-, hok⟩ := Option.ite_none_right_eq_some.mp h
    cases hok
  | pipeclose f writable =>
    simp only [step] at h
    split at h
    · cases h
    · obtain ⟨-, hok⟩ := Option.ite_none_right_eq_some.mp h
      cases hok

end State

theorem boot_eq_some {kmap : Kmap} {m : Machine} {s : State} (h : boot kmap m = some s) :
    ∃ kpgdir k₁ cpuStacks k₂ stack k₃ d₀ k₄ d k,
      setupkvm kmap (freerange m.lo { freelist := [], mem := m.mem, fails := m.fails, calls := [] }) =
        .ok (some kpgdir, k₁) ∧
      startothers m.others k₁ = some (cpuStacks, k₂) ∧
      (freerange m.hi k₂).kalloc = some (stack, k₃) ∧
      setupkvm kmap k₃ = .ok (some d₀, k₄) ∧
      inituvm d₀ m.init k₄ = .ok (d, k) ∧
      (d.entry 0).isSome ∧ s = State.init kpgdir cpuStacks stack d k := by
  unfold boot at h
  dsimp only at h
  split at h
  case h_2 => cases h
  rename_i kpgdir k₁ hkpgdir
  obtain ⟨⟨cpuStacks, k₂⟩, hothers, h⟩ := Option.bind_eq_some_iff.mp h
  obtain ⟨⟨stack, k₃⟩, hstack, h⟩ := Option.bind_eq_some_iff.mp h
  dsimp only at h
  split at h
  case h_2 => cases h
  rename_i d₀ k₄ hsetup
  split at h
  case h_2 => cases h
  rename_i d k hinit
  obtain ⟨hentry, ⟨⟩⟩ := Option.ite_none_right_eq_some.mp h
  exact ⟨kpgdir, k₁, cpuStacks, k₂, stack, k₃, d₀, k₄, d, k, hkpgdir, hothers, hstack, hsetup, hinit,
    hentry, rfl⟩

theorem phase_init {q : Slot} (hq : (Ptable.State.init.proc q).phase ≠ .vacant) : q = initproc := by
  by_contra hne
  refine hq ?_
  simp only [Ptable.State.init, Proc.phase, if_neg hne]

end Xv6.Memory
