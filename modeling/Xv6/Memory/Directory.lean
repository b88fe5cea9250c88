import Xv6.Memory.Steps

/-!
# Directories that are in use

`thread_create` makes several entries share a directory, and `wait` and `exec` free the directory of
one. As long as they do so for a directory that no other live entry has, every live entry has one that
has not been freed.
-/

namespace Xv6.Memory

open Function (update update_self update_of_ne)

open Vm Ptable

namespace State

variable {kmap : Kmap} {s s' : State}

structure Wf (s : State) : Prop where
  table : s.table.Inv
  known : ∀ {q i}, s.pgdir q = some i → i < s.ndir
  unmade : ∀ i, s.ndir ≤ i → s.dir i = none

def HasSpace (s : State) (q : Slot) : Prop := ∃ i d, s.pgdir q = some i ∧ s.dir i = some d

def Alone (s : State) (q : Slot) : Prop :=
  ∀ r, r ≠ q → (s.table.proc r).phase = .live → s.pgdir r ≠ s.pgdir q

/-- Does `exec` get as far as replacing the address space? -/
def replaces (kmap : Kmap) (s : State) (phdrs : List Proghdr) (args : Bool) : Bool :=
  match execImage kmap phdrs args s.kmem with
  | .ok (some _, _) => true
  | _ => false

/-- Only directories that no other live entry has are freed, and only once. -/
def FreesOwn (kmap : Kmap) (s : State) : Act → Prop
  | .table a =>
    match s.table.change? a with
    | some (.collect .wait _ q) => s.Alone q ∧ (s.space? (s.pgdir q)).isSome
    | _ => True
  | .exec p phdrs args => s.replaces kmap phdrs args → s.Alone p
  | _ => True

theorem FreesOwn.collect {a : Ptable.Act} (h : s.FreesOwn kmap (.table a)) {p q : Slot}
    (hc : s.table.change? a = some (.collect .wait p q)) : s.Alone q ∧ (s.space? (s.pgdir q)).isSome := by
  simpa only [FreesOwn, hc] using h

theorem shift_of_step (hs : s.Wf) {a : Ptable.Act} {t : Ptable.State}
    (hstep : s.table.step a = some t) : s.table.Shift t (s.table.change? a) :=
  (Ptable.State.Did.step hs.table.parent_ne_self hstep).shift hs.table

namespace Wf

theorem addSpace (hs : s.Wf) (q : Slot) (d : Pgdir) (sz : Nat) (k : Kmem) : (s.addSpace q d sz k).Wf where
  table := hs.table
  known {r i} hr := by
    change update s.pgdir q (some s.ndir) r = some i at hr
    change i < s.ndir + 1
    by_cases hrq : r = q
    · rw [hrq, update_self] at hr
      cases hr
      exact Nat.lt_succ_self _
    · rw [update_of_ne hrq] at hr
      exact Nat.lt_succ_of_lt (hs.known hr)
  unmade i hi := by
    change s.ndir + 1 ≤ i at hi
    change update s.dir s.ndir (some d) i = none
    rw [update_of_ne (by omega)]
    exact hs.unmade i (by omega)

theorem setDir (hs : s.Wf) {i : Nat} (hi : i < s.ndir) (x : Option Pgdir) (sz : Slot → Nat) (k : Kmem) :
    ({ s with dir := update s.dir i x, sz := sz, kmem := k } : State).Wf where
  table := hs.table
  known := hs.known
  unmade j hj := (update_of_ne (by change s.ndir ≤ j at hj; omega) ..).trans (hs.unmade j hj)

theorem effect (hs : s.Wf) {a : Ptable.Act} {c : Option Change} {e : State} (h : Effect kmap s a c e) :
    e.Wf ∧ e.table = s.table := by
  cases h with
  | none _ => exact ⟨hs, rfl⟩
  | stack p np call f k hpc hk | noStack _ p np | join _ p q => exact ⟨⟨hs.table, hs.known, hs.unmade⟩, rfl⟩
  | thread _ p np hp =>
    refine ⟨⟨hs.table, fun {q i} hq => ?_, hs.unmade⟩, rfl⟩
    change update s.pgdir np (s.pgdir p) q = some i at hq
    by_cases hqnp : q = np
    · rw [hqnp, update_self] at hq
      exact hs.known hq
    · rw [update_of_ne hqnp] at hq
      exact hs.known hq
  | fork _ p np i src d k hp hpgdir hsrc hcopy => exact ⟨hs.addSpace np d _ k, rfl⟩
  | noFork _ p np i src k f hcopy hstack =>
    refine ⟨⟨hs.table, fun {q i} hq => ?_, hs.unmade⟩, rfl⟩
    change update s.pgdir np none q = some i at hq
    by_cases hqnp : q = np
    · rw [hqnp, update_self] at hq
      cases hq
    · rw [update_of_ne hqnp] at hq
      exact hs.known hq
  | wait _ p q f i d k hstack hpgdir hdir hfree =>
    have hwf := hs.setDir (hs.known hpgdir) none s.sz k
    exact ⟨⟨hwf.table, hwf.known, hwf.unmade⟩, rfl⟩

theorem call (hs : s.Wf) {a : Act} (h : Call kmap s a s') : s'.Wf ∧ s'.table = s.table := by
  cases h with
  | exec p phdrs args d sz k i old k' hp himage hpgdir hold hfree =>
    have hwf := hs.addSpace p d sz k
    have hi : i < (s.addSpace p d sz k).ndir := Nat.lt_succ_of_lt (hs.known hpgdir)
    exact ⟨hwf.setDir hi none _ k', rfl⟩
  | sbrk p n i d r sz d' k hp hpgdir hdir hgrow =>
    exact ⟨hs.setDir (hs.known hpgdir) (some d') _ k, rfl⟩
  | noExec p phdrs args k himage | noPipe p | pipe p f k hk | closeEnd f writable x x' hpipe
  | closePipe f writable x hpipe => exact ⟨⟨hs.table, hs.known, hs.unmade⟩, rfl⟩

theorem next (hs : s.Wf) {a : Act} (h : s.next kmap a = some s') : s'.Wf := by
  obtain ⟨b, t, e, rfl, hstep, heff, rfl⟩ | hcall := next_cases h
  · obtain ⟨hwf, -⟩ := hs.effect heff
    exact ⟨hs.table.step hstep, hwf.known, hwf.unmade⟩
  · exact (hs.call hcall).1

end Wf

theorem Wf.init (kpgdir : Pgdir) (cpuStacks : List Frame) (stack : Frame) (d : Pgdir) (k : Kmem) :
    (State.init kpgdir cpuStacks stack d k).Wf where
  table := .init
  known {q i} hq := by
    change update (fun _ => none) initproc (some 0) q = some i at hq
    change i < 1
    by_cases hinit : q = initproc
    · rw [hinit, update_self] at hq
      cases hq
      exact Nat.one_pos
    · rw [update_of_ne hinit] at hq
      cases hq
  unmade i hi := by
    change 1 ≤ i at hi
    change update (fun _ => none) 0 (some d) i = none
    exact update_of_ne (by omega) ..

/-! ### Live entries -/

structure Kept (s s' : State) (q r : Slot) : Prop where
  live : (s.table.proc q).phase = .live
  pgdir : s'.pgdir r = s.pgdir q
  sz : s'.sz r = s.sz q
  dir : ∀ i, s.pgdir q = some i → s'.dir i = s.dir i

structure Renewed (s s' : State) (p : Slot) (d : Pgdir) (sz : Nat) : Prop where
  pgdir : s'.pgdir p = some s.ndir
  sz : s'.sz p = sz
  dir : s'.dir s.ndir = some d
  others : ∀ r, r ≠ p → (s'.table.proc r).phase = .live → Kept s s' r r

inductive Respaced (kmap : Kmap) (s s' : State) : Act → Prop
  | kept (a : Act) (h : ∀ r, (s'.table.proc r).phase = .live → ∃ q, Kept s s' q r) : Respaced kmap s s' a
  | fork (a : Act) (p np : Slot) (i : Nat) (src d : Pgdir) (k : Kmem)
      (hp : (s.table.proc p).phase = .live) (hpgdir : s.pgdir p = some i) (hsrc : s.dir i = some src)
      (hcopy : copyuvm kmap src (s.sz p) s.kmem = .ok (some d, k))
      (h : Renewed s s' np d (s.sz p)) : Respaced kmap s s' a
  | exec (a : Act) (p : Slot) (phdrs : List Proghdr) (args : Bool) (d : Pgdir) (sz : Nat) (k : Kmem)
      (himage : execImage kmap phdrs args s.kmem = .ok (some (d, sz), k))
      (h : Renewed s s' p d sz) : Respaced kmap s s' a
  | sbrk (p : Slot) (n : BitVec 32) (i : Nat) (d : Pgdir) (r : Int) (sz : Nat) (d' : Pgdir) (k : Kmem)
      (hp : (s.table.proc p).phase = .live) (hpgdir : s.pgdir p = some i) (hdir : s.dir i = some d)
      (hgrow : growproc n (s.sz p) d s.kmem = .ok (r, sz, d', k)) (h : s' = { s with
        sz := update s.sz p sz
        dir := update s.dir i (some d')
        kmem := k }) : Respaced kmap s s' (.sbrk p n)

theorem Respaced.effect (hs : s.Wf) {a : Act} {b : Ptable.Act} {c : Option Change} {t : Ptable.State}
    {e : State} (hshift : s.table.Shift t c) (heff : Effect kmap s b c e)
    (hown : ∀ p q, c = some (.collect .wait p q) → s.Alone q) :
    Respaced kmap s { e with table := t } a := by
  cases heff with
  | none _ | stack p np call f k hpc hk | noStack _ p np | join _ p q => exact .kept a fun r hr =>
    ⟨r, (hshift.live hr).resolve_left nofun, rfl, rfl, fun _ _ => rfl⟩
  | thread _ p np hp =>
    refine .kept a fun r hr => ?_
    by_cases hrnp : r = np
    · subst hrnp
      exact ⟨p, hp, update_self .., update_self .., fun _ _ => rfl⟩
    · have hlive := (hshift.live hr).resolve_left fun heq => hrnp (Option.some.inj heq).symm
      exact ⟨r, hlive, update_of_ne hrnp .., update_of_ne hrnp .., fun _ _ => rfl⟩
  | fork _ p np i src d k hp hpgdir hsrc hcopy =>
    refine .fork a p np i src d k hp hpgdir hsrc hcopy
      ⟨update_self .., update_self .., update_self .., fun r hrnp hr => ?_⟩
    have hlive := (hshift.live hr).resolve_left fun heq => hrnp (Option.some.inj heq).symm
    refine ⟨hlive, update_of_ne hrnp .., update_of_ne hrnp .., fun j hj => ?_⟩
    exact update_of_ne (Nat.ne_of_lt (hs.known hj)) ..
  | noFork _ p np i src k f hcopy hstack =>
    refine .kept a fun r hr => ?_
    have hlive := (hshift.live hr).resolve_left nofun
    have hrnp : r ≠ np := by
      rintro rfl
      rw [hshift.given p r rfl] at hlive
      cases hlive
    exact ⟨r, hlive, update_of_ne hrnp .., rfl, fun _ _ => rfl⟩
  | wait _ p q f i d k hstack hpgdir hdir hfree =>
    refine .kept a fun r hr => ?_
    have hlive := (hshift.live hr).resolve_left nofun
    have hrq : r ≠ q := by
      rintro rfl
      rw [(hshift.gone r rfl).1] at hlive
      cases hlive
    refine ⟨r, hlive, rfl, rfl, fun j hj => update_of_ne ?_ ..⟩
    rintro rfl
    exact hown p q rfl r hrq hlive (hj.trans hpgdir.symm)

theorem Respaced.call (hs : s.Wf) {a : Act} (hown : s.FreesOwn kmap a) (hcall : Call kmap s a s') :
    Respaced kmap s s' a := by
  have htable := (hs.call hcall).2
  cases hcall with
  | exec p phdrs args d sz k i old k' hp himage hpgdir hold hfree =>
    have hi := hs.known hpgdir
    have halone : s.Alone p := hown (by rw [replaces, himage])
    refine .exec _ p phdrs args d sz k himage ⟨update_self .., update_self .., ?_, fun r hrp hr => ?_⟩
    · exact (update_of_ne (Nat.ne_of_gt hi) ..).trans (update_self ..)
    · refine ⟨hr, update_of_ne hrp .., update_of_ne hrp .., fun j hj => ?_⟩
      have hji : j ≠ i := by
        rintro rfl
        exact halone r hrp hr (hj.trans hpgdir.symm)
      exact (update_of_ne hji ..).trans (update_of_ne (Nat.ne_of_lt (hs.known hj)) ..)
  | sbrk p n i d r sz d' k hp hpgdir hdir hgrow => exact .sbrk p n i d r sz d' k hp hpgdir hdir hgrow rfl
  | noExec p phdrs args k himage | noPipe p | pipe p f k hk | closeEnd f writable x x' hpipe
  | closePipe f writable x hpipe => exact .kept _ fun r hr => ⟨r, hr, rfl, rfl, fun _ _ => rfl⟩

theorem Respaced.next (hs : s.Wf) {a : Act} (hown : s.FreesOwn kmap a)
    (hnext : s.next kmap a = some s') : Respaced kmap s s' a := by
  obtain ⟨b, t, e, rfl, hstep, heff, rfl⟩ | hcall := next_cases hnext
  · exact .effect hs (shift_of_step hs hstep) heff fun p q hc => (hown.collect hc).1
  · exact .call hs hown hcall

def LiveSpace (s : State) : Prop := ∀ q, (s.table.proc q).phase = .live → s.HasSpace q

theorem Kept.hasSpace {q r : Slot} (h : Kept s s' q r) (hs : s.LiveSpace) : s'.HasSpace r := by
  obtain ⟨i, d, hq, hd⟩ := hs q h.live
  exact ⟨i, d, h.pgdir.trans hq, (h.dir i hq).trans hd⟩

theorem Renewed.liveSpace {p : Slot} {d : Pgdir} {sz : Nat} (h : Renewed s s' p d sz)
    (hs : s.LiveSpace) : s'.LiveSpace := by
  intro r hr
  by_cases hrp : r = p
  · subst hrp
    exact ⟨s.ndir, d, h.pgdir, h.dir⟩
  · exact (h.others r hrp hr).hasSpace hs

theorem LiveSpace.respaced (h : s.LiveSpace) {a : Act} (hspaced : Respaced kmap s s' a) :
    s'.LiveSpace := by
  cases hspaced with
  | kept a hkept =>
    intro r hr
    obtain ⟨q, hq⟩ := hkept r hr
    exact hq.hasSpace h
  | fork a p np i src d k hp hpgdir hsrc hcopy hnew | exec a p phdrs args d sz k himage hnew =>
    exact hnew.liveSpace h
  | sbrk p n i d r sz d' k hp hpgdir hdir hgrow heq =>
    subst heq
    intro q hq
    obtain ⟨j, d₁, hj, hd₁⟩ := h q hq
    by_cases hji : j = i
    · subst hji
      exact ⟨j, d', hj, update_self ..⟩
    · exact ⟨j, d₁, hj, (update_of_ne hji ..).trans hd₁⟩

theorem HasSpace.space?_ne_none {q : Slot} (h : s.HasSpace q) : s.space? (s.pgdir q) ≠ none := by
  obtain ⟨i, d, hi, hd⟩ := h
  simp only [space?, hi, hd, Option.bind_some, Option.map_some]
  nofun

theorem step_ne_freed (hs : s.Wf) (h : s.LiveSpace) {a : Act} (hown : s.FreesOwn kmap a) :
    s.step kmap a ≠ some (.error .freed) := by
  intro hstep
  cases fails_of_step hstep with
  | copyFreed p ok hp hspace | sbrkFreed p n hp hspace => exact (h p hp).space?_ne_none hspace
  | waitFreed a p q hc hspace =>
    have hsome := (hown.collect hc).2
    rw [hspace] at hsome
    cases hsome
  | execFreed p phdrs args d sz k hp hspace =>
    -- The new directory has another number than the old one.
    obtain ⟨i, d', hi, hd'⟩ := h p hp
    have := hs.known hi
    refine HasSpace.space?_ne_none (s := { s.addSpace p d sz k with pgdir := s.pgdir }) (q := p) ?_ hspace
    exact ⟨i, d', hi, (update_of_ne (by omega) ..).trans hd'⟩

instance (s : State) (q : Slot) : Decidable (s.Alone q) :=
  inferInstanceAs (Decidable (∀ _, _ → _ → _))

instance (s : State) (a : Act) : Decidable (s.FreesOwn kmap a) :=
  match a with
  | .table a =>
    match h : s.table.change? a with
    | some (.collect .wait _ q) =>
      decidable_of_iff (s.Alone q ∧ (s.space? (s.pgdir q)).isSome) (by simp only [FreesOwn, h])
    | some (.collect .threadJoin _ _) => .isTrue (by simp only [FreesOwn, h])
    | some (.fill ..) => .isTrue (by simp only [FreesOwn, h])
    | some (.drop ..) => .isTrue (by simp only [FreesOwn, h])
    | none => .isTrue (by simp only [FreesOwn, h])
  | .exec p phdrs args => inferInstanceAs (Decidable (s.replaces kmap phdrs args = true → s.Alone p))
  | .sbrk .. => .isTrue trivial
  | .pipe .. => .isTrue trivial
  | .pipeclose .. => .isTrue trivial

end State

open State

theorem boot_wf {kmap : Kmap} {m : Machine} {s : State} (h : boot kmap m = some s) :
    s.Wf ∧ s.LiveSpace := by
  obtain ⟨kpgdir, _, cpuStacks, _, stack, _, _, _, d, k, -, -, -, -, -, -, rfl⟩ := boot_eq_some h
  refine ⟨.init .., fun q hq => ?_⟩
  change (Ptable.State.init.proc q).phase = .live at hq
  obtain rfl : q = initproc := phase_init (by rw [hq]; nofun)
  exact ⟨0, d, rfl, rfl⟩

/-- **No directory is used after it is freed**, as long as `wait` and `exec` free only directories that
no other live entry has, and `wait` only one that has not been freed: every live entry has one that has
not been freed, and no step uses one that has. -/
theorem live_directory (kmap : Kmap) (m : Machine) {s₀ s : State} (hboot : boot kmap m = some s₀)
    (hrun : Reaches (State.next kmap) (State.FreesOwn kmap) s₀ s) :
    (∀ q, (s.table.proc q).phase = .live → s.HasSpace q) ∧
      ∀ a, s.FreesOwn kmap a → s.step kmap a ≠ some (.error .freed) := by
  obtain ⟨hwf, hlive⟩ : s.Wf ∧ s.LiveSpace := by
    refine hrun.invariant (I := fun s => s.Wf ∧ s.LiveSpace) (boot_wf hboot) ?_
    rintro s a s' ⟨hs, hlive⟩ hown hnext
    exact ⟨hs.next hnext, hlive.respaced (.next hs hown hnext)⟩
  exact ⟨hlive, fun a hown => step_ne_freed hwf hlive hown⟩

def smallMachine : Machine where
  lo := [1, 2, 3, 4]
  hi := [5, 6, 7, 8, 9, 10, 11, 12, 13, 14, 15, 16, 17, 18, 19, 20]
  mem _ _ := 0
  fails := []
  others := 0
  init _ := 0

/-- `initproc` makes a child in the call `call`, after `grow`; it ends by `last` and is reaped by `reap`. -/
def childReaped (grow : List Act) (call : Create) (last reap : Ptable.Act) : List Act :=
  .table (.schedule 0) :: grow ++ (Ptable.State.creates 0 call ++ [.schedule 1, last, reap]).map .table

theorem live_directory_fork : ∃ s₀ s, boot Kmap.onePage smallMachine = some s₀ ∧
    Reaches (State.next Kmap.onePage) (State.FreesOwn Kmap.onePage) s₀ s ∧
    (s.table.proc 1).phase = .vacant ∧ s.HasSpace initproc := by
  have hrun : ((boot .onePage smallMachine).bind fun s₀ =>
      (runActs (State.next Kmap.onePage) (State.FreesOwn Kmap.onePage)
        (childReaped [] .fork (.exit 1) (.wait 0)) s₀).map fun s => ((s.table.proc 1).phase, (s.table.proc initproc).phase)) =
      some (.vacant, .live) := by decide +kernel
  obtain ⟨s₀, hboot, hmap⟩ := Option.bind_eq_some_iff.mp hrun
  obtain ⟨s, hreach, heq⟩ := Reaches.of_map hmap
  exact ⟨s₀, s, hboot, hreach, congrArg Prod.fst heq,
    (live_directory _ _ hboot hreach).1 _ (congrArg Prod.snd heq)⟩

/-- `wait` reaps a thread of `initproc` and frees the directory that `initproc` has. -/
theorem wait_frees_shared_directory : ∃ s₀ s, boot Kmap.onePage smallMachine = some s₀ ∧
    Reaches (State.next Kmap.onePage) (fun _ _ => True) s₀ s ∧
    (s.table.proc initproc).state = .running ∧ ¬ s.HasSpace initproc := by
  have hrun : ((boot .onePage smallMachine).bind fun s₀ =>
      (runActs (State.next Kmap.onePage) (fun _ _ => True)
        (childReaped [.sbrk 0 4096] .threadCreate (.threadExit 1) (.wait 0)) s₀).map fun s =>
          ((s.table.proc initproc).state, (s.space? (s.pgdir initproc)).isNone)) =
      some (.running, true) := by decide +kernel
  obtain ⟨s₀, hboot, hmap⟩ := Option.bind_eq_some_iff.mp hrun
  obtain ⟨s, hreach, heq⟩ := Reaches.of_map hmap
  refine ⟨s₀, s, hboot, hreach, congrArg Prod.fst heq, fun hspace => ?_⟩
  exact hspace.space?_ne_none (Option.isNone_iff_eq_none.mp (congrArg Prod.snd heq))

end Xv6.Memory
