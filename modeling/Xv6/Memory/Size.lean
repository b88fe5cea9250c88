import Xv6.Memory.Directory

/-!
# Sizes and page tables

Every entry has its own copy of the size of the address space, which `sbrk` changes for its caller
alone. As long as no other live entry has the directory of a caller that changes its size, and no
process shrinks to nothing, the size of every live entry says which of its pages are mapped.
-/

namespace Xv6.Memory

open Function (update update_self update_of_ne)

open Vm Ptable

namespace State

variable {kmap : Kmap} {s s' : State}

def Agrees (s : State) (q : Slot) : Prop :=
  ∃ i d, s.pgdir q = some i ∧ s.dir i = some d ∧ s.sz q < kernbase ∧ Pages d (pages (s.sz q))

structure Sizes (s : State) : Prop where
  agrees : ∀ q, (s.table.proc q).phase = .live → s.Agrees q
  shared : ∀ q r, (s.table.proc q).phase = .live → (s.table.proc r).phase = .live →
    s.pgdir q = s.pgdir r → s.sz q = s.sz r

def Affords (s : State) (p : Slot) (sz : Nat) : Prop :=
  match s.space? (s.pgdir p) with
  | none => False
  | some (_, d) =>
    needs (fun i => (d.pde i).isSome) (pages sz - pages (s.sz p)) (pages (s.sz p)) ≤ s.kmem.grants

def ResizesOwn (kmap : Kmap) (s : State) : Act → Prop
  | .sbrk p n =>
    (n.toInt < 0 → s.sz p + n.toInt ≠ 0) ∧
      (n.toInt ≠ 0 → 0 ≤ s.sz p + n.toInt → s.sz p + n.toInt < kernbase →
        s.Affords p (s.sz p + n.toInt).toNat → s.Alone p)
  | a => s.FreesOwn kmap a

theorem ResizesOwn.freesOwn {a : Act} (h : s.ResizesOwn kmap a) : s.FreesOwn kmap a := by
  cases a with
  | sbrk p n => trivial
  | _ => exact h

theorem Agrees.intro {q : Slot} {i n : Nat} {d : Pgdir} (hi : s.pgdir q = some i)
    (hd : s.dir i = some d) (hn : s.sz q = n) (hlt : n < kernbase) (hpages : Pages d (pages n)) :
    s.Agrees q := by
  subst hn
  exact ⟨i, d, hi, hd, hlt, hpages⟩

theorem Agrees.hasSpace {q : Slot} (h : s.Agrees q) : s.HasSpace q := by
  obtain ⟨i, d, hi, hd, -, -⟩ := h
  exact ⟨i, d, hi, hd⟩

theorem Sizes.liveSpace (h : s.Sizes) : s.LiveSpace := fun q hq => (h.agrees q hq).hasSpace

theorem Kept.agrees {q r : Slot} (h : Kept s s' q r) (hs : s.Sizes) : s'.Agrees r := by
  obtain ⟨i, d, hq, hd, hlt, hpages⟩ := hs.agrees q h.live
  exact .intro (h.pgdir.trans hq) ((h.dir i hq).trans hd) h.sz hlt hpages

theorem Kept.sz_eq {q₁ q₂ r₁ r₂ : Slot} (h₁ : Kept s s' q₁ r₁) (h₂ : Kept s s' q₂ r₂) (hs : s.Sizes)
    (heq : s'.pgdir r₁ = s'.pgdir r₂) : s'.sz r₁ = s'.sz r₂ := by
  rw [h₁.sz, h₂.sz]
  rw [h₁.pgdir, h₂.pgdir] at heq
  exact hs.shared q₁ q₂ h₁.live h₂.live heq

theorem Renewed.ne {p r : Slot} {d : Pgdir} {sz : Nat} (h : Renewed s s' p d sz) (hs : s.Wf)
    (hrp : r ≠ p) (hr : (s'.table.proc r).phase = .live) : s'.pgdir r ≠ s'.pgdir p := by
  rw [(h.others r hrp hr).pgdir, h.pgdir]
  exact fun heq => Nat.lt_irrefl _ (hs.known heq)

namespace Sizes

theorem pages_of (h : s.Sizes) {p : Slot} {i : Nat} {d : Pgdir} (hp : (s.table.proc p).phase = .live)
    (hpgdir : s.pgdir p = some i) (hdir : s.dir i = some d) :
    s.sz p < kernbase ∧ Pages d (pages (s.sz p)) := by
  obtain ⟨j, d₁, hj, hd₁, hlt, hpages⟩ := h.agrees p hp
  obtain rfl : i = j := Option.some.inj (hpgdir.symm.trans hj)
  obtain rfl : d = d₁ := Option.some.inj (hdir.symm.trans hd₁)
  exact ⟨hlt, hpages⟩

theorem renewed (h : s.Sizes) (hs : s.Wf) {p : Slot} {d : Pgdir} {sz : Nat}
    (hnew : Renewed s s' p d sz) (hsz : sz < kernbase) (hpages : Pages d (pages sz)) : s'.Sizes where
  agrees r hr := by
    by_cases hrp : r = p
    · subst hrp
      exact .intro hnew.pgdir hnew.dir hnew.sz hsz hpages
    · exact (hnew.others r hrp hr).agrees h
  shared r₁ r₂ hr₁ hr₂ heq := by
    by_cases h₁ : r₁ = p <;> by_cases h₂ : r₂ = p
    · rw [h₁, h₂]
    · subst h₁
      exact absurd heq.symm (hnew.ne hs h₂ hr₂)
    · subst h₂
      exact absurd heq (hnew.ne hs h₁ hr₁)
    · exact (hnew.others r₁ h₁ hr₁).sz_eq (hnew.others r₂ h₂ hr₂) h heq

theorem sbrk (h : s.Sizes) {p : Slot} {n : BitVec 32} {i : Nat} {d d' : Pgdir} {r : Int} {sz : Nat}
    {k : Kmem} (hown : s.ResizesOwn kmap (.sbrk p n)) (hp : (s.table.proc p).phase = .live)
    (hpgdir : s.pgdir p = some i) (hdir : s.dir i = some d)
    (hgrow : growproc n (s.sz p) d s.kmem = .ok (r, sz, d', k)) : ({ s with
      sz := update s.sz p sz
      dir := update s.dir i (some d')
      kmem := k } : State).Sizes := by
  obtain ⟨hlt, hpages⟩ := h.pages_of hp hpgdir hdir
  obtain ⟨hlt', hpages', hsz⟩ := (growproc_pages s.kmem hlt hpages hown.1).of_ok hgrow
  dsimp only at hlt' hpages' hsz
  -- every sharer of the directory has the size that the caller has now
  have hshare : ∀ q, (s.table.proc q).phase = .live → s.pgdir q = some i → update s.sz p sz q = sz := by
    intro q hq hqi
    by_cases hqp : q = p
    · rw [hqp, update_self]
    rw [update_of_ne hqp, h.shared q p hq hp (hqi.trans hpgdir.symm)]
    rcases hsz with hsz | hsz
    · exact hsz.symm
    · by_contra hne
      have hneeds := growproc_needs hlt hgrow (Ne.symm hne)
      have hto : (s.sz p + n.toInt).toNat = sz := by omega
      refine hown.2 (by omega) (by omega) (by omega) ?_ q hqp hq (hqi.trans hpgdir.symm)
      rw [Affords, space?, hpgdir, Option.bind_some, hdir, Option.map_some, hto]
      exact hneeds
  constructor
  · intro q hq
    obtain ⟨j, d₂, hqj, hd₂, hlt₂, hpages₂⟩ := h.agrees q hq
    by_cases hji : j = i
    · subst hji
      exact .intro hqj (update_self ..) (hshare q hq hqj) hlt' hpages'
    · have hqp : q ≠ p := by
        rintro rfl
        exact hji (Option.some.inj (hqj.symm.trans hpgdir))
      exact .intro hqj ((update_of_ne hji ..).trans hd₂) (update_of_ne hqp ..) hlt₂ hpages₂
  · intro q₁ q₂ hq₁ hq₂ heq
    by_cases hi : s.pgdir q₁ = some i
    · exact (hshare q₁ hq₁ hi).trans (hshare q₂ hq₂ (heq.symm.trans hi)).symm
    · have hne : ∀ q, s.pgdir q = s.pgdir q₁ → q ≠ p := by
        rintro q hq rfl
        exact hi (hq.symm.trans hpgdir)
      change update s.sz p sz q₁ = update s.sz p sz q₂
      rw [update_of_ne (hne q₁ rfl), update_of_ne (hne q₂ heq.symm)]
      exact h.shared q₁ q₂ hq₁ hq₂ heq

theorem respaced (h : s.Sizes) (hs : s.Wf) {a : Act} (hown : s.ResizesOwn kmap a)
    (hspaced : Respaced kmap s s' a) : s'.Sizes := by
  cases hspaced with
  | kept a hkept =>
    constructor
    · intro r hr
      obtain ⟨q, hq⟩ := hkept r hr
      exact hq.agrees h
    · intro r₁ r₂ hr₁ hr₂ heq
      obtain ⟨q₁, hq₁⟩ := hkept r₁ hr₁
      obtain ⟨q₂, hq₂⟩ := hkept r₂ hr₂
      exact hq₁.sz_eq hq₂ h heq
  | fork a p np i src d k hp hpgdir hsrc hcopy hnew =>
    obtain ⟨hlt, hpages⟩ := h.pages_of hp hpgdir hsrc
    exact h.renewed hs hnew hlt ((copyuvm_pages kmap s.kmem hlt hpages).of_ok hcopy d rfl)
  | exec a p phdrs args d sz k himage hnew =>
    obtain ⟨hlt, hpages⟩ := (execImage_spec kmap phdrs args s.kmem).of_ok himage d sz rfl
    exact h.renewed hs hnew hlt hpages
  | sbrk p n i d r sz d' k hp hpgdir hdir hgrow heq =>
    subst heq
    exact h.sbrk hown hp hpgdir hdir hgrow

theorem fault (h : s.Sizes) (hs : s.Wf) {a : Act} (hown : s.ResizesOwn kmap a) {x : Fault}
    (hstep : s.step kmap a = some (.error x)) : x = .panic .kfree := by
  cases fails_of_step hstep with
  | copyFreed p ok hp hspace | sbrkFreed p n hp hspace =>
    exact absurd hspace (h.agrees p hp).hasSpace.space?_ne_none
  | copy p ok i src e hp hpgdir hdir hcopy =>
    obtain ⟨hlt, hpages⟩ := h.pages_of hp hpgdir hdir
    exact congrArg Fault.panic ((copyuvm_pages kmap s.kmem hlt hpages).of_error hcopy)
  | stack a => rfl
  | waitFreed a p q hc hspace | execFreed p phdrs args d sz k hp hspace =>
    exact absurd hstep (step_ne_freed hs h.liveSpace hown.freesOwn)
  | wait a q i d k e hdir hfree => exact congrArg Fault.panic ((freevm_spec d k).of_error hfree)
  | image p phdrs args e himage =>
    exact congrArg Fault.panic ((execImage_spec kmap phdrs args s.kmem).of_error himage)
  | exec p phdrs args old k e hfree =>
    exact congrArg Fault.panic ((freevm_spec old k).of_error hfree)
  | sbrk p n i d e hp hpgdir hdir hgrow =>
    obtain ⟨hlt, hpages⟩ := h.pages_of hp hpgdir hdir
    exact congrArg Fault.panic ((growproc_pages s.kmem hlt hpages hown.1).of_error hgrow)

end Sizes

instance (s : State) (p : Slot) (sz : Nat) : Decidable (s.Affords p sz) :=
  match h : s.space? (s.pgdir p) with
  | none => .isFalse (by simp only [Affords, h, not_false_iff])
  | some (_, d) => decidable_of_iff
      (needs (fun i => (d.pde i).isSome) (pages sz - pages (s.sz p)) (pages (s.sz p)) ≤ s.kmem.grants)
      (by simp only [Affords, h])

instance (s : State) (a : Act) : Decidable (s.ResizesOwn kmap a) :=
  match a with
  | .table a => inferInstanceAs (Decidable (s.FreesOwn kmap (.table a)))
  | .exec p phdrs args => inferInstanceAs (Decidable (s.FreesOwn kmap (.exec p phdrs args)))
  | .sbrk .. => inferInstanceAs (Decidable ((_ → _) ∧ (_ → _ → _ → _ → _)))
  | .pipe .. => .isTrue trivial
  | .pipeclose .. => .isTrue trivial

end State

open State

theorem boot_sizes {kmap : Kmap} {m : Machine} {s : State} (h : boot kmap m = some s) : s.Sizes := by
  obtain ⟨kpgdir, _, cpuStacks, _, stack, k₃, d₀, k₄, d, k, -, -, -, hsetup, hinit, hentry, rfl⟩ :=
    boot_eq_some h
  have hinitproc : ∀ q, (Ptable.State.init.proc q).phase = .live → q = initproc := fun q hq =>
    phase_init (by rw [hq]; nofun)
  constructor
  · intro q hq
    obtain rfl := hinitproc q hq
    have hempty := (setupkvm_pages kmap k₃).of_ok hsetup d₀ rfl
    refine .intro (rfl : _ = some 0) rfl (rfl : _ = pgsize) (by decide) ?_
    rw [pages_eq (by decide)]
    exact inituvm_pages hempty hinit hentry
  · intro q r hq hr _
    rw [hinitproc q hq, hinitproc r hr]

/-- **Sizes and page tables agree**, as long as no process shrinks to nothing, one that gets another
size has its directory alone, and only directories that no other live entry has are freed: the user
pages of a live entry are those of its size, entries with the same directory have the same size, and the
panics of `mappages`, `copyuvm` and `clearpteu` are out of reach. -/
theorem sizes_agree (kmap : Kmap) (m : Machine) {s₀ s : State} (hboot : boot kmap m = some s₀)
    (hrun : Reaches (State.next kmap) (State.ResizesOwn kmap) s₀ s) :
    (∀ q, (s.table.proc q).phase = .live → ∃ i d, s.pgdir q = some i ∧ s.dir i = some d ∧
      Pages d (pages (s.sz q)) ∧ ∀ va < s.sz q, d.Present (va / pgsize)) ∧
    (∀ q r, (s.table.proc q).phase = .live → (s.table.proc r).phase = .live →
      s.pgdir q = s.pgdir r → s.sz q = s.sz r) ∧
    ∀ a x, s.ResizesOwn kmap a → s.step kmap a = some (.error x) → x = .panic .kfree := by
  obtain ⟨hwf, hsizes⟩ : s.Wf ∧ s.Sizes := by
    refine hrun.invariant (I := fun s => s.Wf ∧ s.Sizes) ⟨(boot_wf hboot).1, boot_sizes hboot⟩ ?_
    rintro s a s' ⟨hs, hsizes⟩ hown hnext
    exact ⟨hs.next hnext, hsizes.respaced hs hown (.next hs hown.freesOwn hnext)⟩
  refine ⟨fun q hq => ?_, hsizes.shared, fun a x hown hstep => hsizes.fault hwf hown hstep⟩
  obtain ⟨i, d, hi, hd, hlt, hpages⟩ := hsizes.agrees q hq
  refine ⟨i, d, hi, hd, hpages, fun va hva => (hpages _ ?_).mpr ((lt_pages hlt.le).mpr ?_)⟩
  · simp only [kernbase] at hlt
    simp only [userPages, kernbase, pgsize]
    omega
  · simp only [pgsize]
    omega

def grownChild : List Act :=
  .table (.schedule 0) :: .sbrk 0 5000 :: (Ptable.State.creates 0 .fork).map .table ++
    [.table (.schedule 1), .sbrk 1 (-4000), .table (.exit 1), .table (.wait 0)]

theorem sizes_agree_grownChild : ∃ s₀ s, boot Kmap.onePage smallMachine = some s₀ ∧
    Reaches (State.next Kmap.onePage) (State.ResizesOwn Kmap.onePage) s₀ s ∧ s.sz initproc = 9096 ∧
    ∃ i d, s.pgdir initproc = some i ∧ s.dir i = some d ∧ Pages d (pages (s.sz initproc)) := by
  have hrun : ((boot .onePage smallMachine).bind fun s₀ =>
      (runActs (State.next Kmap.onePage) (State.ResizesOwn Kmap.onePage) grownChild s₀).map
        fun s => (s.sz initproc, (s.table.proc initproc).phase)) = some (9096, .live) := by
    decide +kernel
  obtain ⟨s₀, hboot, hmap⟩ := Option.bind_eq_some_iff.mp hrun
  obtain ⟨s, hreach, heq⟩ := Reaches.of_map hmap
  obtain ⟨i, d, hi, hd, hpages, -⟩ :=
    (sizes_agree _ _ hboot hreach).1 initproc (congrArg Prod.snd heq)
  exact ⟨s₀, s, hboot, hreach, congrArg Prod.fst heq, i, d, hi, hd, hpages⟩

def grownThread : List Act :=
  .table (.schedule 0) :: .sbrk 0 4096 :: (Ptable.State.creates 0 .threadCreate).map .table ++ [.sbrk 0 4096]

/-- After `sbrk(-sz)` the pages are gone and the size is the old one; and after one of two threads has
grown, their sizes differ. -/
theorem sizes_disagree : (∃ s₀ s i d, boot Kmap.onePage smallMachine = some s₀ ∧
      Reaches (State.next Kmap.onePage) (fun _ _ => True) s₀ s ∧
      (s.table.proc initproc).state = .running ∧ s.pgdir initproc = some i ∧ s.dir i = some d ∧
      s.sz initproc = pgsize ∧ ¬ d.Present 0) ∧
    ∃ s₀ s, boot Kmap.onePage smallMachine = some s₀ ∧
      Reaches (State.next Kmap.onePage) (fun _ _ => True) s₀ s ∧
      (s.table.proc 1).state = .runnable ∧ s.pgdir 1 = s.pgdir initproc ∧ s.sz 1 ≠ s.sz initproc := by
  constructor
  · have hrun : ((boot .onePage smallMachine).bind fun s₀ =>
        (runActs (State.next Kmap.onePage) (fun _ _ => True)
          [.table (.schedule 0), .sbrk 0 (-4096)] s₀).bind fun s =>
            (s.space? (s.pgdir initproc)).map fun x =>
              ((s.table.proc initproc).state, s.sz initproc, (x.2.entry 0).isNone)) =
        some (.running, pgsize, true) := by decide +kernel
    obtain ⟨s₀, hboot, hmap⟩ := Option.bind_eq_some_iff.mp hrun
    obtain ⟨s, hs, hmap⟩ := Option.bind_eq_some_iff.mp hmap
    obtain ⟨⟨i, d⟩, hspace, heq⟩ := Option.map_eq_some_iff.mp hmap
    obtain ⟨hi, hd⟩ := space?_eq_some hspace
    simp only [Prod.mk.injEq, Option.isNone_iff_eq_none] at heq
    refine ⟨s₀, s, i, d, hboot, .of_runActs _ .refl hs, heq.1, hi, hd, heq.2.1, ?_⟩
    rw [Pgdir.present_iff, not_not]
    exact heq.2.2
  · have hrun : ((boot .onePage smallMachine).bind fun s₀ =>
        (runActs (State.next Kmap.onePage) (fun _ _ => True) grownThread s₀).map fun s =>
          ((s.table.proc 1).state, decide (s.pgdir 1 = s.pgdir initproc),
            decide (s.sz 1 = s.sz initproc))) = some (.runnable, true, false) := by decide +kernel
    obtain ⟨s₀, hboot, hmap⟩ := Option.bind_eq_some_iff.mp hrun
    obtain ⟨s, hreach, heq⟩ := Reaches.of_map hmap
    simp only [Prod.mk.injEq, decide_eq_true_eq, decide_eq_false_iff_not] at heq
    exact ⟨s₀, s, hboot, hreach, heq⟩

end Xv6.Memory
