import Xv6.Memory.Directory
import Xv6.Lib.Ledger

/-!
# Who owns a page

A page that `kalloc` has handed out belongs to the kernel stack of an entry, to a directory, to a pipe,
or to what the kernel took when it started. The steps move pages between these owners and the free
list. `thread_join` forgets the stack of the thread it reaps, and `wait` and `exec` free a directory
that others may have; without such steps no page is lost or owned twice.
-/

namespace Xv6.Memory

open Function (update update_self update_of_ne update_apply)

open Vm Ptable

inductive Owner where
  | kstack (q : Slot)
  | space (i : Nat)
  | pipe (f : Frame)
  | boot
  deriving DecidableEq

def holdings (kstack : Slot → Option Frame) (dir : Nat → Option Pgdir) (pipe : Frame → Option Pipe)
    (boot : Frame → Nat) : Owner → Frame → Nat
  | .kstack q => (kstack q).elim 0 one
  | .space i => usesOf (dir i)
  | .pipe f => (pipe f).elim 0 fun _ => one f
  | .boot => boot

section

variable (kstack : Slot → Option Frame) (dir : Nat → Option Pgdir) (pipe : Frame → Option Pipe)
  (boot : Frame → Nat)

theorem holdings_kstack (q : Slot) (x : Option Frame) : holdings (update kstack q x) dir pipe boot =
      update (holdings kstack dir pipe boot) (.kstack q) (x.elim 0 one) := by
  funext o
  cases o with
  | kstack r =>
    by_cases hr : r = q
    · subst hr
      simp only [holdings, update_self]
    · rw [update_of_ne fun h => hr (Owner.kstack.inj h)]
      simp only [holdings, update_of_ne hr]
  | _ => rfl

theorem holdings_dir (i : Nat) (x : Option Pgdir) : holdings kstack (update dir i x) pipe boot =
      update (holdings kstack dir pipe boot) (.space i) (usesOf x) := by
  funext o
  cases o with
  | space j =>
    by_cases hj : j = i
    · subst hj
      simp only [holdings, update_self]
    · rw [update_of_ne fun h => hj (Owner.space.inj h)]
      simp only [holdings, update_of_ne hj]
  | _ => rfl

theorem holdings_pipe (f : Frame) (x : Option Pipe) : holdings kstack dir (update pipe f x) boot =
      update (holdings kstack dir pipe boot) (.pipe f) (x.elim 0 fun _ => one f) := by
  funext o
  cases o with
  | pipe g =>
    by_cases hg : g = f
    · subst hg
      simp only [holdings, update_self]
    · rw [update_of_ne fun h => hg (Owner.pipe.inj h)]
      simp only [holdings, update_of_ne hg]
  | _ => rfl

end

namespace State

variable {kmap : Kmap} {s s' : State} {pool : List Frame}

def held (s : State) : Owner → Frame → Nat :=
  holdings s.kstack s.dir s.pipe (s.kpgdir.uses + fun f => s.cpuStacks.count f)

/-- The owner has the page: as the stack of an entry in use, as a directory of such an entry or a page
table or a user page in it, as an open pipe, or since the start. -/
def Owns (s : State) : Owner → Frame → Prop
  | .kstack q, f => (s.table.proc q).state ≠ .unused ∧ s.kstack q = some f
  | .space i, f => (∃ q, (s.table.proc q).state ≠ .unused ∧ s.pgdir q = some i) ∧
      ∃ d, s.dir i = some d ∧ d.Holds f
  | .pipe g, f => g = f ∧ (s.pipe f).isSome
  | .boot, f => s.kpgdir.Holds f ∨ f ∈ s.cpuStacks

/-- Free and owned together, every page of the pool is there as often as in the pool. -/
def Balances (pool : List Frame) (s : State) : Prop :=
  Ledger.Balanced { free := s.kmem.freelist, held := s.held } pool

/-- No other entry in use has the directory of `q`. -/
def Sole (s : State) (q : Slot) : Prop :=
  ∀ r, r ≠ q → (s.table.proc r).phase ≠ .vacant → s.pgdir r ≠ s.pgdir q

/-- No allocation of a stack or of a copy fails, `thread_join` reaps nobody, and `wait` and `exec` free
only directories that no other entry in use has. -/
def Conserves (kmap : Kmap) (s : State) : Act → Prop
  | .table a =>
    match s.table.change? a with
    | some (.drop ..) => False
    | some (.collect .threadJoin ..) => False
    | some (.collect .wait _ q) => s.Sole q
    | _ => True
  | .exec p phdrs args => s.replaces kmap phdrs args → s.Sole p
  | _ => True

structure Accounts (pool : List Frame) (s : State) : Prop where
  balances : s.Balances pool
  stack : ∀ {q f}, s.kstack q = some f → ¬ s.table.Stackless q
  used : ∀ {i d}, s.dir i = some d → ∃ q, (s.table.proc q).phase ≠ .vacant ∧ s.pgdir q = some i
  space : ∀ q, (s.table.proc q).phase ≠ .vacant → s.HasSpace q
  small : ∀ q, s.sz q < kernbase

theorem balanced_keeps {held : Owner → Frame → Nat} {k k' : Kmem} {x y : Frame → Nat}
    (h : Ledger.Balanced { free := k.freelist, held := held } pool) (o : Owner) (ho : held o = x)
    (hkeep : Keeps x k y k') : Ledger.Balanced { free := k'.freelist, held := update held o y } pool := by
  refine h.update o y fun f => ?_
  have hcount := hkeep.count f
  simp only [Kmem.free] at hcount
  rw [ho]
  omega

namespace Balances

/-! What an entry, a directory number or a pipe has changes, and the free list with it. -/

variable {k : Kmem}

theorem setStack (h : s.Balances pool) {q : Slot} {x y : Option Frame}
    (hq : s.kstack q = x) (hkeep : Keeps (x.elim 0 one) s.kmem (y.elim 0 one) k) :
    ({ s with kstack := update s.kstack q y, kmem := k } : State).Balances pool := by
  unfold Balances held
  rw [holdings_kstack]
  exact balanced_keeps h (.kstack q) (by simp only [held, holdings, hq]) hkeep

theorem setDir (h : s.Balances pool) {i : Nat} {x y : Option Pgdir} (hi : s.dir i = x)
    (hkeep : Keeps (usesOf x) s.kmem (usesOf y) k) :
    ({ s with dir := update s.dir i y, kmem := k } : State).Balances pool := by
  unfold Balances held
  rw [holdings_dir]
  exact balanced_keeps h (.space i) (by simp only [held, holdings, hi]) hkeep

theorem setPipe (h : s.Balances pool) {f : Frame} {x y : Option Pipe} (hf : s.pipe f = x)
    (hkeep : Keeps (x.elim 0 fun _ => one f) s.kmem (y.elim 0 fun _ => one f) k) :
    ({ s with pipe := update s.pipe f y, kmem := k } : State).Balances pool := by
  unfold Balances held
  rw [holdings_pipe]
  exact balanced_keeps h (.pipe f) (by simp only [held, holdings, hf]) hkeep

theorem addSpace (hs : s.Wf) (h : s.Balances pool) (q : Slot) {d : Pgdir} (sz : Nat)
    (hkeep : Keeps 0 s.kmem (usesOf (some d)) k) : (s.addSpace q d sz k).Balances pool :=
  h.setDir (y := some d) (hs.unmade _ le_rfl) hkeep

end Balances

namespace Accounts

variable {t : Ptable.State}

theorem of_table (h : s.Accounts pool) {c : Option Change} {e : State}
    (hshift : s.table.Shift t c) (hfresh : Change.fresh c = none) (hgone : Change.gone c = none)
    (hbalances : e.Balances pool) (hstack : ∀ {q f}, e.kstack q = some f → ¬ t.Stackless q)
    (hpgdir : e.pgdir = s.pgdir) (hdir : e.dir = s.dir) (hsz : e.sz = s.sz) :
    ({ e with table := t } : State).Accounts pool where
  balances := hbalances
  stack := hstack
  used {i d} hi := by
    obtain ⟨q, hq, hqi⟩ := h.used (hdir ▸ hi)
    refine ⟨q, (hshift.stays hq).resolve_left ?_, hpgdir ▸ hqi⟩
    rw [hgone]
    nofun
  space q hq := by
    have hq' := (hshift.occupied hq).resolve_left (by rw [hfresh]; nofun)
    obtain ⟨i, d, hi, hd⟩ := h.space q hq'
    exact ⟨i, d, hpgdir ▸ hi, hdir ▸ hd⟩
  small q := hsz ▸ h.small q

theorem stackless_step (h : s.Accounts pool) {c : Option Change}
    (hshift : s.table.Shift t c) {q : Slot} {f : Frame} (hbare : Change.bare c ≠ some q)
    (hq : s.kstack q = some f) : ¬ t.Stackless q := fun hless =>
  h.stack hq ((hshift.stackless q hless).resolve_right hbare)

theorem effect (hs : s.Wf) (h : s.Accounts pool) {b : Ptable.Act} {e : State}
    (hstep : s.table.step b = some t) (heff : Effect kmap s b (s.table.change? b) e)
    (hown : s.Conserves kmap (.table b)) : ({ e with table := t } : State).Accounts pool := by
  have hshift := shift_of_step hs hstep
  simp only [Conserves] at hown
  generalize s.table.change? b = c at hshift heff hown
  cases heff with
  | none => exact h.of_table hshift rfl rfl h.balances (h.stackless_step hshift (by rintro ⟨⟩)) rfl rfl rfl
  | stack p np call f k hpc hk =>
    have hnone : s.kstack np = none := by
      by_contra hsome
      obtain ⟨g, hg⟩ := Option.ne_none_iff_exists'.mp hsome
      exact h.stack hg (.inr ⟨p, call, hpc⟩)
    refine h.of_table hshift rfl rfl ?_ (fun {q g} hq => ?_) rfl rfl rfl
    · exact h.balances.setStack (y := some f) hnone (.kalloc hk)
    · by_cases hqnp : q = np
      · exact hqnp ▸ Ptable.State.not_stackless_of_step hs.table hpc hstep
      · exact h.stackless_step hshift (by rintro ⟨⟩) ((update_of_ne hqnp ..).symm.trans hq)
  | noStack _ p np | noFork _ p np i src k f hcopy hstack | join _ p q => exact hown.elim
  | thread _ p np hp =>
    obtain ⟨hvacant, -⟩ := hshift.fresh np rfl
    constructor
    · exact h.balances
    · exact h.stackless_step hshift (by rintro ⟨⟩)
    · intro i d hi
      obtain ⟨q, hq, hqi⟩ := h.used hi
      have hqnp : q ≠ np := fun heq => hq (heq ▸ hvacant)
      exact ⟨q, (hshift.stays hq).resolve_left (by rintro ⟨⟩), (update_of_ne hqnp ..).trans hqi⟩
    · intro r hr
      by_cases hrnp : r = np
      · subst hrnp
        obtain ⟨i, d, hi, hd⟩ := h.space p (by rw [hp]; rintro ⟨⟩)
        exact ⟨i, d, (update_self ..).trans hi, hd⟩
      · have hr' := (hshift.occupied hr).resolve_left fun heq => hrnp (Option.some.inj heq).symm
        obtain ⟨i, d, hi, hd⟩ := h.space r hr'
        exact ⟨i, d, (update_of_ne hrnp ..).trans hi, hd⟩
    · intro r
      change update s.sz np (s.sz p) r < kernbase
      rw [update_apply]
      split_ifs
      · exact h.small p
      · exact h.small r
  | fork _ p np i src d k hp hpgdir hsrc hcopy =>
    obtain ⟨hvacant, hlive⟩ := hshift.fresh np rfl
    constructor
    · have hkeep := (copyuvm_keeps kmap src s.kmem (Nat.le_of_lt (h.small p))).1 _ hcopy d rfl
      exact h.balances.addSpace hs np (s.sz p) hkeep
    · exact h.stackless_step hshift (by rintro ⟨⟩)
    · intro j d' hj
      by_cases hjn : j = s.ndir
      · subst hjn
        exact ⟨np, by rw [hlive]; rintro ⟨⟩, update_self ..⟩
      · obtain ⟨q, hq, hqj⟩ := h.used ((update_of_ne hjn ..).symm.trans hj)
        have hqnp : q ≠ np := fun heq => hq (heq ▸ hvacant)
        exact ⟨q, (hshift.stays hq).resolve_left (by rintro ⟨⟩), (update_of_ne hqnp ..).trans hqj⟩
    · intro r hr
      by_cases hrnp : r = np
      · subst hrnp
        exact ⟨s.ndir, d, update_self .., update_self ..⟩
      · have hr' := (hshift.occupied hr).resolve_left fun heq => hrnp (Option.some.inj heq).symm
        obtain ⟨j, d', hj, hd'⟩ := h.space r hr'
        exact ⟨j, d', (update_of_ne hrnp ..).trans hj,
          (update_of_ne (Nat.ne_of_lt (hs.known hj)) ..).trans hd'⟩
    · intro r
      change update s.sz np (s.sz p) r < kernbase
      rw [update_apply]
      split_ifs
      · exact h.small p
      · exact h.small r
  | wait _ p q f i d k hstack hpgdir hdir hfree =>
    obtain ⟨-, hvacant⟩ := hshift.gone q rfl
    constructor
    · exact (h.balances.setStack (y := none) hstack (.kfree 0 s.kmem f)).setDir (y := none) hdir
        ((freevm_keeps d _).1 k hfree)
    · intro r g hr
      change update s.kstack q none r = some g at hr
      have hrq : r ≠ q := by
        rintro rfl
        rw [update_self] at hr
        cases hr
      rw [update_of_ne hrq] at hr
      exact h.stackless_step hshift (fun heq => hrq (Option.some.inj heq).symm) hr
    · intro j d' hj
      change update s.dir i none j = some d' at hj
      have hji : j ≠ i := by
        rintro rfl
        rw [update_self] at hj
        cases hj
      rw [update_of_ne hji] at hj
      obtain ⟨r, hr, hrj⟩ := h.used hj
      refine ⟨r, (hshift.stays hr).resolve_left fun heq => ?_, hrj⟩
      obtain rfl := Option.some.inj heq
      exact hji (Option.some.inj (hrj.symm.trans hpgdir))
    · intro r hr
      have hrq : r ≠ q := fun heq => hr (heq ▸ hvacant)
      have hr' := (hshift.occupied hr).resolve_left (by rintro ⟨⟩)
      obtain ⟨j, d', hj, hd'⟩ := h.space r hr'
      refine ⟨j, d', hj, (update_of_ne ?_ ..).trans hd'⟩
      rintro rfl
      exact hown r hrq hr' (hj.trans hpgdir.symm)
    · exact h.small

theorem call (hs : s.Wf) (h : s.Accounts pool) (hpool : pool.Nodup) {a : Act}
    (hown : s.Conserves kmap a) (hcall : Call kmap s a s') : s'.Accounts pool := by
  cases hcall with
  | noExec p phdrs args k himage =>
    refine ⟨?_, h.stack, h.used, h.space, h.small⟩
    have hkeep : Keeps 0 s.kmem 0 k := (execImage_keeps kmap phdrs args s.kmem).1 _ himage
    refine h.balances.exchange .boot (fun _ _ => rfl) fun f => ?_
    exact congrArg (· + _) (List.perm_iff_count.mp hkeep.perm f)
  | exec p phdrs args d sz k i old k' hp himage hpgdir hold hfree =>
    have hi := hs.known hpgdir
    have hsole : s.Sole p := hown (by rw [replaces, himage])
    have hused : (s.table.proc p).phase ≠ .vacant := by
      rw [hp]
      rintro ⟨⟩
    constructor
    · have hkeep := (execImage_keeps kmap phdrs args s.kmem).1 _ himage
      exact (h.balances.addSpace hs p sz hkeep).setDir (y := none) hold ((freevm_keeps old k).1 k' hfree)
    · exact h.stack
    · intro j d' hj
      change update (update s.dir s.ndir (some d)) i none j = some d' at hj
      have hji : j ≠ i := by
        rintro rfl
        rw [update_self] at hj
        cases hj
      rw [update_of_ne hji] at hj
      by_cases hjn : j = s.ndir
      · subst hjn
        exact ⟨p, hused, update_self ..⟩
      · rw [update_of_ne hjn] at hj
        obtain ⟨r, hr, hrj⟩ := h.used hj
        have hrp : r ≠ p := by
          rintro rfl
          exact hji (Option.some.inj (hrj.symm.trans hpgdir))
        exact ⟨r, hr, (update_of_ne hrp ..).trans hrj⟩
    · intro r hr
      by_cases hrp : r = p
      · subst hrp
        refine ⟨s.ndir, d, update_self .., ?_⟩
        exact (update_of_ne (Nat.ne_of_gt hi) ..).trans (update_self ..)
      · obtain ⟨j, d', hj, hd'⟩ := h.space r hr
        have hji : j ≠ i := by
          rintro rfl
          exact hsole r hrp hr (hj.trans hpgdir.symm)
        exact ⟨j, d', (update_of_ne hrp ..).trans hj, (update_of_ne hji ..).trans
          ((update_of_ne (Nat.ne_of_lt (hs.known hj)) ..).trans hd')⟩
    · intro r
      have hsz : sz < kernbase := ((execImage_spec kmap phdrs args s.kmem).of_ok himage d sz rfl).1
      change update s.sz p sz r < kernbase
      rw [update_apply]
      split_ifs
      · exact hsz
      · exact h.small r
  | sbrk p n i d r sz d' k hp hpgdir hdir hgrow =>
    obtain ⟨hkeep, hsz⟩ := growproc_keeps n d s.kmem (h.small p) hgrow
    constructor
    · exact h.balances.setDir (y := some d') hdir hkeep
    · exact h.stack
    · intro j d₁ hj
      by_cases hji : j = i
      · subst hji
        exact ⟨p, by rw [hp]; rintro ⟨⟩, hpgdir⟩
      · exact h.used ((update_of_ne hji ..).symm.trans hj)
    · intro r hr
      obtain ⟨j, d₁, hj, hd₁⟩ := h.space r hr
      by_cases hji : j = i
      · subst hji
        exact ⟨j, d', hj, update_self ..⟩
      · exact ⟨j, d₁, hj, (update_of_ne hji ..).trans hd₁⟩
    · intro r
      change update s.sz p sz r < kernbase
      rw [update_apply]
      split_ifs
      · exact hsz
      · exact h.small r
  | noPipe p => exact ⟨h.balances, h.stack, h.used, h.space, h.small⟩
  | pipe p f k hk =>
    refine ⟨?_, h.stack, h.used, h.space, h.small⟩
    have hnone : s.pipe f = none := by
      have hheld := h.balances.held_of_free hpool (Kmem.mem_freelist_of_kalloc hk) (.pipe f)
      by_contra hsome
      obtain ⟨x, hx⟩ := Option.ne_none_iff_exists'.mp hsome
      simp only [held, holdings, hx, Option.elim_some, one_self] at hheld
      cases hheld
    exact h.balances.setPipe (y := some _) hnone (.kalloc hk)
  | closeEnd f writable x x' hpipe =>
    exact ⟨h.balances.setPipe (y := some x') hpipe (.refl _ _), h.stack, h.used, h.space, h.small⟩
  | closePipe f writable x hpipe =>
    refine ⟨?_, h.stack, h.used, h.space, h.small⟩
    exact h.balances.setPipe (y := none) hpipe (.kfree 0 s.kmem f)

theorem next (hs : s.Wf) (h : s.Accounts pool) (hpool : pool.Nodup) {a : Act}
    (hown : s.Conserves kmap a) (hnext : s.next kmap a = some s') : s'.Accounts pool := by
  obtain ⟨b, t, e, rfl, hstep, heff, rfl⟩ | hcall := next_cases hnext
  · exact h.effect hs hstep heff hown
  · exact h.call hs hpool hown hcall

theorem owns_iff (h : s.Accounts pool) {o : Owner} {f : Frame} : s.Owns o f ↔ s.held o f ≠ 0 := by
  cases o with
  | kstack q =>
    cases hq : s.kstack q with
    | none =>
      simp only [Owns, held, holdings, hq, Option.elim_none, Pi.zero_apply, reduceCtorEq, and_false,
        ne_eq, not_true_eq_false]
    | some g =>
      have hstate : (s.table.proc q).state ≠ .unused := fun hunused => h.stack hq (.inl hunused)
      simp only [Owns, held, holdings, hq, Option.elim_some, Option.some.injEq]
      exact ⟨fun hown => one_ne_zero.mpr hown.2.symm, fun hheld => ⟨hstate, (one_ne_zero.mp hheld).symm⟩⟩
  | space i =>
    cases hi : s.dir i with
    | none =>
      simp only [Owns, held, holdings, hi, usesOf, Option.elim_none, Pi.zero_apply, reduceCtorEq,
        false_and, exists_false, and_false, ne_eq, not_true_eq_false]
    | some d =>
      obtain ⟨q, hq, hqi⟩ := h.used hi
      have hstate : (s.table.proc q).state ≠ .unused := fun hunused => hq (by rw [Proc.phase, hunused])
      simp only [Owns, held, holdings, hi, usesOf, Option.elim_some, Option.some.injEq, exists_eq_left']
      exact ⟨fun hown => hown.2.uses_ne_zero, fun hheld => ⟨⟨q, hstate, hqi⟩, Pgdir.holds_iff.mpr hheld⟩⟩
  | pipe g =>
    cases hg : s.pipe g with
    | none =>
      simp only [Owns, held, holdings, hg, Option.elim_none, Pi.zero_apply, ne_eq, not_true_eq_false,
        iff_false, not_and]
      rintro rfl
      rw [hg]
      rintro ⟨⟩
    | some x =>
      simp only [Owns, held, holdings, hg, Option.elim_some]
      refine ⟨fun hown => one_ne_zero.mpr hown.1.symm, fun hheld => ?_⟩
      obtain rfl := one_ne_zero.mp hheld
      exact ⟨rfl, by rw [hg]; rfl⟩
  | boot =>
    have hcount : s.cpuStacks.count f ≠ 0 ↔ f ∈ s.cpuStacks := by
      rw [← Nat.pos_iff_ne_zero, List.count_pos_iff]
    simp only [Owns, held, holdings, Pi.add_apply, Pgdir.holds_iff, ← hcount]
    omega

end Accounts

end State

/-! ### The start -/

theorem freerange_free (l : List Frame) (k : Kmem) (f : Frame) :
    (freerange l k).free f = k.free f + l.count f := by
  induction l generalizing k with
  | nil => rfl
  | cons g l ih =>
    refine (ih (k.kfree g)).trans ?_
    rw [Kmem.free_kfree, List.count_cons]
    simp only [one, beq_iff_eq]
    omega

theorem startothers_free {n : Nat} {k k' : Kmem} {fs : List Frame}
    (h : startothers n k = some (fs, k')) (f : Frame) : k'.free f + fs.count f = k.free f := by
  induction n generalizing k fs with
  | zero =>
    cases h
    rfl
  | succ n ih =>
    obtain ⟨⟨g, k₁⟩, hg, h⟩ := Option.bind_eq_some_iff.mp h
    obtain ⟨⟨fs', k₂⟩, hrest, h⟩ := Option.bind_eq_some_iff.mp h
    cases h
    have hfree := Kmem.free_kalloc hg f
    have := ih hrest
    rw [List.count_cons]
    simp only [one, beq_iff_eq] at hfree ⊢
    omega

theorem inituvm_uses {d d' : Pgdir} {init : Nat → UInt8} {k k' : Kmem} (hpages : Pages d 0)
    (hinit : inituvm d init k = .ok (d', k')) (hentry : (d'.entry 0).isSome) (f : Frame) :
    d'.uses f + k'.free f = d.uses f + k.free f := by
  have habsent := hpages.above 0 (by decide) le_rfl
  unfold inituvm at hinit
  split at hinit
  case h_1 => cases hinit
  rename_i g k₁ hk
  obtain ⟨mapped, d₁, k₂, hmap, -, hentries⟩ := mappages_page userPerm g (k₁.memset g 0)
    (by decide : 0 < npages) habsent
  have hkeep := (mappages_page_keeps d userPerm g (k₁.memset g 0) (by decide : 0 < userPages)).1 _ hmap
  rw [Nat.mul_zero] at hmap
  rw [hmap] at hinit
  cases hinit
  cases mapped with
  | false =>
    rw [hentries 0 (by decide), if_neg (fun h => nomatch h.1), habsent] at hentry
    cases hentry
  | true =>
    have hcount := hkeep.count f
    have hfree := Kmem.free_kalloc hk f
    simp only [if_true, Pi.add_apply, Kmem.free_memset] at hcount
    change d'.uses f + k₂.free f = _
    omega

theorem boot_count {kmap : Kmap} {m : Machine} {kpgdir d₀ d : Pgdir} {cpuStacks : List Frame}
    {stack : Frame} {k₁ k₂ k₃ k₄ k : Kmem}
    (hkpgdir : setupkvm kmap (freerange m.lo { freelist := [], mem := m.mem, fails := m.fails, calls := [] }) =
      .ok (some kpgdir, k₁))
    (hothers : startothers m.others k₁ = some (cpuStacks, k₂))
    (hstack : (freerange m.hi k₂).kalloc = some (stack, k₃))
    (hsetup : setupkvm kmap k₃ = .ok (some d₀, k₄)) (hinit : inituvm d₀ m.init k₄ = .ok (d, k))
    (hentry : (d.entry 0).isSome) (f : Frame) :
    k.free f + (kpgdir.uses f + cpuStacks.count f + (one stack f + d.uses f)) = (m.lo ++ m.hi).count f := by
  have hlo := freerange_free m.lo { freelist := [], mem := m.mem, fails := m.fails, calls := [] } f
  have hfirst := ((setupkvm_keeps kmap _).1 _ hkpgdir).count f
  have hcpu := startothers_free hothers f
  have hhi := freerange_free m.hi k₂ f
  have htaken := Kmem.free_kalloc hstack f
  have hsecond := ((setupkvm_keeps kmap _).1 _ hsetup).count f
  have huser := inituvm_uses ((setupkvm_pages kmap k₃).of_ok hsetup d₀ rfl) hinit hentry f
  simp only [usesOf, Option.elim_some, Pi.zero_apply] at hfirst hsecond
  simp only [Kmem.free, List.count_nil] at *
  rw [List.count_append]
  omega

theorem boot_accounts {kmap : Kmap} {m : Machine} {s : State} (hboot : boot kmap m = some s) :
    s.Accounts (m.lo ++ m.hi) := by
  obtain ⟨kpgdir, k₁, cpuStacks, k₂, stack, k₃, d₀, k₄, d, k, hkpgdir, hothers, hstack, hsetup, hinit,
    hentry, rfl⟩ := boot_eq_some hboot
  constructor
  · intro f
    have hcount := boot_count hkpgdir hothers hstack hsetup hinit hentry f
    refine ⟨{.boot, .kstack initproc, .space 0}, fun o ho => ?_, ?_⟩
    · cases o with
      | kstack q =>
        have hq : q ≠ initproc := fun heq => ho (by simp [heq])
        simp [State.held, holdings, State.init, update_of_ne hq]
      | space i =>
        have hi : i ≠ 0 := fun heq => ho (by simp [heq])
        simp [State.held, holdings, State.init, update_of_ne hi, usesOf]
      | pipe g => rfl
      | boot => exact absurd (by simp) ho
    · rw [Finset.sum_insert (by decide), Finset.sum_insert (by decide), Finset.sum_singleton]
      exact hcount
  · intro q f hq hless
    change update (fun _ => none) initproc (some stack) q = some f at hq
    by_cases heq : q = initproc
    · subst heq
      obtain hunused | ⟨p, call, hp⟩ := hless
      · cases hunused
      · cases hp
    · rw [update_of_ne heq] at hq
      cases hq
  · intro i d' hi
    change update (fun _ => none) 0 (some d) i = some d' at hi
    by_cases heq : i = 0
    · subst heq
      exact ⟨initproc, nofun, rfl⟩
    · rw [update_of_ne heq] at hi
      cases hi
  · intro q hq
    obtain rfl := phase_init hq
    exact ⟨0, d, rfl, rfl⟩
  · intro q
    change update (fun _ => 0) initproc pgsize q < kernbase
    rw [update_apply]
    split_ifs <;> decide

open State

/-- **Pages are conserved** in every run in which no allocation for a new process fails,
`thread_join` reaps nobody, and `wait` and `exec` free only directories that no other entry in use has:
a page that is not free has one owner, a free page has none, and where the owners have equally many
pages, equally many are free. -/
theorem pages_conserved (kmap : Kmap) (m : Machine) (hpool : (m.lo ++ m.hi).Nodup) {s₀ s : State}
    (hboot : boot kmap m = some s₀) (hrun : Reaches (State.next kmap) (State.Conserves kmap) s₀ s) :
    (∀ f ∈ m.lo ++ m.hi, f ∉ s.kmem.freelist → ∃! o, s.Owns o f) ∧
    (∀ f ∈ s.kmem.freelist, f ∈ m.lo ++ m.hi ∧ ∀ o, ¬ s.Owns o f) ∧
    ∀ s', Reaches (State.next kmap) (State.Conserves kmap) s₀ s' →
      (∀ o, Set.ncard {f | s.Owns o f} = Set.ncard {f | s'.Owns o f}) →
        s.kmem.freelist.length = s'.kmem.freelist.length := by
  have haccounts : ∀ {s}, Reaches (State.next kmap) (State.Conserves kmap) s₀ s →
      s.Wf ∧ s.Accounts (m.lo ++ m.hi) := by
    intro s hrun
    refine hrun.invariant (I := fun s => s.Wf ∧ s.Accounts (m.lo ++ m.hi))
      ⟨(boot_wf hboot).1, boot_accounts hboot⟩ ?_
    rintro s a s' ⟨hs, h⟩ hown hnext
    exact ⟨hs.next hnext, h.next hs hpool hown hnext⟩
  obtain ⟨-, h⟩ := haccounts hrun
  refine ⟨fun f hf hnot => ?_, fun f hf => ⟨h.balances.mem_pool_of_free hf, fun o hown => ?_⟩,
    fun s' hrun' hsame => ?_⟩
  · obtain ⟨o, ho, hunique⟩ := h.balances.existsUnique_owner hpool hf hnot
    exact ⟨o, h.owns_iff.mpr ho, fun o' ho' => hunique o' (h.owns_iff.mp ho')⟩
  · exact h.owns_iff.mp hown (h.balances.held_of_free hpool hf o)
  · obtain ⟨-, h'⟩ := haccounts hrun'
    refine h.balances.length_free_eq hpool h'.balances fun o => ?_
    have hholding := hsame o
    simp only [h.owns_iff, h'.owns_iff] at hholding
    exact hholding

instance (s : State) (q : Slot) : Decidable (s.Sole q) :=
  inferInstanceAs (Decidable (∀ _, _ → _ → _))

instance (kmap : Kmap) (s : State) (a : Act) : Decidable (s.Conserves kmap a) :=
  match a with
  | .table a =>
    match h : s.table.change? a with
    | some (.collect .wait _ q) => decidable_of_iff (s.Sole q) (by simp only [Conserves, h])
    | some (.collect .threadJoin _ _) => .isFalse (by simp only [Conserves, h, not_false_iff])
    | some (.fill ..) => .isTrue (by simp only [Conserves, h])
    | some (.drop ..) => .isFalse (by simp only [Conserves, h, not_false_iff])
    | none => .isTrue (by simp only [Conserves, h])
  | .exec p phdrs args => (inferInstance : Decidable (s.replaces kmap phdrs args = true → s.Sole p))
  | .sbrk .. => .isTrue trivial
  | .pipe .. => .isTrue trivial
  | .pipeclose .. => .isTrue trivial

theorem pages_conserved_fork : ∃ s₀ s, boot Kmap.onePage smallMachine = some s₀ ∧
    Reaches (State.next Kmap.onePage) (State.Conserves Kmap.onePage) s₀ s ∧
    s.kmem.freelist.length = s₀.kmem.freelist.length ∧ ∃! o, s.Owns o 20 := by
  have hrun : ((boot .onePage smallMachine).bind fun s₀ =>
      (runActs (State.next Kmap.onePage) (State.Conserves Kmap.onePage)
        (childReaped [] .fork (.exit 1) (.wait 0)) s₀).map fun s =>
          (decide (s.kmem.freelist.length = s₀.kmem.freelist.length), decide (20 ∈ s.kmem.freelist))) =
      some (true, false) := by decide +kernel
  obtain ⟨s₀, hboot, hmap⟩ := Option.bind_eq_some_iff.mp hrun
  obtain ⟨s, hreach, heq⟩ := Reaches.of_map hmap
  simp only [Prod.mk.injEq, decide_eq_true_eq, decide_eq_false_iff_not] at heq
  exact ⟨s₀, s, hboot, hreach, heq.1, (pages_conserved _ _ (by decide) hboot hreach).1 20 (by decide) heq.2⟩

/-- `thread_join` forgets the kernel stack of the thread: the page is not free and nobody owns it. Two
pages less are free than at the start, and the process has grown by one. -/
theorem thread_join_loses_stack : ∃ s₀ s, boot Kmap.onePage smallMachine = some s₀ ∧
    Reaches (State.next Kmap.onePage) (fun _ _ => True) s₀ s ∧ (s.table.proc 1).state = .unused ∧
    s.kmem.freelist.length + 2 = s₀.kmem.freelist.length ∧ 14 ∉ s.kmem.freelist ∧ ∀ o, ¬ s.Owns o 14 := by
  have hrun : ((boot .onePage smallMachine).bind fun s₀ =>
      (runActs (State.next Kmap.onePage) (fun _ _ => True)
        (childReaped [.sbrk 0 4096] .threadCreate (.threadExit 1) (.threadJoin 0)) s₀).map fun s =>
          decide ((s.table.proc 1).state = .unused ∧
            s.kmem.freelist.length + 2 = s₀.kmem.freelist.length ∧ 14 ∉ s.kmem.freelist ∧
            (∀ q, s.kstack q ≠ some 14) ∧ s.ndir = 1 ∧ usesOf (s.dir 0) 14 = 0 ∧
            (s.pipe 14).isSome = false ∧ s.kpgdir.uses 14 = 0 ∧ 14 ∉ s.cpuStacks)) = some true := by
    decide +kernel
  obtain ⟨s₀, hboot, hmap⟩ := Option.bind_eq_some_iff.mp hrun
  obtain ⟨s, hs, heq⟩ := Option.map_eq_some_iff.mp hmap
  have hreach := Reaches.of_runActs _ .refl hs
  have hwf : s.Wf := hreach.invariant (boot_wf hboot).1 fun _ _ _ hs _ hnext => hs.next hnext
  obtain ⟨hunused, hlength, hfree, hkstack, hndir, hdir, hpipe, hkpgdir, hcpu⟩ := of_decide_eq_true heq
  refine ⟨s₀, s, hboot, hreach, hunused, hlength, hfree, fun o => ?_⟩
  cases o with
  | kstack q => exact fun hown => hkstack q hown.2
  | space i =>
    rintro ⟨-, d, hi, hd⟩
    have hlt : i < s.ndir := by
      by_contra hge
      rw [hwf.unmade i (Nat.le_of_not_lt hge)] at hi
      cases hi
    obtain rfl : i = 0 := by omega
    rw [hi] at hdir
    exact hd.uses_ne_zero hdir
  | pipe g =>
    rintro ⟨rfl, hsome⟩
    rw [hpipe] at hsome
    cases hsome
  | boot => exact fun hown => hown.elim (fun h => h.uses_ne_zero hkpgdir) hcpu

end Xv6.Memory
