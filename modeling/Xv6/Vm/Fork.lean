import Xv6.Vm.KernelMap
import Xv6.Ptable.Model

/-!
# A fork that fails

`allocproc` and `fork` in `proc.c`, run by one process, with the pages, the counts of open files and
inodes and the process table as far as `fork` uses them.
-/

namespace Xv6.Vm

open Function (update update_self update_of_ne update_idem)

open Ptable (Slot ProcState)

/-! ### A copy that fails -/

/-- The call of `kalloc` that comes after those that succeed is not for a page table of the first `n`
user pages. The calls before `copyuvm` are `before`. -/
def Tidy (kmap : Kmap) (n before : Nat) (k : Kmem) : Prop :=
  ∀ j, 1024 * j < n → k.grants ≠ before + 2 + kmap.tables + 1025 * j

structure Copying (total v : Nat) (d : Pgdir) (k : Kmem) : Prop where
  pde : ∀ i < userTables, (d.pde i).isSome ↔ 1024 * i < v
  grants : total = k.grants + v + (v + 1023) / 1024

/-- A copy that fails gives everything back if `tidy`, and all but one page if not. -/
def GivesBack (tidy : Prop) (held : Frame → Nat) (k k' : Kmem) : Prop :=
  tidy ∧ Keeps held k 0 k' ∨ ¬ tidy ∧ ∃ g, Keeps held k (one g) k'

theorem GivesBack.after {tidy : Prop} {held held' : Frame → Nat} {k k' k'' : Kmem}
    (h : GivesBack tidy held' k' k'') (hkeep : Keeps held k held' k') : GivesBack tidy held k k'' :=
  h.imp (fun h => ⟨h.1, hkeep.trans h.2⟩) fun ⟨hnot, g, h⟩ => ⟨hnot, g, hkeep.trans h⟩

theorem copyLoop_gives_back {src : Pgdir} {sz total : Nat} (hsz : sz < kernbase) (fuel v : Nat) (d : Pgdir)
    (k : Kmem) (hcopying : Copying total v d k) :
    Yields d.uses k (copyLoop src sz fuel (pgsize * v) d k) fun r => r.1 = none →
      GivesBack (∀ j, 1024 * j < pages sz → total ≠ 1025 * j + 1) d.uses k r.2 := by
  induction fuel generalizing v d k with
  | zero => exact .ok (by rintro ⟨⟩)
  | succ fuel ih =>
    by_cases hlt : pgsize * v < sz
    · have hpages := (lt_pages hsz.le).mpr hlt
      have hv := lt_userPages hsz.le hlt
      have hindex : v / 1024 < userTables := by
        simp only [userPages, kernbase, pgsize] at hv
        simp only [userTables, kernbase]
        omega
      have htable := hcopying.pde _ hindex
      have hgrants := hcopying.grants
      refine copyLoop_turn hsz.le hlt (fun k' hk hfree _ => ?_) (fun hk hcall hfree _ => ?_)
        fun hk hcall hmap => ?_
      · have hzero := Kmem.grants_of_none hk
        exact .inl ⟨fun j _ => by omega, hfree⟩
      · -- the page table is missing, so the page is the first of its table, and it is lost
        have hone := Kmem.grants_kalloc hk
        obtain ⟨hmissing, hzero⟩ := mappages_page_grants (lt_npages hv) hcall
        rw [htable] at hmissing
        rw [Kmem.grants_memmove] at hzero
        exact .inr ⟨fun htidy => htidy (v / 1024) (by omega) (by omega), _, hfree⟩
      · have hone := Kmem.grants_kalloc hk
        obtain ⟨hpde, hcalls⟩ := mappages_page_grants (lt_npages hv) hcall
        rw [Kmem.grants_memmove] at hcalls
        refine (ih (v + 1) _ _ ⟨fun i hi => ?_, ?_⟩).mono fun r hr hnone => (hr hnone).after hmap
        · rw [hpde, hcopying.pde i hi]
          omega
        · split_ifs at hcalls with hsome
          · have := htable.mp hsome
            omega
          · have := mt htable.mpr hsome
            omega
    · rw [copyLoop, if_neg hlt]
      exact .ok (by rintro ⟨⟩)

theorem copyuvm_gives_back {sz : Nat} (kmap : Kmap) (src : Pgdir) (k : Kmem) (hsz : sz < kernbase) :
    Yields 0 k (copyuvm kmap src sz k) fun r => r.1 = none →
      GivesBack (Tidy kmap (pages sz) 0 k) 0 k r.2 := by
  refine .bind (setupkvm_keeps kmap k).and_eq ?_
  rintro ⟨_ | d, k₁⟩ ⟨hsetup, hmake⟩
  · have hfew := setupkvm_none hsetup
    exact .ok fun _ => .inl ⟨fun j _ => by omega, hmake⟩
  · obtain ⟨hgrants, hpde⟩ := setupkvm_tables hsetup
    have hcopying : Copying k₁.grants 0 d k₁ := by
      refine ⟨fun i hi => ?_, by omega⟩
      exact ⟨fun h => absurd h (hpde i hi), fun h => absurd h (Nat.not_lt_zero _)⟩
    have htidy : Tidy kmap (pages sz) 0 k ↔ ∀ j, 1024 * j < pages sz → k₁.grants ≠ 1025 * j + 1 :=
      forall₂_congr fun j _ => by omega
    rw [htidy]
    exact ((copyLoop_gives_back hsz (turns 0 sz) 0 d k₁ hcopying).mono fun r hr hnone =>
      (hr hnone).after hmake).after hmake

structure Proc where
  state : ProcState
  pid : Int
  sz : Nat
  pgdir : Option Pgdir
  kstack : Option Frame
  parent : Option Slot
  ofile : Fin nofile → Option (Fin nfile)
  cwd : Fin ninode

structure System where
  proc : Slot → Proc
  nextpid : Int
  kmem : Kmem
  fileRef : Fin nfile → Nat
  inodeRef : Fin ninode → Nat

namespace System

def setProc (s : System) (q : Slot) (x : Proc) : System :=
  { s with proc := update s.proc q x }

def unused? (s : System) : Option Slot :=
  (List.finRange nproc).find? fun q => (s.proc q).state = .unused

def allocproc (frames : (Nat → UInt8) → Nat → UInt8) (s : System) : Option (Slot × Frame) × System :=
  match s.unused? with
  | none => (none, s)
  | some np =>
    let s := { s.setProc np { s.proc np with state := .embryo, pid := s.nextpid } with
      nextpid := Ptable.int32 (s.nextpid + 1) }
    match s.kmem.kalloc with
    | none =>
      (none, { s.setProc np { s.proc np with kstack := none, state := .unused } with
        kmem := s.kmem.refused })
    | some (stack, k) =>
      (some (np, stack), { s.setProc np { s.proc np with kstack := some stack } with
        kmem := { k with mem := update k.mem stack (frames (k.mem stack)) } })

def dupFile (p np : Slot) (s : System) (fd : Fin nofile) : System :=
  match (s.proc p).ofile fd with
  | none => s
  | some f =>
    { s.setProc np { s.proc np with ofile := update (s.proc np).ofile fd (some f) } with
      fileRef := update s.fileRef f (s.fileRef f + 1) }

def idup (s : System) (i : Fin ninode) : System :=
  { s with inodeRef := update s.inodeRef i (s.inodeRef i + 1) }

def fork (kmap : Kmap) (frames : (Nat → UInt8) → Nat → UInt8) (p : Slot) (src : Pgdir) (s : System) :
    Except Panic (Int × System) :=
  match s.allocproc frames with
  | (none, s) => .ok (-1, s)
  | (some (np, stack), s) => do
      match ← copyuvm kmap src (s.proc p).sz s.kmem with
      | (none, k) =>
        .ok (-1, { s.setProc np { s.proc np with pgdir := none, kstack := none, state := .unused } with
          kmem := k.kfree stack })
      | (some d, k) =>
        let s := { s.setProc np
          { s.proc np with pgdir := some d, sz := (s.proc p).sz, parent := some p } with kmem := k }
        let s := ((List.finRange nofile).foldl (dupFile p np) s).idup (s.proc p).cwd
        let s := s.setProc np { s.proc np with cwd := (s.proc p).cwd, state := .runnable }
        .ok ((s.proc np).pid, s)

/-! ### What a call that fails leaves -/

/-- The free pages, the counts and the processes are what they were. -/
structure Intact (s s' : System) : Prop where
  free : s'.kmem.freelist.Perm s.kmem.freelist
  files : s'.fileRef = s.fileRef
  inodes : s'.inodeRef = s.inodeRef
  state : ∀ q, (s'.proc q).state = (s.proc q).state
  proc : ∀ q, (s.proc q).state ≠ .unused → s'.proc q = s.proc q
  mem : ∀ f, f ∉ s.kmem.freelist → s'.kmem.mem f = s.kmem.mem f

variable {s s' : System} {np : Slot} {k : Kmem} {x : Proc}

theorem state_of_unused? (hnp : s.unused? = some np) : (s.proc np).state = .unused := by
  have hfound := List.find?_some hnp
  exact of_decide_eq_true hfound

theorem Intact.of_entry (hnp : (s.proc np).state = .unused) (hx : x.state = .unused)
    (hproc : s'.proc = update s.proc np x) (hfiles : s'.fileRef = s.fileRef)
    (hinodes : s'.inodeRef = s.inodeRef) (hkeep : Keeps 0 s.kmem 0 s'.kmem) : Intact s s' where
  free := hkeep.perm
  files := hfiles
  inodes := hinodes
  state q := by
    rw [hproc]
    by_cases hq : q = np
    · rw [hq, update_self, hx, hnp]
    · rw [update_of_ne hq]
  proc q hq := by
    rw [hproc, update_of_ne]
    rintro rfl
    exact hq hnp
  mem f hf := by
    refine hkeep.mem f ?_
    rw [Pi.zero_apply, Nat.zero_add]
    exact s.kmem.free_eq_zero.mpr hf

variable {frames : (Nat → UInt8) → Nat → UInt8}

theorem allocproc_none (kmap : Kmap) (n : Nat) (halloc : s.allocproc frames = (none, s')) :
    Intact s s' ∧ (s.unused? = none ∨ Tidy kmap n 1 s.kmem) := by
  unfold allocproc at halloc
  split at halloc
  · cases halloc
    exact ⟨⟨.refl _, rfl, rfl, fun _ => rfl, fun _ _ => rfl, fun _ _ => rfl⟩, .inl ‹_›⟩
  rename_i np hnp
  dsimp only at halloc
  split at halloc
  · rename_i hkalloc
    cases halloc
    have hzero : s.kmem.grants = 0 := Kmem.grants_of_none hkalloc
    exact ⟨.of_entry (state_of_unused? hnp) rfl (update_idem ..) rfl rfl
      (.refused _ _), .inr fun j _ heq => by omega⟩
  · cases halloc

theorem allocproc_some {stack : Frame} (halloc : s.allocproc frames = (some (np, stack), s')) :
    s.unused? = some np ∧ s'.fileRef = s.fileRef ∧ s'.inodeRef = s.inodeRef ∧
      (∃ x, s'.proc = update s.proc np x ∧ x.pid = s.nextpid ∧ x.sz = (s.proc np).sz) ∧
      Keeps 0 s.kmem (one stack + 0) s'.kmem ∧ s.kmem.grants = s'.kmem.grants + 1 := by
  unfold allocproc at halloc
  split at halloc
  · cases halloc
  rename_i np' hnp
  dsimp only at halloc
  split at halloc
  · cases halloc
  rename_i stack' k hkalloc
  cases halloc
  have hgrants : s.kmem.grants = k.grants + 1 := Kmem.grants_kalloc hkalloc
  refine ⟨hnp, rfl, rfl, ⟨_, update_idem .., ?_, ?_⟩, ?_, hgrants⟩
  · change (update s.proc np _ np).pid = _
    rw [update_self]
  · change (update s.proc np _ np).sz = _
    rw [update_self]
  · refine (Keeps.kalloc hkalloc).trans (Keeps.write rfl rfl fun f hf => ?_)
    refine update_of_ne ?_ ..
    rintro rfl
    exact one_add_ne_zero f 0 hf

theorem pid_foldl_dupFile (p np : Slot) (l : List (Fin nofile)) (s : System) :
    ((l.foldl (dupFile p np) s).proc np).pid = (s.proc np).pid := by
  induction l generalizing s with
  | nil => rfl
  | cons fd l ih =>
    rw [List.foldl_cons, ih]
    unfold dupFile
    split
    · rfl
    · change (update s.proc np _ np).pid = _
      rw [update_self]

theorem fork_intact {kmap : Kmap} {p : Slot} {src : Pgdir}
    (hsz : (s.proc p).sz < kernbase) (hpid : s.nextpid ≠ -1)
    (hfork : fork kmap frames p src s = .ok (-1, s')) :
    Intact s s' ↔ s.unused? = none ∨ Tidy kmap (pages (s.proc p).sz) 1 s.kmem := by
  unfold fork at hfork
  split at hfork
  · rename_i s₁ halloc
    cases hfork
    obtain ⟨hintact, hcond⟩ := allocproc_none kmap (pages (s.proc p).sz) halloc
    exact iff_of_true hintact hcond
  rename_i np stack s₁ halloc
  obtain ⟨hunused, hfiles, hinodes, ⟨x, hproc, hxpid, hxsz⟩, htake, hgrants⟩ := allocproc_some halloc
  have hsame : (s₁.proc p).sz = (s.proc p).sz := by
    rw [hproc]
    by_cases hp : p = np
    · rw [hp, update_self, hxsz]
    · rw [update_of_ne hp]
  obtain ⟨⟨_ | d, k⟩, hcopy, hfork⟩ := exists_of_bind_ok hfork
  · cases hfork
    rw [hsame] at hcopy
    have htidy : Tidy kmap (pages (s.proc p).sz) 1 s.kmem ↔ Tidy kmap (pages (s.proc p).sz) 0 s₁.kmem :=
      forall₂_congr fun j _ => by omega
    rw [hunused, htidy]
    rcases (copyuvm_gives_back kmap src s₁.kmem hsz).1 _ hcopy rfl with ⟨h, hback⟩ | ⟨h, g, hback⟩
    · have hkeep := (htake.trans (hback.frame (one stack))).trans (.kfree 0 k stack)
      refine iff_of_true (.of_entry
        (x := { s₁.proc np with pgdir := none, kstack := none, state := .unused })
        (state_of_unused? hunused) rfl ?_ hfiles hinodes hkeep) (.inr h)
      exact (congrArg (update · np _) hproc).trans (update_idem ..)
    · have hkeep := (htake.trans (hback.frame (one stack))).trans (.kfree (one g) k stack)
      refine iff_of_false (fun hintact => hkeep.not_perm hintact.free) ?_
      rintro (hnone | htidy)
      · cases hnone
      · exact h htidy
  · -- the child has the next pid
    have hret := congrArg Prod.fst (Except.ok.inj hfork)
    dsimp only [idup, setProc] at hret
    rw [update_self, pid_foldl_dupFile] at hret
    dsimp only at hret
    rw [update_self, hproc, update_self, hxpid] at hret
    exact absurd hret hpid

end System

/-- **A failing `copyuvm` leaks nothing**, nor does a failing `fork`, iff it is not the allocation of a
page table for user pages that fails. -/
theorem copyuvm_leaks_nothing (kmap : Kmap) {src : Pgdir} {sz : Nat} (hsz : sz < kernbase) :
    (∀ k k', copyuvm kmap src sz k = .ok (none, k') →
      (k'.freelist.Perm k.freelist ∧ (∀ f, f ∉ k.freelist → k'.mem f = k.mem f) ↔
        Tidy kmap (pages sz) 0 k)) ∧
    ∀ (frames : (Nat → UInt8) → Nat → UInt8) (p : Slot) (s s' : System),
      (s.proc p).pgdir = some src → (s.proc p).sz = sz → s.nextpid ≠ -1 →
      s.fork kmap frames p src = .ok (-1, s') →
      (s.Intact s' ↔ s.unused? = none ∨ Tidy kmap (pages sz) 1 s.kmem) := by
  refine ⟨fun k k' hcopy => ?_, fun frames p s s' _ hsize hpid hfork => ?_⟩
  · rcases (copyuvm_gives_back kmap src k hsz).1 _ hcopy rfl with ⟨h, hkeep⟩ | ⟨h, g, hkeep⟩
    · refine iff_of_true ⟨hkeep.perm, fun f hf => hkeep.mem f ?_⟩ h
      rw [Pi.zero_apply, Nat.zero_add]
      exact k.free_eq_zero.mpr hf
    · exact iff_of_false (fun hback => hkeep.not_perm hback.1) h
  · subst hsize
    exact System.fork_intact hsz hpid hfork

def refusedAfter (n : Nat) : Kmem := { eightFree with fails := List.replicate n false ++ [true] }

theorem copyuvm_leaks_nothing_twoPages : ∃ k',
    copyuvm Kmap.onePage twoPages (2 * pgsize) (refusedAfter 4) = .ok (none, k') ∧
      k'.freelist.Perm (refusedAfter 4).freelist := by
  have hfails : (copyuvm .onePage twoPages (2 * pgsize)
      (refusedAfter 4)).toOption.any (·.1.isNone) = true := by
    decide +kernel
  have hpages : pages (2 * pgsize) = 2 := pages_eq (by decide)
  have htidy : Tidy .onePage (pages (2 * pgsize)) 0 (refusedAfter 4) := by
    intro j hj
    rw [hpages] at hj
    obtain rfl : j = 0 := by omega
    decide +kernel
  obtain ⟨⟨_ | _, k'⟩, hcopy, hnone⟩ := exists_ok hfails
  · exact ⟨k', hcopy, (((copyuvm_leaks_nothing .onePage (by decide)).1 _ k' hcopy).mpr htidy).1⟩
  · cases hnone

/-- The page table for the first user page is refused: the page is neither free nor used. -/
theorem copyuvm_loses_page : ∃ k',
    copyuvm Kmap.onePage twoPages (2 * pgsize) (refusedAfter 3) = .ok (none, k') ∧
      3 ∈ (refusedAfter 3).freelist ∧ 3 ∉ k'.freelist := by
  have hfails : (copyuvm .onePage twoPages (2 * pgsize)
      (refusedAfter 3)).toOption.any (fun r => r.1.isNone && decide (3 ∉ r.2.freelist)) = true := by
    decide +kernel
  obtain ⟨⟨_ | _, k'⟩, hcopy, hlost⟩ := exists_ok hfails
  · exact ⟨k', hcopy, by decide, of_decide_eq_true hlost⟩
  · cases hlost

end Xv6.Vm
