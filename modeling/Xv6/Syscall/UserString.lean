import Xv6.Lib.Machine
import Xv6.Param
import Xv6.Vm.Model
import Mathlib.Data.Fintype.Basic
import Mathlib.Logic.Function.Basic

/-!
# Strings in shared memory

`fetchstr` checks that a string ends before `sz` and returns a pointer into user memory; the call reads
the string again later. The threads of a process share that memory, so every byte that is read is a
step of its own: `fetchstr`, `skipelem` and `namex`, the name scan of `exec`, and `strlen`. A byte of a
page that is not mapped is `none`: the kernel that reads it faults and panics.
-/

namespace Xv6.UserString

open Function (update update_self update_of_ne update_apply)

open Vm (kernbase pgroundup)

abbrev Mem := Nat → Option UInt8

def slash : UInt8 := 47

inductive Reader where
  /-- `namex`: `if (*path == '/')`. -/
  | namex (path : Nat)
  /-- `skipelem`: `while (*path == '/') path++`. -/
  | slashes (path : Nat)
  /-- `if (*path == 0) return 0`. -/
  | ended (path : Nat)
  /-- `while (*path != '/' && *path != 0) path++`. -/
  | element (s path : Nat)
  /-- `memmove(name, s, len)`, or `DIRSIZ` bytes. -/
  | copy (s path i : Nat)
  | trailing (path : Nat)
  /-- `namex`: `if (nameiparent && *path == '\0')`. -/
  | parent (path : Nat)
  /-- `exec`: `for (last = s = path; *s; s++)`. -/
  | scanName (s : Nat)
  | strlen (s : Nat)
  deriving DecidableEq

inductive Choice where
  | stop
  | parent
  | go

namespace Reader

def addr : Reader → Nat
  | namex path | slashes path | ended path | element _ path | trailing path | parent path => path
  | copy s _ i => s + i
  | scanName s | strlen s => s

def start : Reader → Nat
  | copy s _ _ | element s _ => s
  | r => r.addr

def pos : Reader → Nat
  | copy _ path _ => path
  | r => r.addr

def next (c : UInt8) (ch : Choice) : Reader → Option Reader
  | namex path => some (slashes path)
  | slashes path => some (if c = slash then slashes (path + 1) else ended path)
  | ended path => if c = 0 then none else some (element path path)
  | element s path =>
    if c ≠ slash ∧ c ≠ 0 then some (element s (path + 1))
    else if s < path then some (copy s path 0)
    else some (trailing path)
  | copy s path i =>
    if i + 1 < min (path - s) dirsiz then some (copy s path (i + 1)) else some (trailing path)
  | trailing path =>
    if c = slash then some (trailing (path + 1))
    else
      match ch with
      | .stop => none
      | .parent => some (parent path)
      | .go => some (slashes path)
  | parent path =>
    if c = 0 then none
    else
      match ch with
      | .go => some (slashes path)
      | _ => none
  | scanName s => if c = 0 then none else some (scanName (s + 1))
  | strlen s => if c = 0 then none else some (strlen (s + 1))

end Reader

inductive Use where
  | namex
  | scanName
  | strlen

def Use.reader (p : Nat) : Use → Reader
  | .namex => .namex p
  | .scanName => .scanName p
  | .strlen => .strlen p

/-- Where a thread is. `strs` are the strings that its call has accepted. -/
inductive Pc where
  /-- In user mode, or in a call without strings. -/
  | user
  /-- In the loop of `fetchstr` for the string at `p`. -/
  | fetch (p s : Nat) (strs : List Nat)
  | call (strs : List Nat)
  | reading (r : Reader) (strs : List Nat)
  deriving DecidableEq

structure State (n : Nat) where
  mem : Mem
  /-- Each thread has its own copy of `sz`. -/
  sz : Fin n → Nat
  pc : Fin n → Pc

inductive Act (n : Nat) where
  | fetchstr (t : Fin n) (p : Nat)
  | use (t : Fin n) (p : Nat) (u : Use)
  | step (t : Fin n) (ch : Choice)
  | ret (t : Fin n)
  /-- User code, or the kernel for a call without strings, writes a byte. -/
  | store (t : Fin n) (a : Nat) (v : UInt8)
  /-- `growproc` with `sz + n`. -/
  | sbrk (t : Fin n) (newsz : Nat)

variable {n : Nat}

namespace State

def setPc (s : State n) (t : Fin n) (pc : Pc) : State n := { s with pc := update s.pc t pc }

def fetchstr (s : State n) (t : Fin n) (p : Nat) (strs : List Nat) : State n :=
  if s.sz t ≤ p then s.setPc t .user else s.setPc t (.fetch p p strs)

def init (mem : Mem) (sz : Fin n → Nat) : State n :=
  { mem := mem, sz := sz, pc := fun _ => .user }

end State

def Mem.resize (mem : Mem) (oldsz newsz : Nat) : Mem := fun a =>
  if pgroundup newsz ≤ a ∧ a < pgroundup oldsz then none
  else if pgroundup oldsz ≤ a ∧ a < pgroundup newsz then some 0
  else mem a

/-- No page that `allocuvm` is about to map is there already: `mappages` panics with `"remap"`. -/
def Mem.NoRemap (mem : Mem) (oldsz newsz : Nat) : Prop :=
  ∀ a, a < pgroundup newsz → pgroundup oldsz ≤ a → mem a = none

instance (mem : Mem) (oldsz newsz : Nat) : Decidable (mem.NoRemap oldsz newsz) :=
  inferInstanceAs (Decidable (∀ a, a < pgroundup newsz → pgroundup oldsz ≤ a → mem a = none))

/-- `none`: the action does not fit, or the kernel panics. -/
def step (s : State n) : Act n → Option (State n)
  | .fetchstr t p =>
    match s.pc t with
    | .user => some (s.fetchstr t p [])
    | .call strs => some (s.fetchstr t p strs)
    | _ => none
  | .use t p u =>
    match s.pc t with
    | .call strs => if p ∈ strs then some (s.setPc t (.reading (u.reader p) strs)) else none
    | _ => none
  | .step t ch =>
    match s.pc t with
    | .fetch p a strs =>
      if a < s.sz t then
        match s.mem a with
        | none => none
        | some c => some (s.setPc t (if c = 0 then .call (p :: strs) else .fetch p (a + 1) strs))
      else
        some (s.setPc t .user)
    | .reading r strs =>
      match s.mem r.addr with
      | none => none
      | some c =>
        match r.next c ch with
        | none => some (s.setPc t (.call strs))
        | some r' => some (s.setPc t (.reading r' strs))
    | _ => none
  | .ret t =>
    match s.pc t with
    | .call _ => some (s.setPc t .user)
    | _ => none
  | .store t a v =>
    match s.pc t with
    | .user => if s.mem a = none then none else some { s with mem := update s.mem a (some v) }
    | _ => none
  | .sbrk t newsz =>
    match s.pc t with
    | .user =>
      if newsz < kernbase ∧ s.mem.NoRemap (s.sz t) newsz then
        -- deallocuvm returns 0 for newsz = 0, which growproc takes for a failure
        some { s with
          mem := s.mem.resize (s.sz t) newsz
          sz := if newsz = 0 then s.sz else update s.sz t newsz }
      else none
    | _ => none

/-! ### Strings end -/

def Mapped (mem : Mem) (a b : Nat) : Prop := ∀ c, c < b → a ≤ c → mem c ≠ none

/-- From `pos` on there is a NUL below `sz`, and the bytes from `start` to it can be read. -/
def Ends (mem : Mem) (sz start pos : Nat) : Prop :=
  ∃ b, b < sz ∧ pos ≤ b ∧ mem b = some 0 ∧ Mapped mem start b

/-- The strings that a call will read: where each starts, and from where on it is read. -/
def Pc.strings : Pc → List (Nat × Nat)
  | .user => []
  | .fetch _ _ strs | .call strs => strs.map fun q => (q, q)
  | .reading r strs => (r.start, r.pos) :: strs.map fun q => (q, q)

/-- The bytes that `fetchstr` has passed. -/
def Pc.Passed (b : Nat) : Pc → Prop
  | .fetch p s _ => p ≤ b ∧ b < s
  | _ => False

instance (b : Nat) (pc : Pc) : Decidable (pc.Passed b) := by
  cases pc <;> unfold Pc.Passed <;> infer_instance

/-- The reading of the string `x` comes to the byte at `b`: no NUL stands before it. -/
def Within (mem : Mem) (x : Nat × Nat) (b : Nat) : Prop := x.1 ≤ b ∧ ∀ c, c < b → x.2 ≤ c → mem c ≠ some 0

instance (mem : Mem) (x : Nat × Nat) (b : Nat) : Decidable (Within mem x b) :=
  inferInstanceAs (Decidable (_ ∧ ∀ c, c < b → x.2 ≤ c → mem c ≠ some 0))

/-- No byte but a NUL is stored over the NUL that ends a string of a call in progress, and no page is
given back that holds a byte of one, its NUL included. -/
def KeepsStrings (s : State n) : Act n → Prop
  | .store _ a v => v = 0 ∨ s.mem a ≠ some 0 ∨ ∀ t, ∀ x ∈ (s.pc t).strings, ¬ (x.2 ≤ a ∧ Within s.mem x a)
  | .sbrk t newsz => ∀ b, b < pgroundup (s.sz t) → pgroundup newsz ≤ b →
      ∀ u, ¬ (s.pc u).Passed b ∧ ∀ x ∈ (s.pc u).strings, ¬ Within s.mem x b
  | _ => True

instance (s : State n) (a : Act n) : Decidable (KeepsStrings s a) := by
  cases a <;> unfold KeepsStrings <;> infer_instance

/-- What the call of a thread relies on in the memory: the bytes that `fetchstr` has passed are there,
accepted strings end, and so does the rest of the string that is being read. -/
def Pc.Intact (mem : Mem) (sz : Nat) (pc : Pc) : Prop :=
  (∀ b, pc.Passed b → mem b ≠ none) ∧ ∀ x ∈ pc.strings, Ends mem sz x.1 x.2

/-- The element that is read or copied lies behind `path`. -/
def Reader.Wf : Reader → Prop
  | .element s path => s ≤ path
  | .copy s path i => s + i < path
  | _ => True

theorem Reader.Wf.start_le_addr {r : Reader} (hwf : r.Wf) : r.start ≤ r.addr := by
  cases r with
  | element s path => exact hwf
  | copy s path i => exact Nat.le_add_right s i
  | _ => exact le_rfl

theorem Reader.Wf.addr_le_pos {r : Reader} (hwf : r.Wf) : r.addr ≤ r.pos := by
  cases r with
  | copy s path i => exact hwf.le
  | _ => exact le_rfl

/-- What reading the byte `c` does: the pass goes back to no byte that it has given up, and it moves on
only over bytes that are not NUL. -/
structure Reader.Advances (r r' : Reader) (c : UInt8) : Prop where
  wf : r'.Wf
  start_le : r.start ≤ r'.start
  pos : r'.pos = r.pos ∨ (r'.pos = r.pos + 1 ∧ r.pos = r.addr ∧ c ≠ 0)

theorem slash_ne_zero : slash ≠ 0 := by decide

theorem Reader.Wf.next {r r' : Reader} {c : UInt8} {ch : Choice} (hwf : r.Wf)
    (hnext : r.next c ch = some r') : r.Advances r' c := by
  cases r <;> simp only [Reader.next] at hnext
  case namex path =>
    cases hnext
    exact ⟨trivial, le_rfl, .inl rfl⟩
  case slashes path =>
    cases hnext
    split
    · rename_i hc
      exact ⟨trivial, Nat.le_succ _, .inr ⟨rfl, rfl, hc ▸ slash_ne_zero⟩⟩
    · exact ⟨trivial, le_rfl, .inl rfl⟩
  case ended path =>
    split at hnext <;> cases hnext
    exact ⟨le_rfl, le_rfl, .inl rfl⟩
  case element s path =>
    have hle : s ≤ path := hwf
    split at hnext
    · rename_i hc
      cases hnext
      exact ⟨Nat.le_succ_of_le hle, le_rfl, .inr ⟨rfl, rfl, hc.2⟩⟩
    · split at hnext <;> cases hnext
      · rename_i hlt
        exact ⟨hlt, le_rfl, .inl rfl⟩
      · exact ⟨trivial, hle, .inl rfl⟩
  case copy s path i =>
    have hlt : s + i < path := hwf
    split at hnext <;> cases hnext
    · rename_i hi
      have hnext : s + (i + 1) < path := by omega
      exact ⟨hnext, le_rfl, .inl rfl⟩
    · have hle : s ≤ path := by omega
      exact ⟨trivial, hle, .inl rfl⟩
  case trailing path =>
    split at hnext
    · rename_i hc
      cases hnext
      exact ⟨trivial, Nat.le_succ _, .inr ⟨rfl, rfl, hc ▸ slash_ne_zero⟩⟩
    · split at hnext <;> cases hnext <;> exact ⟨trivial, le_rfl, .inl rfl⟩
  case parent path =>
    split at hnext
    · cases hnext
    · split at hnext <;> cases hnext
      exact ⟨trivial, le_rfl, .inl rfl⟩
  case scanName s | strlen s =>
    split at hnext <;> cases hnext
    rename_i hc
    exact ⟨trivial, Nat.le_succ _, .inr ⟨rfl, rfl, hc⟩⟩

theorem Use.reader_wf (p : Nat) (u : Use) : (u.reader p).Wf := by
  cases u <;> trivial

theorem Use.reader_start (p : Nat) (u : Use) : (u.reader p).start = p := by
  cases u <;> rfl

theorem Use.reader_pos (p : Nat) (u : Use) : (u.reader p).pos = p := by
  cases u <;> rfl

section Ends

variable {mem : Mem} {sz start pos : Nat}

/-- The string ends with the first NUL, which the reading comes to. -/
theorem Ends.first (hends : Ends mem sz start pos) : ∃ b, b < sz ∧ pos ≤ b ∧ mem b = some 0 ∧
    Mapped mem start b ∧ ∀ c, c < b → pos ≤ c → mem c ≠ some 0 := by
  obtain ⟨b, hb, hle, hzero, hmapped⟩ := hends
  have hexists : ∃ b, pos ≤ b ∧ mem b = some 0 := ⟨b, hle, hzero⟩
  have hmin : Nat.find hexists ≤ b := Nat.find_min' hexists ⟨hle, hzero⟩
  obtain ⟨hpos, hnul⟩ := Nat.find_spec hexists
  exact ⟨_, hmin.trans_lt hb, hpos, hnul, fun c hc hstart => hmapped c (hc.trans_le hmin) hstart,
    fun c hc hle' hnul' => Nat.find_min hexists hc ⟨hle', hnul'⟩⟩

theorem Ends.store {a : Nat} {v : UInt8} (hends : Ends mem sz start pos) (hle : start ≤ pos)
    (hkeeps : v = 0 ∨ mem a ≠ some 0 ∨ ¬ (pos ≤ a ∧ Within mem (start, pos) a)) :
    Ends (update mem a (some v)) sz start pos := by
  obtain ⟨b, hb, hpos, hzero, hmapped, hfirst⟩ := hends.first
  refine ⟨b, hb, hpos, ?_, fun c hc hstart => ?_⟩
  · by_cases hba : b = a
    · subst hba
      have hv : v = 0 := hkeeps.resolve_right fun h =>
        h.elim (· hzero) (· ⟨hpos, hle.trans hpos, hfirst⟩)
      rw [hv, update_self]
    · rw [update_of_ne hba, hzero]
  · rw [update_apply]
    split
    · exact Option.some_ne_none v
    · exact hmapped c hc hstart

theorem Mem.resize_eq {oldsz newsz b : Nat} (hremap : mem.NoRemap oldsz newsz) (hb : mem b ≠ none)
    (hkept : ¬ (pgroundup newsz ≤ b ∧ b < pgroundup oldsz)) : mem.resize oldsz newsz b = mem b := by
  unfold Mem.resize
  rw [if_neg hkept, if_neg fun h => hb (hremap b h.2 h.1)]

theorem Ends.resize {oldsz newsz : Nat} (hends : Ends mem sz start pos) (hle : start ≤ pos)
    (hremap : mem.NoRemap oldsz newsz) (hkeeps : ∀ b, b < pgroundup oldsz → pgroundup newsz ≤ b →
      ¬ Within mem (start, pos) b) : Ends (mem.resize oldsz newsz) sz start pos := by
  obtain ⟨b, hb, hpos, hzero, hmapped, hfirst⟩ := hends.first
  have hsame : ∀ c, c ≤ b → start ≤ c → mem c ≠ none → mem.resize oldsz newsz c = mem c :=
    fun c hc hstart hmem => Mem.resize_eq hremap hmem fun h => hkeeps c h.2 h.1
      ⟨hstart, fun d hd => hfirst d (hd.trans_le hc)⟩
  refine ⟨b, hb, hpos, ?_, fun c hc hstart => ?_⟩
  · rw [hsame b le_rfl (hle.trans hpos) (by rw [hzero]; exact Option.some_ne_none 0), hzero]
  · rw [hsame c hc.le hstart (hmapped c hc hstart)]
    exact hmapped c hc hstart

theorem Ends.mono {start' : Nat} (hends : Ends mem sz start pos) (hle : start ≤ start') :
    Ends mem sz start' pos := by
  obtain ⟨b, hb, hpos, hzero, hmapped⟩ := hends
  exact ⟨b, hb, hpos, hzero, fun c hc hac => hmapped c hc (hle.trans hac)⟩

theorem Ends.succ {c : UInt8} (hends : Ends mem sz start pos) (hread : mem pos = some c) (hc : c ≠ 0) :
    Ends mem sz start (pos + 1) := by
  obtain ⟨b, hb, hle, hzero, hmapped⟩ := hends
  refine ⟨b, hb, ?_, hzero, hmapped⟩
  apply Nat.lt_of_le_of_ne hle
  intro heq
  rw [heq, hzero] at hread
  exact hc (Option.some.inj hread).symm

theorem Ends.mapped {a : Nat} (hends : Ends mem sz start pos) (hstart : start ≤ a) (hpos : a ≤ pos) :
    a < sz ∧ mem a ≠ none := by
  obtain ⟨b, hb, hle, hzero, hmapped⟩ := hends
  have hab : a ≤ b := hpos.trans hle
  refine ⟨hab.trans_lt hb, ?_⟩
  obtain hlt | rfl := Nat.lt_or_eq_of_le hab
  · exact hmapped a hlt hstart
  · rw [hzero]
    exact Option.some_ne_none _

theorem Ends.next {r r' : Reader} {c : UInt8} (hends : Ends mem sz r.start r.pos)
    (hread : mem r.addr = some c) (hadv : r.Advances r' c) : Ends mem sz r'.start r'.pos := by
  apply Ends.mono _ hadv.start_le
  obtain hsame | ⟨hmove, haddr, hc⟩ := hadv.pos
  · rw [hsame]
    exact hends
  · rw [hmove]
    rw [← haddr] at hread
    exact hends.succ hread hc

end Ends

/-! ### Runs -/

def Pc.Wf : Pc → Prop
  | .fetch p s _ => p ≤ s
  | .reading r _ => r.Wf
  | _ => True

structure State.Inv (s : State n) : Prop where
  intact : ∀ t, (s.pc t).Intact s.mem (s.sz t)
  wf : ∀ t, (s.pc t).Wf

variable {s s' : State n} {t : Fin n}

theorem Pc.Wf.strings {pc : Pc} (hwf : pc.Wf) : ∀ x ∈ pc.strings, x.1 ≤ x.2 := by
  have hstrs : ∀ strs : List Nat, ∀ x ∈ strs.map fun q => (q, q), x.1 ≤ x.2 := fun _ =>
    List.forall_mem_map.mpr fun q _ => Nat.le_refl q
  cases pc with
  | user => nofun
  | fetch | call => exact hstrs _
  | reading r strs =>
    exact List.forall_mem_cons.mpr
      ⟨(Reader.Wf.start_le_addr hwf).trans (Reader.Wf.addr_le_pos hwf), hstrs strs⟩

theorem State.Inv.setPc (hinv : s.Inv) {pc : Pc} (hintact : pc.Intact s.mem (s.sz t))
    (hwf : pc.Wf) : (s.setPc t pc).Inv := by
  refine ⟨fun u => ?_, (Function.forall_update_iff s.pc fun _ pc => pc.Wf).mpr ⟨hwf, fun u _ => hinv.wf u⟩⟩
  have hpc : (s.setPc t pc).pc u = if u = t then pc else s.pc u := update_apply s.pc t pc u
  rw [hpc]
  split
  · rename_i hu
    subst hu
    exact hintact
  · exact hinv.intact u

theorem State.Inv.user (hinv : s.Inv) : (s.setPc t .user).Inv := hinv.setPc ⟨nofun, nofun⟩ trivial

theorem State.Inv.fetchstr (hinv : s.Inv) {p : Nat} {strs : List Nat}
    (hstrs : ∀ q ∈ strs, Ends s.mem (s.sz t) q q) : (s.fetchstr t p strs).Inv := by
  unfold State.fetchstr
  split
  · exact hinv.user
  · refine hinv.setPc ?_ le_rfl
    exact ⟨fun c hc => absurd hc.2 (Nat.not_lt_of_le hc.1), List.forall_mem_map.mpr hstrs⟩

theorem State.Inv.advance (hinv : s.Inv) {ch : Choice} (hstep : step s (.step t ch) = some s') :
    s'.Inv := by
  have hintact := hinv.intact t
  have hwf := hinv.wf t
  simp only [UserString.step] at hstep
  cases hpc : s.pc t with
  | fetch p b strs =>
    rw [hpc] at hintact hwf
    simp only [hpc] at hstep
    obtain ⟨hmapped, hstrs⟩ := hintact
    split at hstep
    · rename_i hlt
      split at hstep <;> cases hstep
      rename_i c hread
      split
      · rename_i hc
        subst hc
        refine hinv.setPc ⟨nofun, List.forall_mem_cons.mpr ⟨?_, hstrs⟩⟩ trivial
        exact ⟨b, hlt, hwf, hread, fun c hc hpc => hmapped c ⟨hpc, hc⟩⟩
      · refine hinv.setPc ⟨fun c' hc' => ?_, hstrs⟩ (Nat.le_succ_of_le hwf)
        obtain hbefore | rfl := Nat.lt_succ_iff_lt_or_eq.mp hc'.2
        · exact hmapped c' ⟨hc'.1, hbefore⟩
        · rw [hread]
          exact Option.some_ne_none c
    · cases hstep
      exact hinv.user
  | reading r strs =>
    rw [hpc] at hintact hwf
    simp only [hpc] at hstep
    obtain ⟨hends, hstrs⟩ := List.forall_mem_cons.mp hintact.2
    split at hstep
    · cases hstep
    · rename_i c hread
      split at hstep <;> cases hstep
      · exact hinv.setPc ⟨nofun, hstrs⟩ trivial
      · rename_i r' hnext
        have hadv : r.Advances r' c := Reader.Wf.next hwf hnext
        exact hinv.setPc ⟨nofun, List.forall_mem_cons.mpr ⟨hends.next hread hadv, hstrs⟩⟩ hadv.wf
  | user | call =>
    simp only [hpc] at hstep
    cases hstep

theorem State.Inv.step (hinv : s.Inv) {a : Act n} (hkeeps : KeepsStrings s a)
    (hstep : step s a = some s') : s'.Inv := by
  cases a <;> simp only [UserString.step] at hstep
  case fetchstr t p =>
    have hintact := hinv.intact t
    split at hstep <;> cases hstep
    · exact hinv.fetchstr nofun
    · rename_i hpc
      rw [hpc] at hintact
      exact hinv.fetchstr fun q hq => hintact.2 (q, q) (List.mem_map_of_mem hq)
  case use t p u =>
    have hintact := hinv.intact t
    split at hstep
    · rename_i hpc
      rw [hpc] at hintact
      split at hstep <;> cases hstep
      rename_i hp
      refine hinv.setPc ⟨nofun, List.forall_mem_cons.mpr ⟨?_, hintact.2⟩⟩ (u.reader_wf p)
      rw [u.reader_start, u.reader_pos]
      exact hintact.2 (p, p) (List.mem_map_of_mem hp)
    · cases hstep
  case step t ch => exact hinv.advance hstep
  case ret t =>
    split at hstep <;> cases hstep
    exact hinv.user
  case store t b v =>
    split at hstep
    · split at hstep <;> cases hstep
      refine ⟨fun u => ⟨fun c hc => ?_, fun x hx => ?_⟩, hinv.wf⟩
      · change update s.mem b (some v) c ≠ none
        rw [update_apply]
        split
        · exact Option.some_ne_none v
        · exact (hinv.intact u).1 c hc
      · exact ((hinv.intact u).2 x hx).store ((hinv.wf u).strings x hx)
          (hkeeps.imp_right (.imp_right fun h => h u x hx))
    · cases hstep
  case sbrk t newsz =>
    split at hstep
    · rename_i hpc
      split at hstep <;> cases hstep
      rename_i hnew
      have hkept : ∀ u, (s.pc u).Intact (s.mem.resize (s.sz t) newsz) (s.sz u) := fun u => by
        refine ⟨fun c hc => ?_, fun x hx => ?_⟩
        · rw [Mem.resize_eq hnew.2 ((hinv.intact u).1 c hc) fun h => (hkeeps c h.2 h.1 u).1 hc]
          exact (hinv.intact u).1 c hc
        · exact ((hinv.intact u).2 x hx).resize ((hinv.wf u).strings x hx) hnew.2
            fun b hb hnewb => (hkeeps b hb hnewb u).2 x hx
      refine ⟨fun u => ?_, hinv.wf⟩
      split
      · exact hkept u
      · by_cases hu : u = t
        · -- the caller is in no call with strings
          rw [hu, hpc]
          exact ⟨nofun, nofun⟩
        · simp only [update_of_ne hu]
          exact hkept u
    · cases hstep

def onePage : Mem := fun a => if 4096 ≤ a then none else some (if a = 0 then 97 else 0)

end Xv6.UserString
