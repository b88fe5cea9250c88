import Xv6.Syscall.Args

/-!
# Which user addresses a system call touches

`argptr` validates a range, and the call then touches addresses that it derives from the argument.
-/

namespace Xv6.Syscall

open Vm (u32 kernbase pgsize pgrounddown)
open Traced (Returns all_pure all_stop all_emit all_emit_bind all_bind_pure out_bind_pure)

def Event.Inside (sz : Nat) : Event → Prop
  | .load a | .store a => a < sz
  | .effect _ => True

def Event.IsLoad : Event → Prop
  | .load _ => True
  | _ => False

/-- The value that the variable of a pointer argument has when its check is ignored. -/
def pointer (c : Caller) (k : Kernel) (n : Nat) : Nat := (c.argptr n 4).val.getD (u32 (k.junk n))

def Call.PtrFails (c : Caller) : Call → Prop
  | .read | .write => ∃ m, (c.argint 2).val = some m ∧ (c.argptr 1 (toInt m)).val = none
  | .fstat => (c.argptr 1 statSize).val = none
  | .pipe => (c.argptr 0 8).val = none
  | .dump => (c.argptr 1 4).val = none ∨ (c.argptr 2 4).val = none
  | .threadCreate => ∃ n < 3, (c.argptr n 4).val = none
  | .mysleep => ∃ n < 2, (c.argptr n 4).val = none
  | .mywakeup => (c.argptr 0 4).val = none

/-- The copy loop of `dump` reaches offset `i`: the pages up to it have a page table. -/
def Copies (walk : Nat → Option Bool) (addr size i : Nat) : Prop :=
  i < size ∧ i % pgsize = 0 ∧ ∀ j ≤ i, j % pgsize = 0 → walk (u32 (addr + j)) ≠ none

/-- The addresses of the page at offset `i` are the caller's: those in the buffer, those that are read,
and the word behind the buffer. -/
def CopyInside (sz : Nat) (walk : Nat → Option Bool) (addr buffer size i : Nat) : Prop :=
  buffer + min size (i + pgsize) ≤ sz ∧ pgrounddown (u32 (addr + i)) + min (size - i) pgsize ≤ sz ∧
    (walk (u32 (addr + i)) = some false → ∀ j < 4, u32 (buffer + size + j) < sz)

def DumpInside (c : Caller) (k : Kernel) : Prop :=
  ∀ pid addr buffer size walk, (c.argint 0).val = some pid → (c.argptr 1 4).val = some addr →
    (c.argptr 2 4).val = some buffer → (c.argint 3).val = some size → k.pgdir pid = some walk →
    ∀ i, Copies walk addr size i → CopyInside c.sz walk addr buffer size i

/-- What the added calls do not check: that `argptr` succeeds, and that the addresses which they derive
from the arguments are the caller's. -/
def Call.Sane (c : Caller) (k : Kernel) : Call → Prop
  | .read | .write | .fstat | .pipe => True
  | .dump => ¬ Call.PtrFails c .dump ∧ DumpInside c k
  | .threadCreate =>
    pointer c k 2 = 0 ∨ k.slot = none ∨ ¬ Call.PtrFails c .threadCreate ∧ pointer c k 2 + 4096 ≤ c.sz
  | .mysleep => ¬ Call.PtrFails c .mysleep
  | .mywakeup => ¬ Call.PtrFails c .mywakeup

variable {c : Caller} {k : Kernel} {P : Event → Prop} {a n p : Nat} {size : Int}

/-! ### Ranges -/

theorem forall_mem_loads : (∀ e ∈ loads a n, P e) ↔ ∀ j < n, P (.load (u32 (a + j))) := by
  simp only [loads, List.forall_mem_map, List.mem_range]

theorem forall_mem_stores : (∀ e ∈ stores a n, P e) ↔ ∀ j < n, P (.store (u32 (a + j))) := by
  simp only [stores, List.forall_mem_map, List.mem_range]

theorem range_inside {sz : Nat} (hsz : sz ≤ kernbase) (hrange : a + n ≤ sz) : ∀ j < n, u32 (a + j) < sz := by
  intro j hj
  simp only [kernbase] at hsz
  unfold u32
  omega

theorem stores_inside {sz : Nat} (hsz : sz ≤ kernbase) (hrange : a + n ≤ sz) :
    ∀ e ∈ stores a n, e.Inside sz :=
  forall_mem_stores.mpr (range_inside hsz hrange)

/-! ### The fetch functions -/

theorem word_lt (c : Caller) (a : Nat) : c.word a < 2 ^ 32 := by
  have hbyte := fun a => (c.mem a).toNat_lt
  have h₀ := hbyte a
  have h₁ := hbyte (u32 (a + 1))
  have h₂ := hbyte (u32 (a + 2))
  have h₃ := hbyte (u32 (a + 3))
  unfold Caller.word
  omega

theorem argint_lt {m : Nat} (hm : (c.argint n).val = some m) : m < 2 ^ 32 := by
  unfold Caller.argint Caller.fetchint at hm
  split at hm
  · cases hm
  · cases hm
    exact word_lt c _

section

variable (hsz : c.sz ≤ kernbase) (hP : ∀ a < c.sz, P (.load a))
include hsz hP

theorem fetchint_returns (addr : Nat) : Returns P (c.fetchint addr) (c.fetchint addr).val := by
  unfold Caller.fetchint
  split
  · exact .pure none
  · rename_i hok
    rw [not_or] at hok
    have hrange : addr + 4 ≤ c.sz := by
      simp only [kernbase] at hsz
      simp only [u32] at hok
      omega
    exact ⟨rfl, all_emit.mpr (forall_mem_loads.mpr fun j hj => hP _ (range_inside hsz hrange j hj))⟩

theorem argint_returns (n : Nat) : Returns P (c.argint n) (c.argint n).val := fetchint_returns hsz hP _

theorem argptr_returns (n : Nat) (size : Int) : Returns P (c.argptr n size) (c.argptr n size).val := by
  refine (argint_returns hsz hP n).bind_val ?_
  cases (c.argint n).val with
  | none => exact .pure none
  | some i =>
    dsimp only
    split <;> exact .pure _

theorem argfd_returns (n : Nat) : Returns P (c.argfd n) (c.argfd n).val := by
  refine (argint_returns hsz hP n).bind_val ?_
  cases (c.argint n).val with
  | none => exact .pure none
  | some i =>
    dsimp only
    split <;> exact .pure _

theorem argptrUnchecked_returns (n : Nat) : Returns P (argptrUnchecked c k n) (pointer c k n) := by
  refine (argptr_returns hsz hP n 4).bind ?_
  unfold pointer
  cases (c.argptr n 4).val <;> exact .pure _

/-- The head of `sys_read` and `sys_write` gives up, or it has a range to touch. -/
theorem bufferArgs_returns : Returns P (bufferArgs c) none ∨ ∃ fd m p, (c.argint 2).val = some m ∧
    (c.argptr 1 (toInt m)).val = some p ∧ Returns P (bufferArgs c) (some (fd, p, toInt m)) := by
  have hfd := argfd_returns hsz hP 0
  have hn := argint_returns hsz hP 2
  unfold bufferArgs
  cases h : (c.argfd 0).val with
  | none => exact .inl ((h ▸ hfd).bind (.pure none))
  | some fd =>
    cases hm : (c.argint 2).val with
    | none => exact .inl ((h ▸ hfd).bind ((hm ▸ hn).bind (.pure none)))
    | some m =>
      have hptr := argptr_returns hsz hP 1 (toInt m)
      cases hp : (c.argptr 1 (toInt m)).val with
      | none => exact .inl ((h ▸ hfd).bind ((hm ▸ hn).bind ((hp ▸ hptr).bind (.pure none))))
      | some p => exact .inr ⟨fd, m, p, rfl, hp, (h ▸ hfd).bind ((hm ▸ hn).bind ((hp ▸ hptr).bind (.pure _)))⟩

end

theorem argptr_bound (hsz : c.sz ≤ kernbase) (hsize : size < 2 ^ 31)
    (hp : (c.argptr n size).val = some p) : p + size.toNat ≤ c.sz := by
  unfold Caller.argptr at hp
  rw [(argint_returns (P := fun _ => True) hsz (fun _ _ => trivial) n).val_bind] at hp
  cases hi : (c.argint n).val with
  | none =>
    rw [hi] at hp
    cases hp
  | some i =>
    rw [hi] at hp
    dsimp only at hp
    split at hp
    · cases hp
    · rename_i hok
      cases hp
      rw [not_or, not_or] at hok
      simp only [kernbase] at hsz
      simp only [u32] at hok
      omega

theorem toInt_lt {x : Nat} : toInt x < 2 ^ 31 := by
  unfold toInt u32
  split <;> omega

/-! ### The copy loop of `dump` -/

/-- The events of the copy loop at offset `i`. -/
def AllAt (P : Event → Prop) (walk : Nat → Option Bool) (addr buffer size : Nat) (guarded : Bool)
    (i : Nat) : Prop :=
  (∀ j < min (size - i) pgsize, P (.load (u32 (pgrounddown (u32 (addr + i)) + j)))) ∧
  (∀ j < min (size - i) pgsize, P (.store (u32 (buffer + i + j)))) ∧
  (guarded = false → walk (u32 (addr + i)) = some false → ∀ j < 4, P (.store (u32 (buffer + size + j))))

theorem mycopybuffer_all {walk : Nat → Option Bool} {addr buffer size : Nat} (hsize : size ≤ 2 ^ 32)
    (fuel i : Nat) (guarded : Bool) (hfuel : i + pgsize * fuel = 2 ^ 32) (hi : i % pgsize = 0)
    (hwalked : ∀ j < i, j % pgsize = 0 → walk (u32 (addr + j)) ≠ none) :
    (mycopybuffer walk addr buffer size fuel i guarded).All P ↔
      ∀ i' ≥ i, Copies walk addr size i' → AllAt P walk addr buffer size guarded i' := by
  induction fuel generalizing i guarded with
  | zero =>
    refine iff_of_true all_stop fun i' hle hcopies => ?_
    have hlt := hcopies.1
    omega
  | succ fuel ih =>
    unfold mycopybuffer
    by_cases hlt : i < size
    swap
    · rw [if_neg hlt]
      exact iff_of_true all_pure fun i' hle hcopies => absurd hcopies.1 (by omega)
    rw [if_pos hlt]
    cases hpage : walk (u32 (addr + i)) with
    | none => exact iff_of_true all_stop fun i' hle hcopies => absurd hpage (hcopies.2.2 i hle hi)
    | some user =>
      have hcopies : Copies walk addr size i := by
        refine ⟨hlt, hi, fun j hj hmod => ?_⟩
        obtain hjlt | rfl := Nat.lt_or_eq_of_le hj
        · exact hwalked j hjlt hmod
        · rw [hpage]
          exact nofun
      have hnext : ∀ j < i + pgsize, j % pgsize = 0 → j ≤ i := by
        intro j hj hmod
        simp only [pgsize] at hi hj hmod
        omega
      -- the counter wraps only when the fuel is used up
      have hrest : (mycopybuffer walk addr buffer size fuel (u32 (i + pgsize)) (guarded || !user)).All P ↔
          ∀ i' ≥ i + pgsize, Copies walk addr size i' →
            AllAt P walk addr buffer size (guarded || !user) i' := by
        rw [Nat.mul_succ] at hfuel
        rcases Nat.eq_zero_or_pos fuel with rfl | hpos
        · refine iff_of_true all_stop fun i' hle hcopies' => absurd hcopies'.1 (by omega)
        · have hwrap : u32 (i + pgsize) = i + pgsize := by
            simp only [u32, pgsize] at hfuel ⊢
            omega
          rw [hwrap]
          refine ih (i + pgsize) _ (by omega) (by rw [Nat.add_mod_right, hi]) fun j hj hmod => ?_
          exact hcopies.2.2 j (hnext j hj hmod) hmod
      have hcount : (if size - i < pgsize then size - i else pgsize) = min (size - i) pgsize := by
        split_ifs <;> omega
      have hguard : (∀ e ∈ writeGuard buffer size guarded user, P e) ↔
          (guarded = false → user = false → ∀ j < 4, P (.store (u32 (buffer + size + j)))) := by
        unfold writeGuard
        split_ifs with hboth
        · rw [forall_mem_stores]
          exact ⟨fun h _ _ => h, fun h => h hboth.1 hboth.2⟩
        · exact iff_of_true nofun fun h h' => absurd ⟨h, h'⟩ hboth
      dsimp only
      rw [all_emit_bind, all_emit_bind, hrest, hguard, hcount, List.forall_mem_append, forall_mem_loads,
        forall_mem_stores]
      refine ⟨fun ⟨hfirst, ⟨hloads, hstores⟩, hlater⟩ i' hle hcopies' => ?_, fun h => ⟨?_, ?_, ?_⟩⟩
      · by_cases heq : i' = i
        · subst heq
          refine ⟨hloads, hstores, fun hflag hfalse => hfirst hflag ?_⟩
          rw [hpage] at hfalse
          exact Option.some.inj hfalse
        · have hmore := hlater i' (by
            by_contra hless
            exact heq (Nat.le_antisymm (hnext i' (by omega) hcopies'.2.1) hle)) hcopies'
          refine ⟨hmore.1, hmore.2.1, fun hflag hfalse => ?_⟩
          cases user with
          | true => exact hmore.2.2 (by rw [hflag]; rfl) hfalse
          | false => exact hfirst hflag rfl
      · exact fun hflag huser => (h i le_rfl hcopies).2.2 hflag (by rw [hpage, huser])
      · exact ⟨(h i le_rfl hcopies).1, (h i le_rfl hcopies).2.1⟩
      · intro i' hle hcopies'
        obtain ⟨hloads, hstores, hfirst⟩ := h i' (by omega) hcopies'
        exact ⟨hloads, hstores, fun hflag => hfirst (Bool.or_eq_false_iff.mp hflag).1⟩

/-! ### The calls that check their arguments -/

/-- The run touches only `[0, sz)`, and returns `-1` without effect if a pointer argument is bad. -/
def Confined (c : Caller) (fails : Prop) (r : Sys Int) : Prop :=
  (∀ e ∈ r.events, e.Inside c.sz) ∧ (fails → r.out = .ok (-1) ∧ ∀ e ∈ r.events, e.IsLoad)

theorem Confined.of_returns {fails : Prop} {r : Sys Int}
    (hr : ∀ P : Event → Prop, (∀ a < c.sz, P (.load a)) → Returns P r (-1)) : Confined c fails r := by
  have hloads := hr Event.IsLoad fun _ _ => trivial
  exact ⟨(hr (Event.Inside c.sz) fun _ h => h).all, fun _ => ⟨hloads.out, hloads.all⟩⟩

theorem confined_iff {fails : Prop} {r : Sys Int} (hout : r.out ≠ .ok (-1)) :
    Confined c fails r ↔ r.All (Event.Inside c.sz) ∧ ¬ fails :=
  and_congr_right' ⟨fun h hfails => hout (h hfails).1, fun h hfails => absurd hfails h⟩

section

variable (hsz : c.sz ≤ kernbase)
include hsz

/-- `sys_read` and `sys_write`, which differ in what they do with the buffer. -/
theorem buffered_confined (touch : Nat → Nat → List Event) (effect : Nat → Nat → Int → Effect)
    (htouch : ∀ a n, a + n ≤ c.sz → ∀ e ∈ touch a n, e.Inside c.sz) :
    Confined c (Call.PtrFails c .read) (bufferArgs c >>= fun
      | none => pure (-1)
      | some (fd, p, n) => do
        .emit (.effect (effect fd p n) :: touch p (min k.moved n.toNat))
        return k.ret) := by
  refine ⟨?_, ?_⟩
  · rcases bufferArgs_returns (P := Event.Inside c.sz) hsz fun _ h => h with h | ⟨fd, m, p, -, hp, h⟩
    · exact h.all_bind.mpr all_pure
    · refine h.all_bind.mpr (all_emit.mpr (List.forall_mem_cons.mpr ⟨trivial, htouch _ _ ?_⟩))
      have hbound := argptr_bound hsz toInt_lt hp
      omega
  · rintro ⟨m, hm, hnone⟩
    rcases bufferArgs_returns (P := Event.IsLoad) hsz fun _ _ => trivial with h | ⟨fd, m', p, hm', hp, -⟩
    · exact ⟨h.out_bind, h.all_bind.mpr all_pure⟩
    · rw [hm] at hm'
      cases hm'
      rw [hnone] at hp
      cases hp

theorem stati_inside {st : Nat} (hst : st + statSize ≤ c.sz) : ∀ e ∈ stati st, e.Inside c.sz := by
  simp only [statSize] at hst
  simp only [stati, List.forall_mem_append]
  refine ⟨⟨⟨⟨?_, ?_⟩, ?_⟩, ?_⟩, ?_⟩ <;> exact stores_inside hsz (by omega)

theorem sysFstat_confined : Confined c (Call.PtrFails c .fstat) (sysFstat c k) := by
  have hfd := fun P hP => argfd_returns (P := P) hsz hP 0
  have hst := fun P hP => argptr_returns (P := P) hsz hP 1 statSize
  unfold sysFstat
  cases h : (c.argfd 0).val with
  | none => exact .of_returns fun P hP => (h ▸ hfd P hP).bind (.pure _)
  | some fd =>
    cases hp : (c.argptr 1 statSize).val with
    | none => exact .of_returns fun P hP => (h ▸ hfd P hP).bind ((hp ▸ hst P hP).bind (.pure _))
    | some st =>
      refine ⟨(h ▸ hfd _ fun _ h => h).all_bind.mpr ((hp ▸ hst _ fun _ h => h).all_bind.mpr ?_),
        fun hnone => nomatch hp.symm.trans hnone⟩
      dsimp only
      split
      · exact all_emit.mpr (stati_inside hsz (argptr_bound hsz (by decide) hp))
      · exact all_pure

theorem sysPipe_confined : Confined c (Call.PtrFails c .pipe) (sysPipe c k) := by
  have hfd := fun P hP => argptr_returns (P := P) hsz hP 0 8
  unfold sysPipe
  cases hp : (c.argptr 0 8).val with
  | none => exact .of_returns fun P hP => (hp ▸ hfd P hP).bind (.pure _)
  | some fd =>
    refine ⟨(hp ▸ hfd _ fun _ h => h).all_bind.mpr ?_, fun hnone => nomatch hp.symm.trans hnone⟩
    have hbound : fd + 8 ≤ c.sz := argptr_bound hsz (by decide) hp
    dsimp only
    cases k.pipe with
    | none => exact all_pure
    | some fds =>
      refine all_emit.mpr (List.forall_mem_cons.mpr ⟨trivial, List.forall_mem_append.mpr ⟨?_, ?_⟩⟩) <;>
        exact stores_inside hsz (by omega)

/-! ### The added calls -/

theorem pointer_bound (hok : (c.argptr n 4).val ≠ none) : pointer c k n + 4 ≤ c.sz := by
  obtain ⟨p, hp⟩ := Option.ne_none_iff_exists'.mp hok
  rw [pointer, hp]
  exact argptr_bound hsz (by decide) hp

theorem sysThreadCreate_confined :
    Call.Sane c k .threadCreate ↔ Confined c (Call.PtrFails c .threadCreate) (sysThreadCreate c k) := by
  have harg := fun P hP => argptrUnchecked_returns (P := P) (k := k) hsz hP
  have hall : ∀ P : Event → Prop, (∀ a < c.sz, P (.load a)) → ((sysThreadCreate c k).All P ↔
      (threadCreate k (pointer c k 0) (pointer c k 1) (pointer c k 2)).All P) := fun P hP =>
    (harg P hP 0).all_bind.trans ((harg P hP 1).all_bind.trans (harg P hP 2).all_bind)
  have hreturns : ∀ P : Event → Prop, (∀ a < c.sz, P (.load a)) →
      Returns P (threadCreate k (pointer c k 0) (pointer c k 1) (pointer c k 2)) (-1) →
      Returns P (sysThreadCreate c k) (-1) := fun P hP h =>
    (harg P hP 0).bind ((harg P hP 1).bind ((harg P hP 2).bind h))
  unfold threadCreate at hall hreturns
  by_cases hzero : pointer c k 2 = 0
  · simp only [if_pos hzero] at hreturns
    exact iff_of_true (.inl hzero) (.of_returns fun P hP => hreturns P hP (.pure _))
  simp only [if_neg hzero] at hall hreturns
  cases hslot : k.slot with
  | none =>
    simp only [hslot] at hreturns
    exact iff_of_true (.inr (.inl hslot)) (.of_returns fun P hP => hreturns P hP (.pure _))
  | some pid =>
    simp only [hslot] at hall
    simp only [all_emit, List.forall_mem_cons, List.forall_mem_append, forall_mem_stores] at hall
    refine ⟨fun hsane => ?_, fun hconfined => .inr (.inr ?_)⟩
    · obtain ⟨hok, hbound⟩ := (hsane.resolve_left hzero).resolve_left (by rw [hslot]; simp)
      refine ⟨(hall _ fun _ h => h).mpr ⟨trivial, ?_, ?_⟩, fun h => absurd h hok⟩ <;>
        exact range_inside hsz (by omega)
    · have hok : ¬ Call.PtrFails c .threadCreate := fun hbad =>
        ((hall Event.IsLoad fun _ _ => trivial).mp (hconfined.2 hbad).2).1
      have hlow := pointer_bound (k := k) hsz fun hnone => hok ⟨2, by decide, hnone⟩
      have hlast : u32 (pointer c k 2 + 4092 + 3) < c.sz :=
        ((hall (Event.Inside c.sz) fun _ h => h).mp hconfined.1).2.1 3 (by decide)
      simp only [kernbase] at hsz
      unfold u32 at hlast
      exact ⟨hok, by omega⟩

theorem sysMysleep_confined :
    Call.Sane c k .mysleep ↔ Confined c (Call.PtrFails c .mysleep) (sysMysleep c k) := by
  have harg := fun n => argptrUnchecked_returns (P := Event.Inside c.sz) (k := k) hsz (fun _ h => h) n
  rw [confined_iff]
  · refine ⟨fun hok => ⟨?_, hok⟩, And.right⟩
    have hlk : pointer c k 1 + 4 ≤ c.sz := pointer_bound hsz fun hnone => hok ⟨1, by decide, hnone⟩
    refine (harg 0).all_bind.mpr ((harg 1).all_bind.mpr ?_)
    unfold mysleep
    split_ifs
    · exact all_stop
    · exact all_emit.mpr (List.forall_mem_singleton.mpr trivial)
    · refine all_emit_bind.mpr ⟨stores_inside hsz hlk, all_emit_bind.mpr
        ⟨List.forall_mem_singleton.mpr trivial, all_emit.mpr (List.forall_mem_append.mpr ⟨?_, ?_⟩)⟩⟩
      · exact forall_mem_loads.mpr (range_inside hsz hlk)
      · exact stores_inside hsz hlk
  · rw [sysMysleep, (harg 0).out_bind, (harg 1).out_bind, mysleep]
    split_ifs <;> exact nofun

theorem sysMywakeup_confined :
    Call.Sane c k .mywakeup ↔ Confined c (Call.PtrFails c .mywakeup) (sysMywakeup c k) := by
  have harg := argptrUnchecked_returns (P := Event.Inside c.sz) (k := k) hsz (fun _ h => h) 0
  rw [confined_iff]
  · refine ⟨fun hok => ⟨?_, hok⟩, And.right⟩
    exact harg.all_bind.mpr (all_emit.mpr (List.forall_mem_singleton.mpr trivial))
  · rw [sysMywakeup, harg.out_bind]
    exact nofun

theorem dump_inside (walk : Nat → Option Bool) (addr size : Nat) {buffer : Nat}
    (hbuffer : buffer + 4 ≤ c.sz) :
    (∀ i, Copies walk addr size i → AllAt (Event.Inside c.sz) walk addr buffer size false i) ↔
      ∀ i, Copies walk addr size i → CopyInside c.sz walk addr buffer size i := by
  refine ⟨fun h i hcopies => ⟨?_, ?_, (h i hcopies).2.2 rfl⟩, fun h i hcopies => ?_⟩
  · by_contra hout
    -- the byte that goes to address `sz` is in a page that has been copied
    set m := c.sz - buffer with hm
    have hstart : m - m % pgsize ≤ i := by
      have hmod := hcopies.2.1
      simp only [pgsize] at hmod hout ⊢
      omega
    have hpage : Copies walk addr size (m - m % pgsize) := by
      refine ⟨by omega, ?_, fun j hj hmod => hcopies.2.2 j (by omega) hmod⟩
      rw [← Nat.div_add_mod m pgsize, Nat.mul_add_mod, Nat.mod_mod, Nat.add_sub_cancel]
      exact Nat.mul_mod_right ..
    have hmod : m % pgsize < pgsize := Nat.mod_lt _ (by decide)
    have hle := Nat.mod_le m pgsize
    have hstore : u32 (buffer + (m - m % pgsize) + m % pgsize) < c.sz :=
      (h _ hpage).2.1 (m % pgsize) (by omega)
    simp only [kernbase] at hsz
    rw [show buffer + (m - m % pgsize) + m % pgsize = c.sz by omega, u32, Nat.mod_eq_of_lt (by omega)]
      at hstore
    exact Nat.lt_irrefl _ hstore
  · have hlt := hcopies.1
    have hload := (h i hcopies).1 (min (size - i) pgsize - 1) (by simp only [pgsize]; omega)
    change u32 _ < c.sz at hload
    simp only [pgrounddown, u32, pgsize] at hload ⊢
    omega
  · obtain ⟨hstores, hloads, hguard⟩ := h i hcopies
    refine ⟨range_inside hsz hloads, range_inside hsz ?_, fun _ => hguard⟩
    have hlt := hcopies.1
    omega

theorem sysDump_spec :
    (sysDump c k).out ≠ .ok (-1) ∧ ((sysDump c k).All (Event.Inside c.sz) ↔ DumpInside c k) := by
  have hint := argint_returns (P := Event.Inside c.sz) hsz fun _ h => h
  have hptr := fun n => argptr_returns (P := Event.Inside c.sz) hsz (fun _ h => h) n 4
  unfold sysDump DumpInside
  rw [(hint 0).out_bind, (hint 0).all_bind]
  cases h₀ : (c.argint 0).val with
  | none => exact ⟨nofun, iff_of_true all_stop nofun⟩
  | some pid =>
    dsimp only
    rw [(hptr 1).out_bind, (hptr 1).all_bind]
    cases h₁ : (c.argptr 1 4).val with
    | none => exact ⟨nofun, iff_of_true all_stop nofun⟩
    | some addr =>
      dsimp only
      rw [(hptr 2).out_bind, (hptr 2).all_bind]
      cases h₂ : (c.argptr 2 4).val with
      | none => exact ⟨nofun, iff_of_true all_stop nofun⟩
      | some buffer =>
        dsimp only
        rw [(hint 3).out_bind, (hint 3).all_bind]
        cases h₃ : (c.argint 3).val with
        | none => exact ⟨nofun, iff_of_true all_stop nofun⟩
        | some size =>
          dsimp only [dump]
          cases hwalk : k.pgdir pid with
          | none =>
            refine ⟨nofun, iff_of_true all_stop ?_⟩
            rintro _ _ _ _ walk ⟨⟩ - - - hsome
            cases hwalk.symm.trans hsome
          | some walk =>
            refine ⟨fun hout => absurd (out_bind_pure hout) (by decide), ?_⟩
            have hbytes := dump_inside hsz walk addr size (argptr_bound hsz (by decide) h₂)
            rw [all_bind_pure, mycopybuffer_all (argint_lt h₃).le (2 ^ 20) 0 false rfl rfl
              fun j hj => absurd hj j.not_lt_zero]
            refine ⟨fun h => ?_, fun h i _ => hbytes.mpr (h pid addr buffer size walk rfl rfl rfl rfl hwalk) i⟩
            rintro _ _ _ _ walk' ⟨⟩ ⟨⟩ ⟨⟩ ⟨⟩ hwalk'
            cases hwalk.symm.trans hwalk'
            exact hbytes.mp fun i => h i i.zero_le

theorem sysDump_confined : Call.Sane c k .dump ↔ Confined c (Call.PtrFails c .dump) (sysDump c k) := by
  obtain ⟨hout, hall⟩ := sysDump_spec (k := k) hsz
  rw [confined_iff hout, and_comm]
  exact and_congr_right' hall.symm

end

/-! ### What goes wrong -/

/-- A caller with two pages whose arguments are the words `args`, from the bottom of its memory. -/
def callerWith (args : List Nat) : Caller :=
  { sz := 8192
    esp := 0
    mem := fun a => UInt8.ofNat ((args.getD ((a - 4) / 4) 0) / 2 ^ (8 * (a % 4)))
    ofile := fun _ => true }

def willing : Kernel :=
  { moved := 0
    ret := 0
    inode := true
    pipe := some (3, 4)
    slot := some 7
    pgdir := fun _ => some fun _ => some true
    ptable := kernbase
    junk := fun _ => 0 }

end Xv6.Syscall
