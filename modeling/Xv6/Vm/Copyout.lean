import Xv6.Vm.Isolation

/-!
# Copying to user addresses

`uva2ka` and `copyout` in `vm.c`. `uva2ka` reads the entry that `walkpgdir` points to without asking
whether there is one.
-/

namespace Xv6.Vm

inductive Fault where
  | nullPte
  deriving DecidableEq

def uva2ka (d : Pgdir) (uva : Nat) : Except Fault (Option Frame) :=
  match d.walk uva with
  | none => .error .nullPte
  | some none => .ok none
  | some (some e) => .ok (if e.perm.user then some e.frame else none)

/-- The `n` bytes of `src` from `buf` on go to the page `f`, from `off` on. -/
def Kmem.put (k : Kmem) (f : Frame) (off n : Nat) (src : Nat → UInt8) (buf : Nat) : Kmem :=
  { k with
    mem := Function.update k.mem f fun i =>
      if off ≤ i ∧ i < off + n then src (buf + (i - off)) else k.mem f i }

def copyoutLoop (d : Pgdir) (src : Nat → UInt8) : Nat → Nat → Nat → Nat → Kmem → Except Fault (Int × Kmem)
  | 0, _, _, _, k => .ok (0, k)
  | fuel + 1, va, buf, len, k =>
    if len = 0 then
      .ok (0, k)
    else do
      let va0 := pgrounddown va
      match ← uva2ka d va0 with
      | none => .ok (-1, k)
      | some f =>
        let n := min (pgsize - (va - va0)) len
        copyoutLoop d src fuel (u32 (va0 + pgsize)) (buf + n) (len - n) (k.put f (va - va0) n src buf)

def spanned (va len : Nat) : Nat := (va % pgsize + len + pgsize - 1) / pgsize

def copyout (d : Pgdir) (va : Nat) (src : Nat → UInt8) (len : Nat) (k : Kmem) : Except Fault (Int × Kmem) :=
  copyoutLoop d src (spanned va len) va 0 len k

/-! ### What is written -/

namespace Kmem

variable {k : Kmem} {g f : Frame} {o m off : Nat} {src : Nat → UInt8} {n : Nat}

theorem mem_put_of_mem (hin : o ≤ off ∧ off < o + m) :
    (k.put g o m src n).mem g off = src (n + (off - o)) := by
  dsimp only [put]
  rw [Function.update_self, if_pos hin]

theorem mem_put_of_notMem (hout : ¬ (f = g ∧ o ≤ off ∧ off < o + m)) :
    (k.put g o m src n).mem f off = k.mem f off := by
  dsimp only [put]
  by_cases hf : f = g
  · subst hf
    rw [Function.update_self, if_neg fun hin => hout ⟨rfl, hin⟩]
  · rw [Function.update_of_ne hf]

end Kmem

/-- The byte of memory behind an address that user programs have access to. -/
def target (d : Pgdir) (a : Nat) : Option (Frame × Nat) :=
  ((d.entry (a / pgsize % npages)).filter fun e => e.perm.user).map fun e => (e.frame, a % pgsize)

/-- The addresses from `va` on are accessible, each has one of the first `n` bytes of `src` that belong
to its byte of memory, and nothing else has changed. -/
structure Written (d : Pgdir) (va : Nat) (src : Nat → UInt8) (n : Nat) (k k' : Kmem) : Prop where
  reach : ∀ i < n, target d (va + i) ≠ none
  byte : ∀ i < n, ∀ f off, target d (va + i) = some (f, off) →
    ∃ j < n, target d (va + j) = some (f, off) ∧ k'.mem f off = src j
  rest : ∀ f off, (∀ i < n, target d (va + i) ≠ some (f, off)) → k'.mem f off = k.mem f off
  free : k'.freelist = k.freelist

variable {d : Pgdir} {va : Nat} {src : Nat → UInt8} {n m len : Nat} {k k' : Kmem}

namespace Written

theorem zero (d : Pgdir) (va : Nat) (src : Nat → UInt8) (k : Kmem) : Written d va src 0 k k :=
  ⟨fun _ h => absurd h (Nat.not_lt_zero _), fun _ h => absurd h (Nat.not_lt_zero _), fun _ _ _ => rfl, rfl⟩

theorem put {g : Frame} {o : Nat} (h : Written d va src n k k')
    (hpage : ∀ i < m, target d (va + (n + i)) = some (g, o + i)) :
    Written d va src (n + m) k (k'.put g o m src n) := by
  have hnew : ∀ i < n + m, n ≤ i → target d (va + i) = some (g, o + (i - n)) := by
    intro i hi hn
    have hi' := hpage (i - n) (by omega)
    rwa [show n + (i - n) = i by omega] at hi'
  -- a byte of the page that is written belongs to one of the new addresses
  have hin : ∀ {f off}, f = g ∧ o ≤ off ∧ off < o + m →
      target d (va + (n + (off - o))) = some (f, off) := by
    rintro f off ⟨rfl, hlow, hhigh⟩
    rw [hpage (off - o) (by omega), show o + (off - o) = off by omega]
  constructor
  · intro i hi
    by_cases hn : i < n
    · exact h.reach i hn
    · rw [hnew i hi (by omega)]
      exact nofun
  · intro i hi f off ht
    by_cases hmem : f = g ∧ o ≤ off ∧ off < o + m
    · refine ⟨n + (off - o), by omega, hin hmem, ?_⟩
      obtain ⟨rfl, hlow, hhigh⟩ := hmem
      exact Kmem.mem_put_of_mem ⟨hlow, hhigh⟩
    · by_cases hn : i < n
      · obtain ⟨j, hj, hsame, hbyte⟩ := h.byte i hn f off ht
        exact ⟨j, by omega, hsame, (Kmem.mem_put_of_notMem hmem).trans hbyte⟩
      · rw [hnew i hi (by omega)] at ht
        cases ht
        exact absurd ⟨rfl, by omega, by omega⟩ hmem
  · intro f off hnone
    rw [Kmem.mem_put_of_notMem]
    · exact h.rest f off fun i hi => hnone i (by omega)
    · exact fun hmem => hnone (n + (off - o)) (by omega) (hin hmem)
  · exact h.free

end Written

/-! ### The loop -/

theorem uva2ka_eq {v : Nat} {x : Option Pte} (hwalk : d.walk (pgsize * v) = some x) :
    uva2ka d (pgsize * v) = .ok ((x.filter fun e => e.perm.user).map Pte.frame) := by
  rw [uva2ka, hwalk]
  cases x with
  | none => rfl
  | some e => cases huser : e.perm.user <;> simp [huser]

theorem target_eq {a v : Nat} {x : Option Pte} (hwalk : d.walk (pgsize * v) = some x)
    (hv : a / pgsize % npages = v) :
    target d a = (x.filter fun e => e.perm.user).map fun e => (e.frame, a % pgsize) := by
  rw [target, hv, Pgdir.entry, hwalk]
  rfl

/-- A page without a page table is not reached: each address of the range has one, if those before it
are accessible. -/
def Tabled (d : Pgdir) (va len : Nat) : Prop :=
  ∀ j < len, (∀ i < j, target d (va + i) ≠ none) → d.walk (u32 (va + j)) ≠ none

/-- If the whole range is accessible, addresses with the same byte of memory get the same byte. -/
def Agrees (d : Pgdir) (va : Nat) (src : Nat → UInt8) (len : Nat) : Prop :=
  (∀ i < len, target d (va + i) ≠ none) →
    ∀ i < len, ∀ j < len, target d (va + i) = target d (va + j) → src i = src j

theorem walk_of_target {a : Nat} (ht : target d a ≠ none) : d.walk (u32 a) ≠ none := by
  intro hwalk
  have hpage : u32 a / pgsize % npages = a / pgsize % npages := by
    simp only [u32, pgsize, npages]
    omega
  rw [Pgdir.walk_page, hpage] at hwalk
  rw [target, Pgdir.entry, hwalk] at ht
  exact ht rfl

theorem copyoutLoop_spec (src : Nat → UInt8) (fuel a buf rest : Nat) (k₁ : Kmem)
    (hwritten : Written d va src buf k k₁) (hlen : buf + rest = len)
    (ha : 0 < rest → a = u32 (va + buf)) (hfuel : spanned a rest ≤ fuel) :
    (∃ k', copyoutLoop d src fuel a buf rest k₁ = .ok (0, k') ∧ Written d va src len k k') ∨
      ∃ n < len, (∀ i < n, target d (va + i) ≠ none) ∧ target d (va + n) = none ∧
        if d.walk (u32 (va + n)) = none then
          copyoutLoop d src fuel a buf rest k₁ = .error .nullPte
        else
          ∃ k', copyoutLoop d src fuel a buf rest k₁ = .ok (-1, k') ∧ Written d va src n k k' := by
  induction fuel generalizing a buf rest k₁ with
  | zero =>
    have hrest : rest = 0 := by
      simp only [spanned, pgsize] at hfuel
      omega
    subst hrest
    exact .inl ⟨k₁, rfl, hlen ▸ hwritten⟩
  | succ fuel ih =>
    unfold copyoutLoop
    split_ifs with hrest
    · subst hrest
      exact .inl ⟨k₁, rfl, hlen ▸ hwritten⟩
    obtain rfl := ha (Nat.pos_of_ne_zero hrest)
    have hv : ∀ i, u32 (va + buf) % pgsize + i < pgsize →
        (va + (buf + i)) / pgsize % npages = u32 (va + buf) / pgsize ∧
          (va + (buf + i)) % pgsize = u32 (va + buf) % pgsize + i := by
      intro i hi
      simp only [u32, pgsize, npages] at hi ⊢
      omega
    have hpage : u32 (va + buf) / pgsize % npages = u32 (va + buf) / pgsize := by
      simp only [u32, pgsize, npages]
      omega
    have hoff : u32 (va + buf) - pgrounddown (u32 (va + buf)) = u32 (va + buf) % pgsize := by
      simp only [pgrounddown, pgsize]
      omega
    have hwalk' := Pgdir.walk_page d (u32 (va + buf))
    have hzero : u32 (va + buf) % pgsize + 0 < pgsize := Nat.mod_lt _ (by decide)
    rw [hpage] at hwalk'
    dsimp only
    rw [hoff, pgrounddown]
    cases hwalk : d.walk (pgsize * (u32 (va + buf) / pgsize)) with
    | none =>
      refine .inr ⟨buf, by omega, hwritten.reach, ?_, ?_⟩
      · by_contra ht
        exact walk_of_target ht (hwalk'.trans hwalk)
      · rw [if_pos (hwalk'.trans hwalk), uva2ka, hwalk]
        rfl
    | some x =>
      rw [uva2ka_eq hwalk]
      have htarget := fun i hi => target_eq hwalk (hv i hi).1
      cases hx : x.filter fun e => e.perm.user with
      | none =>
        refine .inr ⟨buf, by omega, hwritten.reach, ?_, ?_⟩
        · have hnone := htarget 0 hzero
          rwa [hx] at hnone
        · rw [if_neg (by rw [hwalk', hwalk]; exact Option.some_ne_none x)]
          exact ⟨k₁, rfl, hwritten⟩
      | some e =>
        refine ih (u32 (pgsize * (u32 (va + buf) / pgsize) + pgsize)) _ _ _ ?_ ?_ ?_ ?_
        · refine hwritten.put fun i hi => ?_
          have hi' : u32 (va + buf) % pgsize + i < pgsize := by omega
          rw [htarget i hi', hx, (hv i hi').2]
          rfl
        · omega
        · intro hmore
          simp only [u32, pgsize] at hmore ⊢
          omega
        · simp only [spanned, u32, pgsize] at hfuel ⊢
          omega

end Xv6.Vm
