import Xv6.Lib.Bytes

/-!
# The two copies of `memmove`

The kernel's `memmove` (`string.c`) chooses the direction of copying, the user library's (`ulib.c`)
always goes upwards. Pointers are 32-bit words, a memory is a function from addresses to bytes.
-/

namespace Xv6

open Function (update update_self update_of_ne)

/-- `while(n-- > 0) *d++ = *s++;` -/
def copyUp : Nat → Bytes → UInt32 → UInt32 → Bytes
  | 0, m, _, _ => m
  | n + 1, m, d, s => copyUp n (update m d.toNat (m s.toNat)) (d + 1) (s + 1)

/-- `while(n-- > 0) *--d = *--s;` -/
def copyDown : Nat → Bytes → UInt32 → UInt32 → Bytes
  | 0, m, _, _ => m
  | n + 1, m, d, s => copyDown n (update m (d - 1).toNat (m (s - 1).toNat)) (d - 1) (s - 1)

def Kernel.memmove (m : Bytes) (dst src n : UInt32) : Bytes :=
  if src < dst ∧ src + n > dst then
    copyDown n.toNat m (dst + n) (src + n)
  else
    copyUp n.toNat m dst src

/-- `n` is an `int`. -/
def Ulib.memmove (m : Bytes) (dst src : UInt32) (n : Int) : Bytes := copyUp n.toNat m dst src

/-- The memory with the bytes at `s` also at `d`. -/
def moved (m : Bytes) (d s n : Nat) : Bytes := m.fill d n fun k => m (s + k)

theorem moved_zero (m : Bytes) (d s : Nat) : moved m d s 0 = m :=
  funext fun _ => Bytes.fill_outside (by omega)

/-- The first byte can be moved first, unless the others are still to be read there. -/
theorem moved_succ (m : Bytes) {d s n : Nat} (hover : d ≤ s ∨ s + (n + 1) ≤ d) :
    moved (update m d (m s)) (d + 1) (s + 1) n = moved m d s (n + 1) := by
  funext a
  unfold moved
  by_cases hin : d + 1 ≤ a ∧ a < d + 1 + n
  · rw [Bytes.fill_inside hin, Bytes.fill_inside (by omega), update_of_ne (by omega)]
    exact congrArg m (by omega)
  · rw [Bytes.fill_outside hin]
    by_cases had : a = d
    · subst had
      rw [update_self, Bytes.fill_inside (by omega), Nat.sub_self, Nat.add_zero]
    · rw [update_of_ne had, Bytes.fill_outside (by omega)]

/-- The last byte can be moved first, unless the others are still to be read there. -/
theorem moved_last (m : Bytes) {d s n : Nat} (hover : s ≤ d) :
    moved (update m (d + n) (m (s + n))) d s n = moved m d s (n + 1) := by
  funext a
  unfold moved
  by_cases hin : d ≤ a ∧ a < d + n
  · rw [Bytes.fill_inside hin, Bytes.fill_inside (by omega), update_of_ne (by omega)]
  · rw [Bytes.fill_outside hin]
    by_cases had : a = d + n
    · subst had
      rw [update_self, Bytes.fill_inside (by omega), Nat.add_sub_cancel_left]
    · rw [update_of_ne had, Bytes.fill_outside (by omega)]

theorem copyUp_eq {n d s : Nat} (m : Bytes) (hd : d + n ≤ 2 ^ 32) (hs : s + n ≤ 2 ^ 32)
    (hover : d ≤ s ∨ s + n ≤ d) : copyUp n m (.ofNat d) (.ofNat s) = moved m d s n := by
  induction n generalizing m d s with
  | zero => exact (moved_zero m d s).symm
  | succ n ih =>
    have hnext := ih (update m d (m s)) (d := d + 1) (s := s + 1) (by omega) (by omega) (by omega)
    rw [UInt32.ofNat_add, UInt32.ofNat_add] at hnext
    rw [copyUp, UInt32.toNat_ofNat_of_lt' (show d < 2 ^ 32 by omega),
      UInt32.toNat_ofNat_of_lt' (show s < 2 ^ 32 by omega), ← moved_succ m hover]
    exact hnext

theorem copyDown_eq {n d s : Nat} (m : Bytes) (hd : d + n ≤ 2 ^ 32) (hs : s + n ≤ 2 ^ 32)
    (hover : s ≤ d) : copyDown n m (.ofNat (d + n)) (.ofNat (s + n)) = moved m d s n := by
  induction n generalizing m with
  | zero => exact (moved_zero m d s).symm
  | succ n ih =>
    have hpred : ∀ k, UInt32.ofNat (k + 1) - 1 = UInt32.ofNat k := fun k => by
      rw [UInt32.ofNat_add]
      exact UInt32.add_sub_cancel _ _
    rw [copyDown, ← Nat.add_assoc, ← Nat.add_assoc, hpred, hpred,
      UInt32.toNat_ofNat_of_lt' (show d + n < 2 ^ 32 by omega),
      UInt32.toNat_ofNat_of_lt' (show s + n < 2 ^ 32 by omega), ih _ (by omega) (by omega)]
    exact moved_last m hover

/-- Above the source, a run of equal bytes up to the destination spreads over it. -/
theorem copyUp_same {n d s b : Nat} {c : UInt8} {m : Bytes} (hd : d + n ≤ 2 ^ 32) (hb : b ≤ s)
    (hs : s < d) (hsame : ∀ a, b ≤ a → a < d → m a = c) {a : Nat} (hba : b ≤ a) (had : a < d + n) :
    copyUp n m (.ofNat d) (.ofNat s) a = c := by
  induction n generalizing m d s with
  | zero => exact hsame a hba had
  | succ n ih =>
    rw [copyUp, UInt32.toNat_ofNat_of_lt' (show d < 2 ^ 32 by omega),
      UInt32.toNat_ofNat_of_lt' (show s < 2 ^ 32 by omega), hsame s hb hs]
    have hnext := ih (m := update m d c) (d := d + 1) (s := s + 1) (by omega) (by omega) (by omega)
      (fun a' hba' had' => by
        by_cases heq : a' = d
        · rw [heq, update_self]
        · rw [update_of_ne heq, hsame a' hba' (by omega)]) (by omega)
    rwa [UInt32.ofNat_add, UInt32.ofNat_add] at hnext

/-- For ranges that do not wrap, the kernel's `memmove` moves the bytes however the ranges overlap, and
the user library's leaves the same memory unless the destination begins inside the source, where some
memory tells the two apart. -/
theorem memmove_agree (dst src : UInt32) (n : Nat) (hn : n < 2 ^ 31) (hdst : dst.toNat + n ≤ 2 ^ 32)
    (hsrc : src.toNat + n ≤ 2 ^ 32) :
    (∀ m, Kernel.memmove m dst src (.ofNat n) = moved m dst.toNat src.toNat n) ∧
      ((∀ m, Ulib.memmove m dst src n = Kernel.memmove m dst src (.ofNat n)) ↔
        ¬ (src < dst ∧ dst.toNat < src.toNat + n)) := by
  have hword : (UInt32.ofNat n).toNat = n := UInt32.toNat_ofNat_of_lt' (by
    change n < 2 ^ 32
    omega)
  have hup : ∀ m, dst.toNat ≤ src.toNat ∨ src.toNat + n ≤ dst.toNat →
      copyUp n m dst src = moved m dst.toNat src.toNat n := fun m => by
    have heq := copyUp_eq m hdst hsrc
    rwa [UInt32.ofNat_toNat, UInt32.ofNat_toNat] at heq
  have hdown : ∀ m, src.toNat ≤ dst.toNat →
      copyDown n m (dst + .ofNat n) (src + .ofNat n) = moved m dst.toNat src.toNat n := fun m => by
    have heq := copyDown_eq m hdst hsrc
    rwa [UInt32.ofNat_add, UInt32.ofNat_add, UInt32.ofNat_toNat, UInt32.ofNat_toNat] at heq
  have hkernel : ∀ m, Kernel.memmove m dst src (.ofNat n) = moved m dst.toNat src.toNat n := by
    intro m
    have hsum := UInt32.toNat_add src (.ofNat n)
    rw [hword] at hsum
    unfold Kernel.memmove
    rw [hword]
    split_ifs with hinside
    · exact hdown m (Nat.le_of_lt hinside.1)
    · refine hup m ?_
      rw [gt_iff_lt, UInt32.lt_iff_toNat_lt, UInt32.lt_iff_toNat_lt, hsum] at hinside
      omega
  refine ⟨hkernel, fun hagree hover => ?_, fun hover m => ?_⟩
  · rw [UInt32.lt_iff_toNat_lt] at hover
    -- the byte at `dst` is the only one that differs, and the user library loses it at once
    have hsame := copyUp_same (m := fun a => if a = dst.toNat then 1 else 0) (c := 0) hdst
      le_rfl hover.1 (fun a _ had => if_neg had.ne) (a := dst.toNat + (dst.toNat - src.toNat))
      (by omega) (by omega)
    rw [UInt32.ofNat_toNat, UInt32.ofNat_toNat] at hsame
    have hlost := hsame.symm.trans (congrFun ((hagree _).trans (hkernel _)) _)
    rw [moved, Bytes.fill_inside (by omega), if_pos (by omega)] at hlost
    exact absurd hlost (by decide)
  · rw [hkernel]
    refine hup m ?_
    rw [UInt32.lt_iff_toNat_lt] at hover
    omega

/-- Two bytes moved one place down. -/
theorem memmove_agree_down :
    Ulib.memmove (fun a => a.toUInt8) 4 5 2 = Kernel.memmove (fun a => a.toUInt8) 4 5 2 :=
  (memmove_agree 4 5 2 (by decide) (by decide) (by decide)).2.mpr (by decide) _

/-- Two bytes moved one place up: the user library has overwritten the second before it reads it. -/
theorem memmove_disagree : ∃ m : Bytes, Kernel.memmove m 5 4 2 6 = 8 ∧ Ulib.memmove m 5 4 2 6 = 7 :=
  ⟨fun a => if a = 4 then 7 else if a = 5 then 8 else 0, by decide, by decide⟩

end Xv6
