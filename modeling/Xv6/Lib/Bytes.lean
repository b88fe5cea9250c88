import Mathlib.Data.UInt
import Mathlib.Data.Nat.Bitwise
import Mathlib.Logic.Function.Basic
import Mathlib.Tactic.Common
import Mathlib.Algebra.Order.Ring.Int

/-!
# Byte buffers

A buffer is a function from offsets to bytes; what lies past its end is never read. Little-endian
numbers, copies into a range and single bits, each with the laws that say what an update does to what
is read at the same place and at another one.
-/

namespace Xv6

open Function (update update_self update_of_ne)

abbrev Bytes := Nat → UInt8

namespace Bytes

/-! ### Numbers -/

def get : Nat → Bytes → Nat → Nat
  | 0, _, _ => 0
  | w + 1, f, off => (f off).toNat + 256 * get w f (off + 1)

def leByte (v : Nat) : Bytes := fun k => UInt8.ofNat (v / 256 ^ k)

variable {w o off len : Nat} {f g : Bytes}

theorem get_congr {o' : Nat} (h : ∀ i < w, f (o + i) = g (o' + i)) : get w f o = get w g o' := by
  induction w generalizing o o' with
  | zero => rfl
  | succ w ih =>
    have hhead := h 0 (Nat.succ_pos w)
    have htail : get w f (o + 1) = get w g (o' + 1) := by
      apply ih
      intro i hi
      have hstep := h (i + 1) (Nat.succ_lt_succ hi)
      rwa [Nat.add_comm i 1, ← Nat.add_assoc, ← Nat.add_assoc] at hstep
    rw [Nat.add_zero, Nat.add_zero] at hhead
    rw [get, get, hhead, htail]

theorem get_leByte (w v k : Nat) : get w (leByte v) k = v / 256 ^ k % 256 ^ w := by
  induction w generalizing k with
  | zero => rw [get, Nat.pow_zero, Nat.mod_one]
  | succ w ih =>
    have hbyte : (leByte v k).toNat = v / 256 ^ k % 256 := by simp [leByte]
    rw [get, ih, hbyte, Nat.pow_succ 256 k, ← Nat.div_div_eq_div_mul, Nat.pow_succ 256 w,
      Nat.mul_comm (256 ^ w) 256, Nat.mod_mul]

theorem get_of_leByte {v : Nat} (hv : v < 256 ^ w)
    (hf : ∀ i < w, f (o + i) = leByte v i) : get w f o = v := by
  have hread : get w f o = get w (leByte v) 0 := get_congr fun i hi => by rw [hf i hi, Nat.zero_add]
  rw [hread, get_leByte, Nat.pow_zero, Nat.div_one, Nat.mod_eq_of_lt hv]

/-! ### Copies -/

def fill (f : Bytes) (off len : Nat) (g : Bytes) : Bytes := fun k =>
  if off ≤ k ∧ k < off + len then g (k - off) else f k

theorem fill_inside {k : Nat} (hk : off ≤ k ∧ k < off + len) : fill f off len g k = g (k - off) := if_pos hk

theorem fill_outside {k : Nat} (hk : ¬ (off ≤ k ∧ k < off + len)) : fill f off len g k = f k := if_neg hk

theorem get_fill_inside (ho : o + w ≤ len) : get w (fill f off len g) (off + o) = get w g o := by
  apply get_congr
  intro i hi
  rw [fill_inside (by omega)]
  congr 1
  omega

theorem get_fill_outside (ho : o + w ≤ off ∨ off + len ≤ o) : get w (fill f off len g) o = get w f o :=
  get_congr fun i hi => fill_outside (by omega)

/-! ### Lists of bytes -/

def slice (f : Bytes) (off len : Nat) : List UInt8 := (List.range len).map fun k => f (off + k)

def ofList (src : List UInt8) : Bytes := fun k => src.getD k 0

@[simp]
theorem length_slice (f : Bytes) (off len : Nat) : (slice f off len).length = len := by
  simp [slice]

theorem getElem_slice (f : Bytes) (off len k : Nat) (hk : k < (slice f off len).length) :
    (slice f off len)[k] = f (off + k) := by
  simp [slice]

theorem slice_congr {off' : Nat}
    (h : ∀ k < len, f (off + k) = g (off' + k)) : slice f off len = slice g off' len :=
  List.map_congr_left fun k hk => h k (List.mem_range.mp hk)

theorem slice_append (f : Bytes) (off a b : Nat) :
    slice f off a ++ slice f (off + a) b = slice f off (a + b) := by
  unfold slice
  rw [List.range_add, List.map_append, List.map_map]
  congr 1
  apply List.map_congr_left
  intro k _
  rw [Function.comp_apply, Nat.add_assoc]

theorem take_drop_slice (f : Bytes) (len off n : Nat) :
    ((slice f 0 len).drop off).take n = slice f off (min n (len - off)) := by
  apply List.ext_getElem
  · simp
  · intro k hk _
    simp [slice]

/-! ### Bits -/

def mask (k : Nat) : UInt8 := UInt8.ofNat (2 ^ (k % 8))

def bit (f : Bytes) (k : Nat) : Bool := f (k / 8) &&& mask k != 0

def setBit (f : Bytes) (k : Nat) : Bytes := update f (k / 8) (f (k / 8) ||| mask k)

def clearBit (f : Bytes) (k : Nat) : Bytes := update f (k / 8) (f (k / 8) &&& ~~~ mask k)

theorem toNat_mask (k : Nat) : (mask k).toNat = 2 ^ (k % 8) := by
  have hlt : 2 ^ (k % 8) < 2 ^ 8 := Nat.pow_lt_pow_right (by decide) (Nat.mod_lt k (by decide))
  rw [mask, UInt8.toNat_ofNat']
  exact Nat.mod_eq_of_lt hlt

theorem bit_eq_testBit (f : Bytes) (k : Nat) : bit f k = (f (k / 8)).toNat.testBit (k % 8) := by
  have hpos : 0 < 2 ^ (k % 8) := Nat.two_pow_pos _
  have hiff : (f (k / 8) &&& mask k = 0) ↔ (f (k / 8)).toNat.testBit (k % 8) = false := by
    rw [← UInt8.toNat_inj, UInt8.toNat_and, toNat_mask, Nat.and_two_pow]
    cases (f (k / 8)).toNat.testBit (k % 8) with
    | true => simp
    | false => simp
  unfold bit
  cases h : (f (k / 8)).toNat.testBit (k % 8) with
  | true | false => simpa [h] using hiff

theorem testBit_not (x : UInt8) (i : Nat) :
    (~~~ x).toNat.testBit i = (decide (i < 8) && ! x.toNat.testBit i) := by
  rw [← UInt8.toNat_toBitVec, UInt8.toBitVec_not, BitVec.testBit_toNat, BitVec.getLsbD_not]
  rfl

theorem eq_of_div_mod {j k : Nat} (hdiv : j / 8 = k / 8) (hmod : j % 8 = k % 8) : j = k := by
  omega

theorem bit_setBit (f : Bytes) (k j : Nat) : bit (setBit f k) j = (decide (j = k) || bit f j) := by
  rw [bit_eq_testBit, bit_eq_testBit, setBit]
  by_cases hdiv : j / 8 = k / 8
  · rw [hdiv, update_self, UInt8.toNat_or, toNat_mask, Nat.testBit_or, Nat.testBit_two_pow, Bool.or_comm]
    congr 1
    exact decide_eq_decide.mpr ⟨fun hmod => eq_of_div_mod hdiv hmod.symm, fun hj => by rw [hj]⟩
  · rw [update_of_ne hdiv, decide_eq_false (fun hj => hdiv (by rw [hj])), Bool.false_or]

theorem bit_clearBit (f : Bytes) (k j : Nat) : bit (clearBit f k) j = (!decide (j = k) && bit f j) := by
  rw [bit_eq_testBit, bit_eq_testBit, clearBit]
  by_cases hdiv : j / 8 = k / 8
  · rw [hdiv, update_self, UInt8.toNat_and, Nat.testBit_and, testBit_not, toNat_mask,
      Nat.testBit_two_pow, decide_eq_true (Nat.mod_lt j (by decide)), Bool.true_and, Bool.and_comm]
    congr 2
    exact decide_eq_decide.mpr ⟨fun hmod => eq_of_div_mod hdiv hmod.symm, fun hj => by rw [hj]⟩
  · rw [update_of_ne hdiv, decide_eq_false (fun hj => hdiv (by rw [hj])), Bool.not_false, Bool.true_and]

end Bytes

end Xv6
