import Mathlib.Data.Int.ModEq
import Mathlib.Data.List.Basic
import Mathlib.Logic.Function.Basic
import Mathlib.Algebra.Order.Ring.Int

/-!
# Ring buffers

A queue of at most `size` elements in an array that is indexed modulo `size`. The counters of the two
ends may wrap at any multiple of `size`.
-/

namespace Xv6.Ring

variable {α : Type} {size : Nat} {data : Nat → α} {start count : Nat}

def contents (size : Nat) (data : Nat → α) (start count : Nat) : List α :=
  (List.range count).map fun k => data ((start + k) % size)

theorem contents_congr {data' : Nat → α} {start' : Nat}
    (h : ∀ k < count, data' ((start' + k) % size) = data ((start + k) % size)) :
    contents size data' start' count = contents size data start count :=
  List.map_congr_left fun k hk => h k (List.mem_range.mp hk)

theorem contents_add (a b : Nat) :
    contents size data start (a + b) = contents size data start a ++ contents size data (start + a) b := by
  unfold contents
  rw [List.range_add, List.map_append, List.map_map]
  refine congrArg _ (List.map_congr_left fun k _ => ?_)
  rw [Function.comp_apply, Nat.add_assoc]

theorem mod_ne_mod {k : Nat} (hk : k < count) (hcount : count < size) :
    (start + k) % size ≠ (start + count) % size := by
  intro heq
  have hmod : Nat.ModEq size k count := Nat.ModEq.add_left_cancel' start heq
  rw [Nat.ModEq, Nat.mod_eq_of_lt (Nat.lt_trans hk hcount), Nat.mod_eq_of_lt hcount] at hmod
  exact Nat.ne_of_lt hk hmod

theorem contents_push (x : α) (hcount : count < size) :
    contents size (Function.update data ((start + count) % size) x) start (count + 1)
      = contents size data start count ++ [x] := by
  have hold : contents size (Function.update data ((start + count) % size) x) start count
      = contents size data start count := by
    refine contents_congr fun k hk => ?_
    exact Function.update_of_ne (mod_ne_mod hk hcount) ..
  unfold contents at hold ⊢
  rw [List.range_succ, List.map_append, hold]
  simp

theorem contents_pop : contents size data start (count + 1)
      = data (start % size) :: contents size data (start + 1) count := by
  unfold contents
  rw [List.range_succ_eq_map, List.map_cons, List.map_map, Nat.add_zero]
  refine congrArg _ (List.map_congr_left fun k _ => ?_)
  change data ((start + (k + 1)) % size) = _
  rw [Nat.add_right_comm, Nat.add_assoc]

theorem contents_mod {m : Nat} (hdvd : size ∣ m) :
    contents size data (start % m) count = contents size data start count := by
  refine contents_congr fun k _ => ?_
  rw [Nat.add_mod, Nat.mod_mod_of_dvd _ hdvd, ← Nat.add_mod]

end Xv6.Ring
