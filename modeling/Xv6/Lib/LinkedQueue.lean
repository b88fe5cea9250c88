import Mathlib.Data.List.Nodup
import Mathlib.Logic.Function.Basic

/-!
# Linked queues

A queue of nodes that is linked by one pointer in each of them: nodes are put in at the end, which a loop
looks for, and taken out at the head. `Holds` says which list of nodes the pointers stand for.
-/

namespace Xv6

open Function (update update_self update_of_ne)

structure LinkedQueue (α : Type) where
  head : Option α
  next : α → Option α

namespace LinkedQueue

variable {α : Type}

/-- From the pointer `p` over the nodes of the list to a null pointer. -/
def Path (next : α → Option α) : Option α → List α → Prop
  | p, [] => p = none
  | p, x :: l => p = some x ∧ Path next (next x) l

structure Holds (k : LinkedQueue α) (l : List α) : Prop where
  path : Path k.next k.head l
  nodup : l.Nodup

variable {k : LinkedQueue α} {next next' : α → Option α} {p : Option α} {b x : α} {l l' : List α}

theorem Path.frame (hpath : Path next p l) (hnext : ∀ x ∈ l, next' x = next x) : Path next' p l := by
  induction l generalizing p with
  | nil => exact hpath
  | cons x l ih =>
    refine ⟨hpath.1, ?_⟩
    rw [hnext x List.mem_cons_self]
    exact ih hpath.2 fun y hy => hnext y (List.mem_cons_of_mem x hy)

theorem Holds.empty (next : α → Option α) : Holds ⟨none, next⟩ [] := ⟨rfl, List.nodup_nil⟩

theorem Holds.head_eq (h : k.Holds l) : k.head = l.head? := by
  cases l with
  | nil => exact h.path
  | cons x l => exact h.path.1

def pop (k : LinkedQueue α) (x : α) : LinkedQueue α := { k with head := k.next x }

theorem Holds.pop (h : k.Holds (x :: l)) : (k.pop x).Holds l :=
  ⟨h.path.2, (List.nodup_cons.mp h.nodup).2⟩

/-! ### Putting in at the end

The loop holds the address of a pointer: `none` for that of the head, `some x` for the one in `x`. -/

def load (k : LinkedQueue α) : Option α → Option α
  | none => k.head
  | some x => k.next x

/-- `for (; *pp; pp = &(*pp)->next);`. -/
def findEnd (k : LinkedQueue α) : Nat → Option α → Option (Option α)
  | 0, _ => none
  | fuel + 1, pp =>
    match k.load pp with
    | none => some pp
    | some x => k.findEnd fuel (some x)

/-- The address of the last pointer of a path that starts with the pointer at `pp`. -/
def lastSlot (pp : Option α) : List α → Option α
  | [] => pp
  | x :: l => lastSlot (some x) l

theorem findEnd_path (k : LinkedQueue α) {fuel : Nat} (hpath : Path k.next (k.load p) l)
    (hfuel : l.length < fuel) : k.findEnd fuel p = some (lastSlot p l) := by
  induction l generalizing p fuel with
  | nil =>
    obtain ⟨fuel, rfl⟩ := Nat.exists_eq_add_one_of_ne_zero (Nat.ne_zero_of_lt hfuel)
    have hnone : k.load p = none := hpath
    rw [findEnd, hnone]
    rfl
  | cons x l ih =>
    obtain ⟨fuel, rfl⟩ := Nat.exists_eq_add_one_of_ne_zero (Nat.ne_zero_of_lt hfuel)
    obtain ⟨hhead, hrest⟩ := hpath
    rw [findEnd, hhead]
    exact ih hrest (Nat.lt_of_succ_lt_succ hfuel)

variable [DecidableEq α]

def store (k : LinkedQueue α) (pp p : Option α) : LinkedQueue α :=
  match pp with
  | none => { k with head := p }
  | some x => { k with next := update k.next x p }

/-- `b->next = 0`, and then the loop and `*pp = b`. `none` when the fuel runs out. -/
def push (fuel : Nat) (b : α) (k : LinkedQueue α) : Option (LinkedQueue α) :=
  let k := k.store (some b) none
  (k.findEnd fuel none).map fun pp => k.store pp (some b)

theorem Path.snoc (hpath : Path next (next x) l) (hnodup : (x :: l).Nodup) (hb : b ∉ x :: l)
    (hnull : next b = none) : ∃ y ∈ x :: l, lastSlot (some x) l = some y ∧
      Path (update next y (some b)) (update next y (some b) x) (l ++ [b]) := by
  induction l generalizing x with
  | nil =>
    refine ⟨x, List.mem_cons_self, rfl, update_self .., ?_⟩
    have hne : b ≠ x := fun heq => hb (heq ▸ List.mem_cons_self)
    exact (update_of_ne hne ..).trans hnull
  | cons z l ih =>
    obtain ⟨hz, hrest⟩ := hpath
    obtain ⟨hx, hnodup⟩ := List.nodup_cons.mp hnodup
    obtain ⟨y, hy, hlast, hpath'⟩ :=
      ih hrest hnodup fun hmem => hb (List.mem_cons_of_mem x hmem)
    have hxy : x ≠ y := fun heq => hx (heq ▸ hy)
    refine ⟨y, List.mem_cons_of_mem x hy, hlast, ?_, hpath'⟩
    exact (update_of_ne hxy ..).trans hz

theorem Holds.push (h : k.Holds l) (hb : b ∉ l) {fuel : Nat} (hfuel : l.length < fuel) :
    ∃ k', k.push fuel b = some k' ∧ k'.Holds (l ++ [b]) := by
  have hnodup : (l ++ [b]).Nodup := List.nodup_append.mpr ⟨h.nodup, List.nodup_singleton b, by
    rintro x hx y hy rfl
    obtain rfl := List.mem_singleton.mp hy
    exact hb hx⟩
  have hnull : update k.next b none b = none := update_self ..
  have hpath : Path (update k.next b none) k.head l := by
    refine h.path.frame fun x hx => ?_
    have hne : x ≠ b := fun heq => hb (heq ▸ hx)
    exact update_of_ne hne ..
  have hend := findEnd_path (k.store (some b) none) (p := none) hpath hfuel
  refine ⟨_, congrArg (Option.map _) hend, ?_, hnodup⟩
  cases l with
  | nil => exact ⟨rfl, hnull⟩
  | cons x l =>
    obtain ⟨hhead, hrest⟩ := hpath
    obtain ⟨y, -, hlast, hpath'⟩ := hrest.snoc h.nodup hb hnull
    have hslot : lastSlot none (x :: l) = some y := hlast
    rw [hslot]
    exact ⟨hhead, hpath'⟩

end LinkedQueue

end Xv6
