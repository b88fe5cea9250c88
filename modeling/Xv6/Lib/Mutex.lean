import Mathlib.Logic.Function.Basic
import Mathlib.Algebra.Order.Ring.Int

/-!
# Mutual exclusion

A lock records its owner, and the program counters say which process is between `acquire` and
`release`. The two agree in every state. A lock that is only a word in memory, taken with `xchg`,
records no more than whether it has an owner.
-/

namespace Xv6

variable {ι : Type} {own : Option ι} {H H' : ι → Prop} {p : ι}

/-- The processes inside the critical section are exactly the owner. -/
def Mutex (own : Option ι) (H : ι → Prop) : Prop := ∀ q, H q ↔ own = some q

namespace Mutex

theorem keep (h : Mutex own H) (hsame : ∀ q, H' q ↔ H q) : Mutex own H' :=
  fun q => (hsame q).trans (h q)

theorem acquire (h : Mutex none H) (hp : H' p) (hsame : ∀ q, q ≠ p → (H' q ↔ H q)) : Mutex (some p) H' := by
  intro q
  by_cases hq : q = p
  · subst hq
    exact ⟨fun _ => rfl, fun _ => hp⟩
  · rw [hsame q hq, h q]
    exact ⟨nofun, fun heq => absurd (Option.some.inj heq).symm hq⟩

theorem release (h : Mutex (some p) H) (hp : ¬ H' p) (hsame : ∀ q, q ≠ p → (H' q ↔ H q)) :
    Mutex none H' := by
  intro q
  by_cases hq : q = p
  · subst hq
    exact ⟨fun hin => absurd hin hp, nofun⟩
  · rw [hsame q hq, h q]
    exact ⟨fun heq => absurd (Option.some.inj heq).symm hq, nofun⟩

theorem unique (h : Mutex own H) {q : ι} (hp : H p) (hq : H q) : q = p :=
  Option.some.inj (((h q).mp hq).symm.trans ((h p).mp hp))

section Update

/-! One process moves, and being in the critical section is a property `P` of its position. -/

variable [DecidableEq ι] {α : Type} {T : ι → α} {P : α → Prop} {x : α}

theorem update_of_ne (q : ι) (hq : q ≠ p) : P (Function.update T p x q) ↔ P (T q) := by
  rw [Function.update_of_ne hq]

theorem update_keep (h : Mutex own fun q => P (T q)) (hself : P x ↔ P (T p)) :
    Mutex own fun q => P (Function.update T p x q) := by
  refine h.keep fun q => ?_
  by_cases hq : q = p
  · subst hq
    rw [Function.update_self]
    exact hself
  · exact update_of_ne q hq

/-- How the owner changes when one process moves that was in the critical section if `old` and is in
it now if `new`. -/
inductive Move (own : Option ι) (p : ι) (old new : Prop) : Option ι → Prop
  | keep (hsame : new ↔ old) : Move own p old new own
  | acquire (hfree : own = none) (hnew : new) : Move own p old new (some p)
  | release (hold : old) (hnew : ¬ new) : Move own p old new none

theorem move {own' : Option ι} (h : Mutex own fun q => P (T q)) (hmove : Move own p (P (T p)) (P x) own') :
    Mutex own' fun q => P (Function.update T p x q) := by
  cases hmove with
  | keep hsame => exact h.update_keep hsame
  | acquire hfree hnew =>
    rw [hfree] at h
    exact h.acquire (by rwa [Function.update_self]) update_of_ne
  | release hold hnew =>
    rw [(h p).mp hold] at h
    exact h.release (by rwa [Function.update_self]) update_of_ne

end Update

end Mutex

/-! ### Lock words -/

/-- The word is 1 while somebody is in the critical section and 0 otherwise. -/
def LockWord (w : UInt32) (H : ι → Prop) : Prop :=
  (w = 0 ∧ Mutex none H) ∨ (w = 1 ∧ ∃ p, Mutex (some p) H)

namespace LockWord

variable {w : UInt32}

theorem free (hfree : ∀ q, ¬ H q) : LockWord 0 H :=
  Or.inl ⟨rfl, fun q => ⟨fun hq => absurd hq (hfree q), nofun⟩⟩

theorem unique (h : LockWord w H) {q : ι} (hp : H p) (hq : H q) : q = p := by
  rcases h with ⟨-, hmutex⟩ | ⟨-, r, hmutex⟩
  · exact hmutex.unique hp hq
  · exact hmutex.unique hp hq

theorem eq_one (h : LockWord w H) (hbusy : w ≠ 0) : w = 1 := by
  rcases h with ⟨hw, -⟩ | ⟨hw, -⟩
  · exact absurd hw hbusy
  · exact hw

theorem owner_of_zero (h : LockWord w H) (hzero : w = 0) : Mutex none H := by
  rcases h with ⟨-, hmutex⟩ | ⟨hone, -⟩
  · exact hmutex
  · rw [hzero] at hone
    exact absurd hone (by decide)

theorem not_of_zero (h : LockWord w H) (hzero : w = 0) : ¬ H p := fun hp =>
  nomatch (h.owner_of_zero hzero p).mp hp

section Update

variable [DecidableEq ι] {α : Type} {T : ι → α} {P : α → Prop} {x : α}

theorem update_keep (h : LockWord w fun q => P (T q)) (hself : P x ↔ P (T p)) :
    LockWord w fun q => P (Function.update T p x q) := by
  rcases h with ⟨hw, hmutex⟩ | ⟨hw, r, hmutex⟩
  · exact Or.inl ⟨hw, hmutex.update_keep hself⟩
  · exact Or.inr ⟨hw, r, hmutex.update_keep hself⟩

/-- How the word changes when one process moves. -/
inductive Move (w : UInt32) (old new : Prop) : UInt32 → Prop
  | keep (hsame : new ↔ old) : Move w old new w
  | busy (hbusy : w ≠ 0) (hsame : new ↔ old) : Move w old new 1
  | enter (hzero : w = 0) (hnew : new) : Move w old new 1
  | leave (hold : old) (hnew : ¬ new) : Move w old new 0

theorem move {w' : UInt32} (h : LockWord w fun q => P (T q)) (hmove : Move w (P (T p)) (P x) w') :
    LockWord w' fun q => P (Function.update T p x q) := by
  cases hmove with
  | keep hsame => exact h.update_keep hsame
  | busy hbusy hsame =>
    rw [h.eq_one hbusy] at h
    exact h.update_keep hsame
  | enter hzero hnew => exact Or.inr ⟨rfl, p, (h.owner_of_zero hzero).move (.acquire rfl hnew)⟩
  | leave hold hnew =>
    rcases h with ⟨-, hmutex⟩ | ⟨-, r, hmutex⟩
    · exact Or.inl ⟨rfl, hmutex.move (.release hold hnew)⟩
    · exact Or.inl ⟨rfl, hmutex.move (.release hold hnew)⟩

end Update

end LockWord

end Xv6
