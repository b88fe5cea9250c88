import Mathlib.Data.List.Infix

/-!
# The matcher of `grep`

A string ends where its list does.
-/

namespace Xv6.Grep

variable {c : Char} {re text : List Char}

/-- `here` is `matchhere` at the rest of the pattern. -/
def matchstar (here : List Char → Bool) (c : Char) : List Char → Bool
  | [] => here []
  | t :: text => here (t :: text) || ((t == c || c == '.') && matchstar here c text)

def matchhere : List Char → List Char → Bool
  | [], _ => true
  | c :: '*' :: re, text => matchstar (fun text => matchhere re text) c text
  | ['$'], text => text.isEmpty
  | c :: re, t :: text => (c == '.' || c == t) && matchhere re text
  | _ :: _, [] => false

/-- The loop tries every tail of the text, the empty one last. -/
def «match» : List Char → List Char → Bool
  | '^' :: re, text => matchhere re text
  | re, text => text.tails.any fun text => matchhere re text

/-! ### The pattern language -/

def Accepts (c t : Char) : Prop := c = '.' ∨ c = t

/-- The pattern, read item by item from the left, matches at the start of the text. -/
inductive Matches : List Char → List Char → Prop
  | nil {text : List Char} : Matches [] text
  | star {c : Char} {re text s rest : List Char} (htext : text = s ++ rest) (hs : ∀ t ∈ s, Accepts c t)
      (hre : Matches re rest) : Matches (c :: '*' :: re) text
  | dollar : Matches ['$'] []
  | char {c t : Char} {re text : List Char} (hstar : ∀ r, re ≠ '*' :: r) (hend : c = '$' → re ≠ [])
      (hc : Accepts c t) (hre : Matches re text) : Matches (c :: re) (t :: text)

theorem matchstar_iff {here : List Char → Bool} :
    matchstar here c text ↔ ∃ s rest, text = s ++ rest ∧ (∀ t ∈ s, Accepts c t) ∧ here rest := by
  induction text with
  | nil => simp [matchstar, and_assoc]
  | cons t text ih =>
    simp only [matchstar, Bool.or_eq_true, Bool.and_eq_true, beq_iff_eq, ih]
    constructor
    · rintro (hhere | ⟨hc, s, rest, rfl, hs, hhere⟩)
      · exact ⟨[], _, rfl, by simp, hhere⟩
      · exact ⟨t :: s, rest, rfl, List.forall_mem_cons.mpr ⟨hc.symm.imp_right Eq.symm, hs⟩, hhere⟩
    · rintro ⟨_ | ⟨t', s⟩, rest, heq, hs, hhere⟩
      · exact Or.inl (heq ▸ hhere)
      · obtain ⟨rfl, rfl⟩ := List.cons.inj heq
        obtain ⟨hc, hs⟩ := List.forall_mem_cons.mp hs
        exact Or.inr ⟨hc.symm.imp_left Eq.symm, s, rest, rfl, hs, hhere⟩

theorem matchhere_iff : matchhere re text ↔ Matches re text := by
  fun_induction matchhere re text with
  | case1 => exact iff_of_true rfl .nil
  | case2 c re text ih =>
    simp only [matchstar_iff, ih]
    constructor
    · rintro ⟨s, rest, htext, hs, hre⟩
      exact .star htext hs hre
    · rintro (_ | ⟨htext, hs, hre⟩ | _ | ⟨hstar⟩)
      · exact ⟨_, _, htext, hs, hre⟩
      · exact absurd rfl (hstar re)
  | case3 text =>
    rw [List.isEmpty_iff]
    constructor
    · rintro rfl
      exact .dollar
    · rintro (_ | _ | _ | ⟨_, hend⟩)
      · rfl
      · exact absurd rfl (hend rfl)
  | case4 c re t text hstar hend ih =>
    simp only [Bool.and_eq_true, Bool.or_eq_true, beq_iff_eq, ih]
    constructor
    · exact fun ⟨hc, hre⟩ => .char hstar hend hc hre
    · rintro (_ | _ | _ | ⟨-, -, hc, hre⟩)
      · exact (hstar _ rfl).elim
      · exact ⟨hc, hre⟩
  | case5 c re hstar hend =>
    refine iff_of_false Bool.false_ne_true ?_
    rintro (_ | _ | _)
    · exact hstar _ rfl
    · exact hend rfl rfl

/-- `match` looks for a pattern that begins with `^` at the start of the text, for others anywhere. -/
theorem match_iff (re text : List Char) : «match» re text ↔
    if re.head? = some '^' then Matches re.tail text else ∃ rest, rest <:+ text ∧ Matches re rest := by
  unfold «match»
  split
  · exact matchhere_iff
  · rename_i hcaret
    have hhead : re.head? ≠ some '^' := fun h => (List.head?_eq_some_iff.mp h).elim hcaret
    simp only [if_neg hhead, List.any_eq_true, List.mem_tails, matchhere_iff]

end Xv6.Grep
