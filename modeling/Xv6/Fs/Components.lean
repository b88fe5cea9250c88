import Xv6.Fs.Path
import Mathlib.Data.List.DropRight

/-!
# The components of a path

The scanner `skipelem` delivers the components of a path, and the loop of `namex` goes through them.
-/

namespace Xv6.Fs

/-- The strings between slashes that are not empty, cut to what a directory entry can hold. -/
def components (path : Path) : List Name :=
  ((path.splitOn slash).filter (· ≠ [])).map (List.take dirsiz)

theorem components_cons_slash (path : Path) : components (slash :: path) = components path := by
  unfold components
  have hsplit := List.splitOn_append_cons_self_of_not_mem (List.not_mem_nil (a := slash)) path
  rw [List.nil_append] at hsplit
  rw [hsplit]
  simp

theorem components_dropWhile (path : Path) :
    components (path.dropWhile (· == slash)) = components path := by
  induction path with
  | nil => rfl
  | cons b rest ih =>
    by_cases hb : b = slash
    · subst hb
      rw [List.dropWhile_cons_of_pos (by simp), ih, components_cons_slash]
    · rw [List.dropWhile_cons_of_neg (by simpa using hb)]

theorem components_append {word rest : Path} (hword : slash ∉ word) (hne : word ≠ [])
    (hrest : rest = [] ∨ rest.head? = some slash) :
    components (word ++ rest) = word.take dirsiz :: components rest := by
  cases rest with
  | nil =>
    unfold components
    rw [List.append_nil, List.splitOn_eq_singleton hword]
    simp [hne]
  | cons b rest =>
    obtain rfl : b = slash := by simpa using hrest
    rw [components_cons_slash]
    unfold components
    rw [List.splitOn_append_cons_self_of_not_mem hword]
    simp [hne]

theorem skipelem_none {path : Path} (hskip : skipelem path = none) : components path = [] := by
  simp only [skipelem, ite_eq_left_iff, reduceCtorEq, imp_false, not_not, List.isEmpty_iff] at hskip
  rw [← components_dropWhile, hskip]
  rfl

theorem skipelem_some {path rest : Path} {name : Name} (hskip : skipelem path = some (name, rest)) :
    components path = name :: components rest ∧ rest.length < path.length := by
  simp only [skipelem] at hskip
  set tail := path.dropWhile (· == slash) with htail
  set word := tail.takeWhile (· != slash)
  split_ifs at hskip with hempty
  obtain ⟨rfl, rfl⟩ := Prod.mk.inj (Option.some.inj hskip)
  have hword : slash ∉ word := fun hmem => by
    have hall : word.all (· != slash) = true := List.all_takeWhile
    simpa using List.all_eq_true.mp hall slash hmem
  have hne : word ≠ [] := by
    obtain ⟨b, more, hcons⟩ := List.exists_cons_of_ne_nil (mt List.isEmpty_iff.mpr hempty)
    have hb : ¬ (b == slash) = true := by
      have hhead := List.head?_dropWhile_not (fun b : UInt8 => b == slash) path
      rw [← htail, hcons] at hhead
      simpa using hhead
    change tail.takeWhile _ ≠ []
    rw [hcons, List.takeWhile_cons_of_pos (by simpa using hb)]
    exact List.cons_ne_nil _ _
  have hsplit : word ++ tail.dropWhile (· != slash) = tail := List.takeWhile_append_dropWhile
  have hrest : tail.dropWhile (· != slash) = [] ∨ (tail.dropWhile (· != slash)).head? = some slash := by
    have hhead := List.head?_dropWhile_not (fun b : UInt8 => b != slash) tail
    cases htl : tail.dropWhile (· != slash) with
    | nil => exact Or.inl rfl
    | cons b more =>
      rw [htl] at hhead
      exact Or.inr (by simpa using hhead)
  constructor
  · rw [components_dropWhile, ← components_append hword hne hrest, hsplit, htail, components_dropWhile]
  · have hlen := congrArg List.length hsplit
    rw [List.length_append] at hlen
    have hpos : 0 < word.length := List.length_pos_iff.mpr hne
    have hle := (List.dropWhile_sublist (· == slash) (l := tail.dropWhile (· != slash))).length_le
    have hle' := (List.dropWhile_sublist (· == slash) (l := path)).length_le
    rw [← htail] at hle'
    omega

theorem elemsFuel_eq (fuel : Nat) (path : Path) (hfuel : path.length ≤ fuel) :
    elemsFuel fuel path = components path := by
  induction fuel generalizing path with
  | zero =>
    obtain rfl : path = [] := List.length_eq_zero_iff.mp (Nat.le_zero.mp hfuel)
    rfl
  | succ fuel ih =>
    unfold elemsFuel
    cases hskip : skipelem path with
    | none => exact (skipelem_none hskip).symm
    | some next =>
      obtain ⟨hcomponents, hlen⟩ := skipelem_some hskip
      rw [hcomponents]
      exact congrArg (next.1 :: ·) (ih next.2 (by omega))

theorem elems_eq_components (path : Path) : elems path = components path := elemsFuel_eq _ _ le_rfl

/-- `skipelem` has taken the slashes off what it returns. -/
theorem skipelem_rest {path rest : Path} {name : Name} (hskip : skipelem path = some (name, rest))
    (hne : rest ≠ []) : skipelem rest ≠ none := by
  simp only [skipelem] at hskip
  split_ifs at hskip
  obtain ⟨-, rfl⟩ := Prod.mk.inj (Option.some.inj hskip)
  rw [skipelem, List.dropWhile_idempotent]
  simpa using hne

theorem elemsFuel_eq_nil (fuel : Nat) (path : Path) (hfuel : path.length ≤ fuel)
    (hskip : path ≠ [] → skipelem path ≠ none) : path = [] ↔ elemsFuel fuel path = [] := by
  refine ⟨?_, fun hnil => ?_⟩
  · rintro rfl
    cases fuel <;> rfl
  · by_contra hne
    obtain ⟨next, hnext⟩ := Option.ne_none_iff_exists'.mp (hskip hne)
    have hlen := List.length_pos_iff.mpr hne
    obtain ⟨fuel, rfl⟩ := Nat.exists_eq_succ_of_ne_zero (Nat.ne_of_gt (hlen.trans_le hfuel))
    rw [elemsFuel, hnext] at hnil
    cases hnil

/-! ### The loop of `namex` -/

def namexElems (parent : Bool) : List Name → Inum → FsM (Option (Inum × Name))
  | [], ip => namexEnd parent ip
  | name :: rest, ip => do
      ilock ip
      let f ← fields ip
      if f.type ≠ .dir then do
        iunlockput ip
        pure none
      else if parent ∧ rest = [] then do
        iunlock ip
        pure (some (ip, name))
      else
        match ← dirlookup ip name with
        | none => do
            iunlockput ip
            pure none
        | some (next, _) => do
            iunlockput ip
            namexElems parent rest next

theorem namexLoop_eq {parent : Bool} (fuel : Nat) (path : Path) (hfuel : path.length ≤ fuel) (ip : Inum) :
    namexLoop parent fuel path ip = namexElems parent (elemsFuel fuel path) ip := by
  induction fuel generalizing path ip with
  | zero => rfl
  | succ fuel ih =>
    unfold namexLoop elemsFuel
    cases hskip : skipelem path with
    | none => rfl
    | some next =>
      obtain ⟨name, rest⟩ := next
      have hlen := (skipelem_some hskip).2
      have hrest := fun ip => ih rest (by omega) ip
      have hlast := elemsFuel_eq_nil fuel rest (by omega) (skipelem_rest hskip)
      simp only [hrest, hlast]
      rfl

theorem namex_eq (path : Path) (parent : Bool) :
    namex path parent = namexStart path >>= namexElems parent (elems path) :=
  congrArg (namexStart path >>= ·) (funext fun ip => namexLoop_eq _ path le_rfl ip)

end Xv6.Fs
