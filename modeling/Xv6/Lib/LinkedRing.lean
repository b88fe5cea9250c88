import Mathlib.Data.List.Nodup
import Mathlib.Logic.Function.Basic

/-!
# Doubly linked rings

The `prev` and `next` fields of a set of nodes, changed one assignment at a time. `Ring` says that they
form one ring of a head and the nodes of a list; a node can be put in after the head and taken out, and
a loop that follows the links meets the nodes in the order of the list.
-/

namespace Xv6

open Function (update update_self update_of_ne)

structure Links (α : Type) where
  next : α → α
  prev : α → α

namespace Links

variable {α β : Type}

def Path (k : Links α) : α → List α → α → Prop
  | a, [], b => k.next a = b ∧ k.prev b = a
  | a, x :: l, b => (k.next a = x ∧ k.prev x = a) ∧ k.Path x l b

structure Ring (k : Links α) (h : α) (l : List α) : Prop where
  path : k.Path h l h
  nodup : (h :: l).Nodup

variable {k k' : Links α} {a b c h x : α} {l l₁ l₂ : List α}

theorem Path.frame (hpath : k.Path a l b) (hnext : ∀ x ∈ a :: l, k'.next x = k.next x)
    (hprev : ∀ x ∈ b :: l, k'.prev x = k.prev x) : k'.Path a l b := by
  induction l generalizing a with
  | nil =>
    obtain ⟨hn, hp⟩ := hpath
    exact ⟨(hnext a List.mem_cons_self).trans hn, (hprev b List.mem_cons_self).trans hp⟩
  | cons x l ih =>
    obtain ⟨⟨hn, hp⟩, hrest⟩ := hpath
    have hx : x ∈ b :: x :: l := List.mem_cons_of_mem b List.mem_cons_self
    refine ⟨⟨(hnext a List.mem_cons_self).trans hn, (hprev x hx).trans hp⟩, ?_⟩
    apply ih hrest
    · intro y hy
      exact hnext y (List.mem_cons_of_mem a hy)
    · intro y hy
      apply hprev
      obtain rfl | hy := List.mem_cons.mp hy
      · exact List.mem_cons_self
      · exact List.mem_cons_of_mem b (List.mem_cons_of_mem x hy)

theorem path_append : k.Path a (l₁ ++ x :: l₂) b ↔ k.Path a l₁ x ∧ k.Path x l₂ b := by
  induction l₁ generalizing a with
  | nil => exact Iff.rfl
  | cons y l₁ ih =>
    change _ ∧ k.Path y (l₁ ++ x :: l₂) b ↔ (_ ∧ k.Path y l₁ x) ∧ k.Path x l₂ b
    rw [ih]
    exact and_assoc.symm

theorem Path.prev_mem (hpath : k.Path a l b) : k.prev b ∈ a :: l := by
  induction l generalizing a with
  | nil =>
    rw [hpath.2]
    exact List.mem_cons_self
  | cons x l ih => exact List.mem_cons_of_mem a (ih hpath.2)

theorem Path.reverse (hpath : k.Path a l b) : Path ⟨k.prev, k.next⟩ b l.reverse a := by
  induction l generalizing a with
  | nil => exact hpath.symm
  | cons x l ih =>
    rw [List.reverse_cons]
    exact path_append.mpr ⟨ih hpath.2, hpath.1.symm⟩

/-! ### Loops over the ring -/

/-- `for (b = start; b != h; b = step(b))`, up to the first node for which `f` has an answer. `none` when
the fuel runs out. -/
def findFrom [DecidableEq α] (step : α → α) (h : α) (f : α → Option β) : Nat → α → Option (Option β)
  | 0, _ => none
  | fuel + 1, b =>
    if b = h then some none
    else
      match f b with
      | some y => some (some y)
      | none => findFrom step h f fuel (step b)

theorem Path.findFrom_next [DecidableEq α] (hpath : k.Path a l h) (hh : h ∉ l) (f : α → Option β) :
    findFrom k.next h f (l.length + 1) (k.next a) = some (l.findSome? f) := by
  induction l generalizing a with
  | nil =>
    rw [hpath.1]
    exact if_pos rfl
  | cons x l ih =>
    obtain ⟨⟨hn, -⟩, hrest⟩ := hpath
    have hne : x ≠ h := fun heq => hh (heq ▸ List.mem_cons_self)
    rw [hn, List.length_cons, findFrom, if_neg hne, List.findSome?_cons]
    cases hf : f x with
    | some y => rfl
    | none => exact ih hrest fun hmem => hh (List.mem_cons_of_mem x hmem)

theorem Ring.findFrom_next [DecidableEq α] (hring : k.Ring h l) (f : α → Option β) :
    findFrom k.next h f (l.length + 1) (k.next h) = some (l.findSome? f) :=
  hring.path.findFrom_next (List.nodup_cons.mp hring.nodup).1 f

theorem Ring.findFrom_prev [DecidableEq α] (hring : k.Ring h l) (f : α → Option β) :
    findFrom k.prev h f (l.length + 1) (k.prev h) = some (l.reverse.findSome? f) := by
  have hh : h ∉ l.reverse := fun hmem =>
    (List.nodup_cons.mp hring.nodup).1 (List.mem_reverse.mp hmem)
  have hfind := hring.path.reverse.findFrom_next hh f
  rwa [List.length_reverse] at hfind

/-! ### Surgery -/

variable [DecidableEq α]

def setNext (k : Links α) (a b : α) : Links α := { k with next := update k.next a b }

def setPrev (k : Links α) (a b : α) : Links α := { k with prev := update k.prev a b }

@[simp] theorem next_setNext (a b : α) : (k.setNext a b).next = update k.next a b := rfl
@[simp] theorem prev_setNext (a b : α) : (k.setNext a b).prev = k.prev := rfl
@[simp] theorem prev_setPrev (a b : α) : (k.setPrev a b).prev = update k.prev a b := rfl

/-- `b->next = h->next; b->prev = h; h->next->prev = b; h->next = b`. -/
def insertAfter (k : Links α) (h b : α) : Links α :=
  let k := k.setNext b (k.next h)
  let k := k.setPrev b h
  let k := k.setPrev (k.next h) b
  k.setNext h b

/-- `b->next->prev = b->prev; b->prev->next = b->next`. -/
def unlink (k : Links α) (b : α) : Links α :=
  let k := k.setPrev (k.next b) (k.prev b)
  k.setNext (k.prev b) (k.next b)

theorem ring_alone (k : Links α) (h : α) : ((k.setPrev h h).setNext h h).Ring h [] := by
  refine ⟨⟨?_, ?_⟩, List.nodup_singleton h⟩
  · rw [next_setNext, update_self]
  · rw [prev_setNext, prev_setPrev, update_self]

theorem Ring.insertAfter (hring : k.Ring h l) (hb : b ∉ h :: l) : (k.insertAfter h b).Ring h (b :: l) := by
  obtain ⟨hpath, hnodup⟩ := hring
  have hbh : b ≠ h := fun heq => hb (heq ▸ List.mem_cons_self)
  have hbl : b ∉ l := fun hmem => hb (List.mem_cons_of_mem h hmem)
  have hhl : h ∉ l := (List.nodup_cons.mp hnodup).1
  have hnodup' : (h :: b :: l).Nodup :=
    List.nodup_cons.mpr ⟨by
      intro hmem
      obtain heq | hmem := List.mem_cons.mp hmem
      · exact hbh heq.symm
      · exact hhl hmem, List.nodup_cons.mpr ⟨hbl, (List.nodup_cons.mp hnodup).2⟩⟩
  refine ⟨?_, hnodup'⟩
  have hhead : (k.setNext b (k.next h)).next h = k.next h := update_of_ne hbh.symm _ k.next
  -- the links after the four assignments
  have hnext : (k.insertAfter h b).next = update (update k.next b (k.next h)) h b := rfl
  have hprev : (k.insertAfter h b).prev = update (update k.prev b h) (k.next h) b := by
    change update (update k.prev b h) ((k.setNext b (k.next h)).next h) b = _
    rw [hhead]
  have hnextb : (k.insertAfter h b).next b = k.next h := by
    rw [hnext, update_of_ne hbh, update_self]
  have hprevFirst : (k.insertAfter h b).prev (k.next h) = b := by rw [hprev, update_self]
  have hnexth : (k.insertAfter h b).next h = b := by rw [hnext, update_self]
  have hnextb' : b ≠ k.next h := by
    cases l with
    | nil =>
      rw [hpath.1]
      exact hbh
    | cons x l =>
      rw [hpath.1.1]
      exact fun heq => hbl (heq ▸ List.mem_cons_self)
  have hprevb : (k.insertAfter h b).prev b = h := by
    rw [hprev, update_of_ne hnextb', update_self]
  refine ⟨⟨hnexth, hprevb⟩, ?_⟩
  cases l with
  | nil =>
    have hfirst : k.next h = h := hpath.1
    rw [hfirst] at hnextb hprevFirst
    exact ⟨hnextb, hprevFirst⟩
  | cons x l =>
    obtain ⟨⟨hfirst, -⟩, hrest⟩ := hpath
    rw [hfirst] at hnextb hprevFirst
    refine ⟨⟨hnextb, hprevFirst⟩, ?_⟩
    have hxl : x ∉ l := (List.nodup_cons.mp (List.nodup_cons.mp hnodup).2).1
    apply hrest.frame
    · intro y hy
      have hyh : y ≠ h := fun heq => hhl (heq ▸ hy)
      have hyb : y ≠ b := fun heq => hbl (heq ▸ hy)
      rw [hnext, update_of_ne hyh, update_of_ne hyb]
    · intro y hy
      have hyx : y ≠ x := by
        intro heq
        obtain hyh | hyl := List.mem_cons.mp hy
        · exact hhl (hyh ▸ heq ▸ List.mem_cons_self)
        · exact hxl (heq ▸ hyl)
      have hyb : y ≠ b := by
        intro heq
        obtain hyh | hyl := List.mem_cons.mp hy
        · exact hbh (heq.symm.trans hyh)
        · exact hbl (heq ▸ List.mem_cons_of_mem x hyl)
      rw [hprev, hfirst, update_of_ne hyx, update_of_ne hyb]

theorem Path.redirect (hpath : k.Path a l b) (hnodup : (a :: l).Nodup)
    (hnext : ∀ x ∈ a :: l, k'.next x = if x = k.prev b then c else k.next x)
    (hprev : ∀ x ∈ l, k'.prev x = k.prev x) (hlast : k'.prev c = k.prev b) : k'.Path a l c := by
  induction l generalizing a with
  | nil =>
    have ha : a = k.prev b := hpath.2.symm
    refine ⟨?_, hlast.trans hpath.2⟩
    rw [hnext a List.mem_cons_self, if_pos ha]
  | cons x l ih =>
    obtain ⟨⟨hn, hp⟩, hrest⟩ := hpath
    have ha : a ≠ k.prev b := by
      intro heq
      exact (List.nodup_cons.mp hnodup).1 (heq ▸ hrest.prev_mem)
    refine ⟨⟨?_, (hprev x List.mem_cons_self).trans hp⟩, ?_⟩
    · rw [hnext a List.mem_cons_self, if_neg ha, hn]
    · apply ih hrest (List.nodup_cons.mp hnodup).2
      · intro y hy
        exact hnext y (List.mem_cons_of_mem a hy)
      · intro y hy
        exact hprev y (List.mem_cons_of_mem x hy)

theorem Ring.unlink (hring : k.Ring h (l₁ ++ b :: l₂)) : (k.unlink b).Ring h (l₁ ++ l₂) := by
  obtain ⟨hpath, hnodup⟩ := hring
  obtain ⟨hfront, hback⟩ := path_append.mp hpath
  have hperm : (h :: (l₁ ++ b :: l₂)).Perm (b :: h :: (l₁ ++ l₂)) := by
    refine (List.Perm.cons h List.perm_middle).trans (List.Perm.swap b h _)
  have hnodup' := hperm.nodup_iff.mp hnodup
  obtain ⟨hb, hrest⟩ := List.nodup_cons.mp hnodup'
  have hbh : b ≠ h := fun heq => hb (heq ▸ List.mem_cons_self)
  have hb₁ : b ∉ l₁ := fun hmem => hb (List.mem_cons_of_mem h (List.mem_append_left l₂ hmem))
  have hb₂ : b ∉ l₂ := fun hmem => hb (List.mem_cons_of_mem h (List.mem_append_right l₁ hmem))
  have hh₁ : h ∉ l₁ := fun hmem =>
    (List.nodup_cons.mp hrest).1 (List.mem_append_left l₂ hmem)
  have hh₂ : h ∉ l₂ := fun hmem =>
    (List.nodup_cons.mp hrest).1 (List.mem_append_right l₁ hmem)
  have hdisj : ∀ y ∈ l₁, y ∉ l₂ := fun y hy₁ hy₂ =>
    (List.nodup_append.mp (List.nodup_cons.mp hrest).2).2.2 y hy₁ y hy₂ rfl
  refine ⟨?_, hrest⟩
  have hbnext : b ≠ k.next b := by
    cases l₂ with
    | nil =>
      rw [hback.1]
      exact hbh
    | cons x l₂ =>
      rw [hback.1.1]
      exact fun heq => hb₂ (heq ▸ List.mem_cons_self)
  have hprev : (k.unlink b).prev = update k.prev (k.next b) (k.prev b) := rfl
  have hnext : (k.unlink b).next = update k.next (k.prev b) (k.next b) := by
    change update k.next (update k.prev (k.next b) (k.prev b) b) (k.next b) = _
    rw [update_of_ne hbnext]
  have hnext' : ∀ y, (k.unlink b).next y = if y = k.prev b then k.next b else k.next y := by
    intro y
    rw [hnext, Function.update_apply]
  have hnodup₁ : (h :: l₁).Nodup :=
    List.nodup_cons.mpr ⟨hh₁, (List.nodup_append.mp (List.nodup_cons.mp hrest).2).1⟩
  cases l₂ with
  | nil =>
    rw [List.append_nil]
    have hlast : k.next b = h := hback.1
    refine hfront.redirect hnodup₁ (fun y _ => ?_) (fun y hy => ?_) ?_
    · rw [hnext', hlast]
    · have hyh : y ≠ h := fun heq => hh₁ (heq ▸ hy)
      rw [hprev, hlast, update_of_ne hyh]
    · rw [hprev, hlast, update_self]
  | cons c l₂ =>
    obtain ⟨⟨hc, -⟩, hback⟩ := hback
    refine path_append.mpr ⟨?_, ?_⟩
    · refine hfront.redirect hnodup₁ (fun y _ => ?_) (fun y hy => ?_) ?_
      · rw [hnext', hc]
      · have hyc : y ≠ c := fun heq => hdisj y hy (heq ▸ List.mem_cons_self)
        rw [hprev, hc, update_of_ne hyc]
      · rw [hprev, hc, update_self]
    · apply hback.frame
      · intro y hy
        have hyp : y ≠ k.prev b := by
          intro heq
          have hmem : y ∈ h :: l₁ := heq ▸ hfront.prev_mem
          obtain hyh | hyl := List.mem_cons.mp hmem
          · exact hh₂ (hyh ▸ hy)
          · exact hdisj y hyl hy
        rw [hnext, update_of_ne hyp]
      · intro y hy
        have hyc : y ≠ c := by
          intro heq
          obtain hyh | hyl := List.mem_cons.mp hy
          · exact hh₂ (hyh ▸ heq ▸ List.mem_cons_self)
          · have hnodup₂ := (List.nodup_append.mp (List.nodup_cons.mp hrest).2).2.1
            exact (List.nodup_cons.mp hnodup₂).1 (heq ▸ hyl)
        rw [hprev, hc, update_of_ne hyc]

end Links

end Xv6
