import Xv6.Ptable.Moves
import Xv6.Lib.Forest
import Mathlib.Tactic.Common

/-!
# Families

What the table says about who made whom: which entries are free, being made, alive or dead, and their
parents. Most moves do not show here, and the others keep the forest in order.
-/

namespace Xv6.Ptable

inductive Kind where
  | free
  | embryo
  | live
  | zombie
  deriving DecidableEq

def ProcState.kind : ProcState → Kind
  | .unused => .free
  | .embryo => .embryo
  | .zombie => .zombie
  | .sleeping | .runnable | .running => .live

structure Member where
  kind : Kind
  parent : Option Slot
  isThread : Bool
  pid : Int
  serial : Nat
  made : Create
  creator : Nat

structure Family where
  member : Slot → Member
  nextpid : Int
  created : Nat
  reaped : List Reaped

namespace Family

variable (f : Family)

def set (q : Slot) (x : Member) : Family := { f with member := Function.update f.member q x }

def claim (p np : Slot) (call : Create) : Family :=
  { f with nextpid := int32 (f.nextpid + 1), created := f.created + 1 }.set np
    { f.member np with
      kind := .embryo
      pid := f.nextpid
      serial := f.created
      made := call
      creator := (f.member p).serial }

def collect (call : Reaper) (p q : Slot) : Family :=
  let log : Reaped :=
    { call := call
      caller := (f.member p).serial
      child := (f.member q).serial
      parent := (f.member q).parent.map fun r => (f.member r).serial
      made := (f.member q).made
      creator := (f.member q).creator }
  { f with reaped := log :: f.reaped }.set q { f.member q with kind := .free, parent := none, pid := 0 }

inductive Move : Family → Prop
  | claim (p np : Slot) (call : Create) (hp : (f.member p).kind = .live)
      (hnp : (f.member np).kind = .free) : Move (f.claim p np call)
  | giveUp (np : Slot) (hnp : (f.member np).kind = .embryo) (hparent : (f.member np).parent = none) :
      Move (f.set np { f.member np with kind := .free })
  | enter (p np : Slot) (isThread : Bool) (hp : (f.member p).kind = .live)
      (hnp : (f.member np).kind = .embryo) (hcreator : (f.member np).creator = (f.member p).serial)
      (hserial : (f.member p).serial < (f.member np).serial) :
      Move (f.set np { f.member np with parent := some p, isThread := isThread })
  | ready (np : Slot) (hnp : (f.member np).kind = .embryo) (hparent : (f.member np).parent ≠ none) :
      Move (f.set np { f.member np with kind := .live })
  | adopt (p q : Slot) (hparent : (f.member q).parent = some p) :
      Move (f.set q { f.member q with parent := some initproc })
  | exit (p : Slot) (hp : (f.member p).kind = .live) (hinit : p ≠ initproc)
      (hchildren : ∀ q, (f.member q).parent ≠ some p) : Move (f.set p { f.member p with kind := .zombie })
  | collect (call : Reaper) (p q : Slot) (hq : (f.member q).kind = .zombie)
      (hparent : (f.member q).parent = some p) : Move (f.collect call p q)

structure Tree : Prop where
  parent : ∀ {q r}, (f.member q).parent = some r →
    (f.member q).kind ≠ .free ∧ (f.member r).kind = .live ∧ (f.member r).serial < (f.member q).serial ∧
      ((f.member r).serial = (f.member q).creator ∨ r = initproc)
  root : (f.member initproc).kind = .live ∧ (f.member initproc).parent = none ∧
    (f.member initproc).serial = 0 ∧ (f.member initproc).made = .fork
  child : ∀ {q}, q ≠ initproc → (f.member q).kind = .live ∨ (f.member q).kind = .zombie →
    (f.member q).parent ≠ none
  /-- A child goes to its parent, which is the process that made it, or `init`. -/
  caller : ∀ e ∈ f.reaped, e.parent = some e.caller ∧ (e.caller = e.creator ∨ e.caller = 0)

/-- The serials tell processes apart, those that are gone included. -/
structure Serials : Prop where
  bound : ∀ q, (f.member q).serial < f.created
  distinct : ∀ {q r}, (f.member q).kind ≠ .free → (f.member r).kind ≠ .free →
    (f.member q).serial = (f.member r).serial → q = r
  nextpid : f.nextpid = int32 (f.created + 1)
  pid : ∀ {q}, (f.member q).kind ≠ .free → (f.member q).pid = int32 ((f.member q).serial + 1)
  gone : ∀ e ∈ f.reaped, e.child < f.created ∧
    ∀ q, (f.member q).kind ≠ .free → (f.member q).serial ≠ e.child
  once : (f.reaped.map Reaped.child).Nodup

variable {f}

@[simp] theorem set_self (q : Slot) (x : Member) : (f.set q x).member q = x :=
  Function.update_self ..

theorem set_of_ne {q r : Slot} (hne : r ≠ q) (x : Member) : (f.set q x).member r = f.member r :=
  Function.update_of_ne hne ..

namespace Serials

theorem set (hf : f.Serials) {q : Slot} {x : Member} (hserial : x.serial = (f.member q).serial)
    (hkind : x.kind ≠ .free → (f.member q).kind ≠ .free ∧ x.pid = (f.member q).pid) :
    (f.set q x).Serials := by
  have hbefore : ∀ r, ((f.set q x).member r).serial = (f.member r).serial ∧
      (((f.set q x).member r).kind ≠ .free → (f.member r).kind ≠ .free ∧
        ((f.set q x).member r).pid = (f.member r).pid) := by
    intro r
    by_cases hr : r = q
    · subst hr
      rw [set_self]
      exact ⟨hserial, hkind⟩
    · rw [set_of_ne hr]
      exact ⟨rfl, fun h => ⟨h, rfl⟩⟩
  exact
    { bound := fun r => (hbefore r).1 ▸ hf.bound r
      distinct := fun {a b} ha hb heq => hf.distinct ((hbefore a).2 ha).1 ((hbefore b).2 hb).1
        ((hbefore a).1 ▸ (hbefore b).1 ▸ heq)
      nextpid := hf.nextpid
      pid := fun {r} hr => by
        rw [((hbefore r).2 hr).2, (hbefore r).1]
        exact hf.pid ((hbefore r).2 hr).1
      gone := fun e he => ⟨(hf.gone e he).1, fun r hr => by
        rw [(hbefore r).1]
        exact (hf.gone e he).2 r ((hbefore r).2 hr).1⟩
      once := hf.once }

theorem claim (hf : f.Serials) (p np : Slot) (call : Create) : (f.claim p np call).Serials := by
  have hbefore : ∀ r, r ≠ np → (f.claim p np call).member r = f.member r :=
    fun r hr => set_of_ne hr _
  have hnew : ((f.claim p np call).member np).serial = f.created := by
    simp only [Family.claim, set_self]
  constructor
  · intro r
    change _ < f.created + 1
    by_cases hr : r = np
    · subst hr
      omega
    · rw [hbefore r hr]
      exact Nat.lt_succ_of_lt (hf.bound r)
  · intro q r hq hr heq
    have := hf.bound q
    have := hf.bound r
    by_cases hqn : q = np <;> by_cases hrn : r = np
    · rw [hqn, hrn]
    · rw [hqn, hnew, hbefore r hrn] at heq
      omega
    · rw [hrn, hnew, hbefore q hqn] at heq
      omega
    · rw [hbefore q hqn] at hq heq
      rw [hbefore r hrn] at hr heq
      exact hf.distinct hq hr heq
  · change int32 (f.nextpid + 1) = int32 ((f.created + 1 : Nat) + 1)
    rw [hf.nextpid]
    simp [int32]
  · intro q hq
    by_cases hqn : q = np
    · subst hqn
      simp only [Family.claim, set_self]
      exact hf.nextpid
    · rw [hbefore q hqn] at hq ⊢
      exact hf.pid hq
  · intro e he
    obtain ⟨hlt, hne⟩ := hf.gone e he
    refine ⟨Nat.lt_succ_of_lt hlt, fun q hq => ?_⟩
    by_cases hqn : q = np
    · subst hqn
      omega
    · rw [hbefore q hqn] at hq ⊢
      exact hne q hq
  · exact hf.once

theorem collect (hf : f.Serials) {q : Slot} (call : Reaper) (p : Slot)
    (hq : (f.member q).kind ≠ .free) : (f.collect call p q).Serials := by
  have hset : (f.set q { f.member q with kind := .free, parent := none, pid := 0 }).Serials :=
    hf.set rfl fun h => absurd rfl h
  refine ⟨hset.bound, hset.distinct, hset.nextpid, hset.pid, ?_, ?_⟩
  · intro e he
    rcases List.mem_cons.mp he with rfl | he
    · refine ⟨hf.bound q, fun r hr heq => ?_⟩
      by_cases hrq : r = q
      · subst hrq
        exact hr (by simp only [Family.collect, set_self])
      · have hmember : (f.collect call p q).member r = f.member r := set_of_ne hrq _
        rw [hmember] at hr heq
        exact hrq (hf.distinct hr hq heq)
    · exact hset.gone e he
  · refine List.nodup_cons.mpr ⟨fun hmem => ?_, hf.once⟩
    obtain ⟨e, he, heq⟩ := List.mem_map.mp hmem
    exact (hf.gone e he).2 q hq heq.symm

end Serials

namespace Tree

section

variable (hf : f.Tree)
include hf

variable {q np p : Slot}

theorem parent_of_free (hq : (f.member q).kind = .free) : (f.member q).parent = none := by
  by_contra h
  obtain ⟨r, hr⟩ := Option.ne_none_iff_exists'.mp h
  exact (hf.parent hr).1 hq

theorem childless (hq : (f.member q).kind ≠ .live) (r : Slot) : (f.member r).parent ≠ some q :=
  fun hr => hq (hf.parent hr).2.1

theorem ne_init (hq : (f.member q).kind ≠ .live) : q ≠ initproc := by
  rintro rfl
  exact hq hf.root.1

theorem set {x : Member} (hinit : q ≠ initproc)
    (hparent : ∀ r, x.parent = some r → x.kind ≠ .free ∧ (f.member r).kind = .live ∧
      r ≠ q ∧ (f.member r).serial < x.serial ∧ ((f.member r).serial = x.creator ∨ r = initproc))
    (hchildren : ∀ r, (f.member r).parent = some q → x.kind = .live ∧ x.serial = (f.member q).serial)
    (hchild : x.kind = .live ∨ x.kind = .zombie → x.parent ≠ none) : (f.set q x).Tree := by
  constructor
  · intro a r har
    by_cases ha : a = q
    · subst ha
      rw [set_self] at har ⊢
      obtain ⟨hkind, hlive, hne, hserial⟩ := hparent r har
      rw [set_of_ne hne]
      exact ⟨hkind, hlive, hserial⟩
    · rw [set_of_ne ha] at har ⊢
      by_cases hr : r = q
      · subst hr
        obtain ⟨hlive, hserial⟩ := hchildren a har
        obtain ⟨hkind, -, hrest⟩ := hf.parent har
        rw [set_self, hserial]
        exact ⟨hkind, hlive, hrest⟩
      · rw [set_of_ne hr]
        exact hf.parent har
  · rw [set_of_ne hinit.symm]
    exact hf.root
  · intro a ha hkind
    by_cases haq : a = q
    · subst haq
      rw [set_self] at hkind ⊢
      exact hchild hkind
    · rw [set_of_ne haq] at hkind ⊢
      exact hf.child ha hkind
  · exact hf.caller

theorem claim (p : Slot) (call : Create) (hnp : (f.member np).kind = .free) : (f.claim p np call).Tree := by
  have hf' : ({ f with nextpid := int32 (f.nextpid + 1), created := f.created + 1 } : Family).Tree :=
    ⟨hf.parent, hf.root, hf.child, hf.caller⟩
  have hlive : (f.member np).kind ≠ .live := by rw [hnp]; decide
  refine hf'.set (hf.ne_init hlive) (fun r hr => ?_) (fun r hr => absurd hr (hf.childless hlive r))
    (by rintro (h | h) <;> cases h)
  rw [show _ = none from hf.parent_of_free hnp] at hr
  cases hr

theorem giveUp (hnp : (f.member np).kind = .embryo) (hparent : (f.member np).parent = none) :
    (f.set np { f.member np with kind := .free }).Tree := by
  have hlive : (f.member np).kind ≠ .live := by rw [hnp]; decide
  refine hf.set (hf.ne_init hlive) (fun r hr => ?_) (fun r hr => absurd hr (hf.childless hlive r))
    (by rintro (h | h) <;> cases h)
  rw [show _ = none from hparent] at hr
  cases hr

theorem enter (isThread : Bool) (hp : (f.member p).kind = .live)
    (hnp : (f.member np).kind = .embryo) (hcreator : (f.member np).creator = (f.member p).serial)
    (hserial : (f.member p).serial < (f.member np).serial) :
    (f.set np { f.member np with parent := some p, isThread := isThread }).Tree := by
  have hlive : (f.member np).kind ≠ .live := by rw [hnp]; decide
  refine hf.set (hf.ne_init hlive) (fun r hr => ?_) (fun r hr => absurd hr (hf.childless hlive r))
    (fun _ => Option.some_ne_none p)
  cases hr
  refine ⟨?_, hp, ?_, hserial, .inl hcreator.symm⟩
  · rw [hnp]
    decide
  · rintro rfl
    exact hlive hp

theorem ready (hnp : (f.member np).kind = .embryo) (hparent : (f.member np).parent ≠ none) :
    (f.set np { f.member np with kind := .live }).Tree := by
  have hlive : (f.member np).kind ≠ .live := by rw [hnp]; decide
  refine hf.set (hf.ne_init hlive) (fun r hr => ?_) (fun r hr => absurd hr (hf.childless hlive r))
    (fun _ => hparent)
  obtain ⟨-, hr', hserial, hor⟩ := hf.parent hr
  refine ⟨nofun, hr', ?_, hserial, hor⟩
  rintro rfl
  exact hlive hr'

theorem adopt (hparent : (f.member q).parent = some p) :
    (f.set q { f.member q with parent := some initproc }).Tree := by
  obtain ⟨hfree, -, hserial, -⟩ := hf.parent hparent
  have hinit : q ≠ initproc := by
    rintro rfl
    rw [hf.root.2.1] at hparent
    cases hparent
  refine hf.set hinit (fun r hr => ?_) (fun r hr => ⟨(hf.parent hr).2.1, rfl⟩)
    (fun _ => Option.some_ne_none _)
  cases hr
  refine ⟨hfree, hf.root.1, hinit.symm, ?_, .inr rfl⟩
  rw [hf.root.2.2.1]
  exact Nat.zero_lt_of_lt hserial

theorem exit (hp : (f.member p).kind = .live) (hinit : p ≠ initproc)
    (hchildren : ∀ q, (f.member q).parent ≠ some p) :
    (f.set p { f.member p with kind := .zombie }).Tree := by
  refine hf.set hinit (fun r hr => ?_) (fun r hr => absurd hr (hchildren r))
    (fun _ => hf.child hinit (.inl hp))
  obtain ⟨-, hlive, hserial, hor⟩ := hf.parent hr
  refine ⟨nofun, hlive, ?_, hserial, hor⟩
  rintro rfl
  exact hchildren r hr

theorem collect (call : Reaper) (hq : (f.member q).kind = .zombie)
    (hparent : (f.member q).parent = some p) : (f.collect call p q).Tree := by
  have hlive : (f.member q).kind ≠ .live := by
    rw [hq]
    decide
  have hset : (f.set q { f.member q with kind := .free, parent := none, pid := 0 }).Tree :=
    hf.set (hf.ne_init hlive) (fun r hr => nomatch hr) (fun r hr => absurd hr (hf.childless hlive r))
      (by rintro (h | h) <;> cases h)
  refine ⟨hset.parent, hset.root, hset.child, fun e he => ?_⟩
  rcases List.mem_cons.mp he with rfl | he
  · refine ⟨by simp only [hparent, Option.map_some], ?_⟩
    obtain ⟨-, -, -, hcreator | rfl⟩ := hf.parent hparent
    · exact .inl hcreator
    · exact .inr hf.root.2.2.1
  · exact hf.caller e he

end

end Tree

variable (f) in
structure Inv : Prop where
  tree : f.Tree
  serials : f.Serials

theorem Inv.move {f' : Family} (hf : f.Inv) (hmove : f.Move f') : f'.Inv := by
  obtain ⟨htree, hserials⟩ := hf
  have hused : ∀ {q : Slot} {k : Kind}, (f.member q).kind = k → k ≠ .free →
      (f.member q).kind ≠ .free := fun h hk => h ▸ hk
  cases hmove with
  | claim p np call hp hnp => exact ⟨htree.claim p call hnp, hserials.claim p np call⟩
  | giveUp np hnp hparent =>
    exact ⟨htree.giveUp hnp hparent, hserials.set rfl fun h => absurd rfl h⟩
  | enter p np isThread hp hnp hcreator hserial =>
    exact ⟨htree.enter isThread hp hnp hcreator hserial, hserials.set rfl fun h => ⟨h, rfl⟩⟩
  | ready np hnp hparent =>
    exact ⟨htree.ready hnp hparent, hserials.set rfl fun _ => ⟨hused hnp (by decide), rfl⟩⟩
  | adopt p q hparent => exact ⟨htree.adopt hparent, hserials.set rfl fun h => ⟨h, rfl⟩⟩
  | exit p hp hinit hchildren =>
    exact ⟨htree.exit hp hinit hchildren, hserials.set rfl fun _ => ⟨hused hp (by decide), rfl⟩⟩
  | collect call p q hq hparent =>
    exact ⟨htree.collect call hq hparent, hserials.collect call p (hused hq (by decide))⟩

end Family

end Xv6.Ptable
