import Xv6.Vm.Isolation

/-!
# The life of an address space

A directory is made by `setupkvm`, grown, shrunk and guarded any number of times, and given to
`freevm`. Any of the allocations on the way may fail. In the end the free pages are those from before,
and on the way no page was handed out or given back twice.
-/

namespace Xv6.Vm

open Pgdir

inductive Op where
  | alloc (newsz : Nat)
  | dealloc (newsz : Nat)
  | clear (uva : Nat)

/-- The size follows the result of the call, as in `growproc`: 0 leaves it as it was. -/
def Op.run (op : Op) (sz : Nat) (d : Pgdir) (k : Kmem) : Except Panic (Nat × Pgdir × Kmem) :=
  match op with
  | .alloc newsz => do
      let (r, d, k) ← allocuvm d sz newsz k
      .ok (if r = 0 then sz else r, d, k)
  | .dealloc newsz => do
      let (r, d, k) ← deallocuvm d sz newsz k
      .ok (if r = 0 then sz else r, d, k)
  | .clear uva => do
      let d ← clearpteu d uva
      .ok (sz, d, k)

def runOps : List Op → Nat → Pgdir → Kmem → Except Panic (Nat × Pgdir × Kmem)
  | [], sz, d, k => .ok (sz, d, k)
  | op :: rest, sz, d, k => do
      let (sz, d, k) ← op.run sz d k
      runOps rest sz d k

/-- A call of `clearpteu` finds no page table, and panics. -/
def Stuck (ops : List Op) (sz : Nat) (d : Pgdir) (k : Kmem) : Prop :=
  ∃ before uva after sz' d' k', ops = before ++ .clear uva :: after ∧
    runOps before sz d k = .ok (sz', d', k') ∧ d'.walk uva = none

structure Sized (sz : Nat) (d : Pgdir) (k : Kmem) : Prop where
  small : sz < kernbase
  above : Above d (pages sz)
  zero : d.uses 0 + k.free 0 = 0

namespace Sized

variable {sz newsz : Nat} {d d' : Pgdir} {k k' : Kmem}

theorem of_keeps (h : Sized sz d k) (hkeep : Keeps d.uses k d'.uses k') (hsmall : newsz < kernbase)
    (habove : Above d' (pages newsz)) : Sized newsz d' k' :=
  ⟨hsmall, habove, (hkeep.count 0).trans h.zero⟩

theorem alloc (h : Sized sz d k) (newsz : Nat) : ∃ sz' d' k',
    (Op.alloc newsz).run sz d k = .ok (sz', d', k') ∧ Sized sz' d' k' ∧ Keeps d.uses k d'.uses k' := by
  have hle := Nat.le_of_lt h.small
  obtain ⟨⟨r, d', k'⟩, hrun, hspec, hkeep⟩ :=
    (allocuvm_keeps d k hle).returns (allocuvm_spec newsz k h.above hle) h.zero
  refine ⟨if r = 0 then sz else r, d', k', ?_, ?_, hkeep⟩
  · rw [Op.run, hrun]
    rfl
  obtain ⟨hlt, rfl, hgrown⟩ | ⟨rfl, hrestored⟩ := hspec
  · -- the result 0 can only be a size that was 0 before
    have hsize : (if max sz newsz = 0 then sz else max sz newsz) = max sz newsz := by
      split_ifs with hzero
      · omega
      · rfl
    have hmax : max sz newsz < kernbase := Nat.max_lt.mpr ⟨h.small, hlt⟩
    have hmono := pages_mono hmax.le (Nat.le_max_left sz newsz)
    rw [hsize]
    refine h.of_keeps hkeep hmax fun vpn hvpn hge => ?_
    rw [hgrown.old vpn (lt_npages hvpn) fun hin => not_le.mpr hin.2 hge]
    exact h.above vpn hvpn (hmono.trans hge)
  · rw [if_pos rfl]
    refine h.of_keeps hkeep h.small fun vpn hvpn hge => ?_
    rw [hrestored.entry vpn (lt_npages hvpn)]
    exact h.above vpn hvpn hge

theorem dealloc (h : Sized sz d k) (newsz : Nat) : ∃ sz' d' k',
    (Op.dealloc newsz).run sz d k = .ok (sz', d', k') ∧ Sized sz' d' k' ∧ Keeps d.uses k d'.uses k' := by
  by_cases hle : sz ≤ newsz
  · refine ⟨sz, d, k, ?_, h, .refl _ _⟩
    simp only [Op.run, deallocuvm, if_pos hle]
    change Except.ok (if sz = 0 then sz else sz, d, k) = _
    rw [ite_id]
  have hlt : newsz < sz := Nat.lt_of_not_le hle
  obtain ⟨⟨r, d', k'⟩, hrun, ⟨rfl, hclear⟩, hkeep⟩ :=
    (deallocuvm_keeps d k (Nat.le_of_lt h.small)).returns
      (deallocuvm_spec d k (Nat.le_of_lt h.small) hlt) h.zero
  dsimp only at hrun hclear
  have habove : Above d' (pages r) := by
    intro vpn hvpn hge
    rw [hclear.entry vpn (lt_npages hvpn)]
    split_ifs with hin
    · rfl
    · refine h.above vpn hvpn (Nat.le_of_not_lt fun hlow => hin ⟨hge, ?_⟩)
      exact (lt_pages (Nat.le_of_lt h.small)).mp hlow
  refine ⟨if r = 0 then sz else r, d', k', ?_, ?_, hkeep⟩
  · rw [Op.run, hrun]
    rfl
  · have hmono := pages_mono (Nat.le_of_lt h.small) hlt.le
    split_ifs with hzero
    · exact h.of_keeps hkeep h.small fun vpn hvpn hge => habove vpn hvpn (hmono.trans hge)
    · exact h.of_keeps hkeep (hlt.trans h.small) habove

theorem clear (h : Sized sz d k) (uva : Nat) : (d.walk uva = none) ∨ ∃ d',
    (Op.clear uva).run sz d k = .ok (sz, d', k) ∧ Sized sz d' k ∧ Keeps d.uses k d'.uses k := by
  cases hwalk : d.walk uva with
  | none => exact .inl rfl
  | some e =>
    have hclear : clearpteu d uva =
        .ok (d.setPte uva (e.map fun e => { e with perm := { e.perm with user := false } })) := by
      rw [clearpteu, hwalk]
    have huses := (clearpteu_uses d uva k).1 _ hclear
    have hkeep : Keeps d.uses k (d.setPte uva _).uses k := .of_eq huses
    refine .inr ⟨_, ?_, h.of_keeps hkeep h.small fun vpn hvpn hge => ?_, hkeep⟩
    · rw [Op.run, hclear]
      rfl
    · have habsent := h.above vpn hvpn hge
      rw [walk_page] at hwalk
      rw [setPte_page, entry_setPte (Nat.mod_lt _ (by decide)) hwalk (lt_npages hvpn)]
      split_ifs with heq
      · rw [entry, heq, hwalk] at habsent
        exact congrArg (Option.map _) habsent
      · exact habsent

theorem run (h : Sized sz d k) (op : Op) : (∃ uva, op = .clear uva ∧ d.walk uva = none) ∨
    ∃ sz' d' k', op.run sz d k = .ok (sz', d', k') ∧ Sized sz' d' k' ∧ Keeps d.uses k d'.uses k' := by
  cases op with
  | alloc newsz => exact .inr (h.alloc newsz)
  | dealloc newsz => exact .inr (h.dealloc newsz)
  | clear uva =>
    obtain hnone | ⟨d', hrun⟩ := h.clear uva
    · exact .inl ⟨uva, rfl, hnone⟩
    · exact .inr ⟨sz, d', k, hrun⟩

theorem runOps (h : Sized sz d k) (ops : List Op) : Stuck ops sz d k ∨
    ∃ sz' d' k', Vm.runOps ops sz d k = .ok (sz', d', k') ∧ Sized sz' d' k' ∧
      Keeps d.uses k d'.uses k' := by
  induction ops generalizing sz d k with
  | nil => exact .inr ⟨sz, d, k, rfl, h, .refl _ _⟩
  | cons op ops ih =>
    obtain ⟨uva, rfl, hnone⟩ | ⟨sz₁, d₁, k₁, hrun, h₁, hkeep⟩ := h.run op
    · exact .inl ⟨[], uva, ops, sz, d, k, rfl, rfl, hnone⟩
    have hcons : ∀ rest, Vm.runOps (op :: rest) sz d k = Vm.runOps rest sz₁ d₁ k₁ := by
      intro rest
      rw [Vm.runOps, hrun]
      rfl
    obtain ⟨before, uva, after, sz₂, d₂, k₂, rfl, hbefore, hnone⟩ | ⟨sz₂, d₂, k₂, hrest, h₂, hkeep₂⟩ :=
      ih h₁
    · exact .inl ⟨op :: before, uva, after, sz₂, d₂, k₂, rfl, (hcons before).trans hbefore, hnone⟩
    · exact .inr ⟨sz₂, d₂, k₂, (hcons ops).trans hrest, h₂, hkeep.trans hkeep₂⟩

end Sized

/-- **Every page comes back, once.** Whatever calls are made and whichever allocations fail, no page is
handed out or given back twice, and after `freevm`, or a failing `setupkvm`, the free pages are those
from before. -/
theorem lifecycle_gives_back (kmap : Kmap) {k : Kmem} (hnodup : k.freelist.Nodup)
    (hzero : 0 ∉ k.freelist) (hcalls : k.calls = []) (ops : List Op) :
    ∃ r k₁, setupkvm kmap k = .ok (r, k₁) ∧ Legal k₁.calls ∧ (r = none → k₁.freelist.Perm k.freelist) ∧
      ∀ d, r = some d → Stuck ops 0 d k₁ ∨
        ∃ sz d' k₂ k₃, runOps ops 0 d k₁ = .ok (sz, d', k₂) ∧ freevm d' k₂ = .ok k₃ ∧
          Legal k₃.calls ∧ k₃.freelist.Perm k.freelist := by
  have hbook := Book.start hnodup hcalls
  have hfree : (0 : Frame → Nat) 0 + k.free 0 = 0 := by
    rw [Pi.zero_apply, Nat.zero_add]
    exact k.free_eq_zero.mpr hzero
  obtain ⟨⟨r, k₁⟩, hsetup, hpages, hmake⟩ :=
    (setupkvm_keeps kmap k).returns (setupkvm_pages kmap k) hfree
  refine ⟨r, k₁, hsetup, (hmake.book 0 hbook).legal, ?_, ?_⟩
  · rintro rfl
    exact hmake.perm
  · rintro d rfl
    have hsized : Sized 0 d k₁ := by
      refine ⟨by decide, ?_, (hmake.count 0).trans hfree⟩
      rw [pages_eq (Nat.zero_le _)]
      exact (hpages d rfl).above
    refine (hsized.runOps ops).imp_right ?_
    rintro ⟨sz, d', k₂, hrun, hsized', hkeep⟩
    obtain ⟨k₃, hend, -, hgive⟩ := (freevm_keeps d' k₂).returns (freevm_spec d' k₂) hsized'.zero
    have hall : Keeps 0 k 0 k₃ := (hmake.trans hkeep).trans hgive
    exact ⟨sz, d', k₂, k₃, hrun, hend, (hall.book 0 hbook).legal, hall.perm⟩

/-- The allocation of the second page of the process fails, after that of its page table. -/
theorem lifecycle_gives_back_eightFree :
    ∃ r k₁, setupkvm Kmap.onePage { eightFree with fails := [false, false, false, false, true] } =
      .ok (r, k₁) ∧ Legal k₁.calls ∧ (r = none → k₁.freelist.Perm eightFree.freelist) ∧
      ∀ d, r = some d → Stuck [.alloc 5000, .dealloc 10, .clear 0] 0 d k₁ ∨
        ∃ sz d' k₂ k₃, runOps [.alloc 5000, .dealloc 10, .clear 0] 0 d k₁ = .ok (sz, d', k₂) ∧
          freevm d' k₂ = .ok k₃ ∧ Legal k₃.calls ∧ k₃.freelist.Perm eightFree.freelist :=
  lifecycle_gives_back .onePage (k := { eightFree with fails := [false, false, false, false, true] })
    (by decide) (by decide) rfl [.alloc 5000, .dealloc 10, .clear 0]

end Xv6.Vm
