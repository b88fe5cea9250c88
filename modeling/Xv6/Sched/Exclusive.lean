import Xv6.Sched.Inv

/-!
# Exclusivity

The invariant holds in every run, so that with `ptable.lock` free a process is running exactly when it is
the process of one processor.
-/

namespace Xv6.Sched.State

open Ptable (Slot ProcState)
open Ptable.State (Effect)

variable {n : Nat} {s s' : State n} {c : Fin n}

/-- `mysleep` is not passed `&ptable.lock`. -/
def Checked (_ : State n) (a : Fin n × What) : Prop :=
  ∀ chan, a.2 ≠ .call (.mysleep chan .ptableLock)

/-- What a step does to the table: nothing, a step of `fork` or `thread_create` outside the lock, a
section under the lock, or the scheduler's choice. -/
inductive TableStep (s s' : State n) (c : Fin n) : Prop
  | same (h : s'.table = s.table)
  | making (p : Slot) (heffect : Effect p s.table s'.table)
      (hstate : ∀ q, (s'.table.proc q).state = (s.table.proc q).state ∨ (s.table.proc q).state = .embryo)
  | locked (p : Slot) (hlock : s.lock = some c) (heffect : Effect p s.table s'.table)
      (hcurrent : ∀ r, (s.cpu c).proc = some r → (s.table.proc r).state = .running)
  | run (p : Slot) (hp : (s.table.proc p).state = .runnable)
      (h : s'.table = s.table.setProc p { s.table.proc p with state := .running })

theorem inv_init : (State.init : State n).Inv where
  table := .init
  lock c := ⟨fun h => h.elim, nofun⟩
  ok c := rfl
  unique := nofun
  current {p} h := by
    change (if p = Ptable.initproc then ProcState.runnable else .unused) = .running at h
    split_ifs at h
  stack {p q k} hp hq := by
    simp only [State.init] at hp hq
    split_ifs at hp hq with h h'
    rw [h, h']

namespace Inv

/-- A step that leaves the table and the lock alone. -/
theorem stay (hs : s.Inv) {ctx : Ctx} (hok : ({ s.cpu c with ctx := ctx } : Cpu).Ok s.table)
    (hhold : ctx.Holds ↔ s.lock = some c) : (s.goto c ctx).Inv ∧ TableStep s (s.goto c ctx) c :=
  ⟨hs.goto hok hhold fun _ _ => .rfl, .same rfl⟩

theorem acquire (hs : s.Inv) {ctx : Ctx} (hstep : s.acquire c ctx = some s')
    (hok : ({ s.cpu c with ctx := ctx } : Cpu).Ok s.table) (hhold : ctx.Holds) :
    s'.Inv ∧ TableStep s s' c := by
  obtain ⟨hfree, ⟨⟩⟩ := Option.ite_none_right_eq_some.mp hstep
  refine ⟨hs.goto hok ⟨fun _ => rfl, fun _ => hhold⟩ fun c' hc => ?_, .same rfl⟩
  rw [hfree]
  exact ⟨nofun, fun h => absurd (Option.some.inj h).symm hc⟩

theorem release (hs : s.Inv) {ctx : Ctx} (hlock : s.lock = some c)
    (hok : ({ s.cpu c with ctx := ctx } : Cpu).Ok s.table) (hhold : ¬ ctx.Holds) :
    (s.release c ctx).Inv ∧ TableStep s (s.release c ctx) c := by
  refine ⟨hs.goto hok ⟨fun h => absurd h hhold, nofun⟩ fun c' hc => ?_, .same rfl⟩
  rw [hlock]
  exact ⟨fun h => absurd (Option.some.inj h).symm hc, nofun⟩

theorem drop_stack (hs : s.Inv) (gone : Option Slot) {p q : Slot} {i : Nat}
    (hp : dropStack s.kstack gone p = some i) (hq : dropStack s.kstack gone q = some i) : p = q := by
  cases gone with
  | none => exact hs.stack hp hq
  | some r =>
    simp only [dropStack, Function.update_apply] at hp hq
    split_ifs at hp hq
    exact hs.stack hp hq

theorem after (hs : s.Inv) {p : Slot} {t : Ptable.State} (gone : Option Slot)
    (hp : (s.cpu c).proc = some p ∧ (s.table.proc p).state = .running) (hlock : s.lock = some c)
    (htable : t.Inv) (heffect : Effect p s.table t) :
    (s.after c p t gone).Inv ∧ TableStep s (s.after c p t gone) c := by
  refine ⟨hs.move hp.1 htable heffect ?_ ?_ (fun c' _ => .rfl) (hs.drop_stack gone),
    .locked p hlock heffect fun r hr => Option.some.inj (hp.1.symm.trans hr) ▸ hp.2⟩
  · split_ifs with hrun
    · exact ⟨hp.1, hrun⟩
    · exact ⟨hp.1, hrun⟩
  · refine ⟨fun _ => hlock, fun _ => ?_⟩
    split_ifs <;> trivial

section

variable {p : Slot} (hs : s.Inv) (hctx : (s.cpu c).ctx = .proc p .run)
include hs hctx

theorem outside {a : Ptable.Act} {ok : Bool} {t : Ptable.State} {k : Slot → Option Nat}
    (ha : a = .kstack p ok ∨ a = .copy p ok) (ht : s.table.step a = some t)
    (hstack : ∀ {p q i}, k p = some i → k q = some i → p = q) :
    ({ s with table := t, kstack := k } : State n).Inv ∧
      TableStep s { s with table := t, kstack := k } c := by
  have hok := hs.ok c
  simp only [Cpu.Ok, hctx] at hok
  have hby : a.By p := by rcases ha with rfl | rfl <;> rfl
  have heffect := Ptable.State.effect_step hs.table hby ht
  have hstate := Ptable.State.making_state hs.table ha ht
  have hrun : (t.proc p).state = .running := by
    rw [(hstate p).resolve_right (by rw [hok.2]; decide), hok.2]
  have hrunning : ({ s.cpu c with ctx := .proc p .run } : Cpu).Ok t := ⟨hok.1, hrun⟩
  have hmove := hs.move (c := c) (l := s.lock) hok.1 (hs.table.step ht) heffect hrunning
    (hctx ▸ hs.lock c) (fun c' _ => .rfl) hstack
  rw [← hctx, Function.update_eq_self] at hmove
  exact ⟨hmove, .making p heffect hstate⟩

theorem call {op : Op} (hchecked : s.Checked (c, .call op))
    (hstep : s.call c p op = some s') : s'.Inv ∧ TableStep s s' c := by
  have hok := hs.ok c
  simp only [Cpu.Ok, hctx] at hok
  have hfree : s.lock ≠ some c := fun h => by
    have hholds := (hs.lock c).mpr h
    rw [hctx] at hholds
    exact hholds
  unfold State.call at hstep
  split at hstep
  · cases hstep
  · cases hstep
    exact hs.stay ⟨hok.1, hok.2⟩ ⟨fun h => h.elim, fun h => absurd h hfree⟩
  · exact absurd rfl (hchecked _)
  · exact hs.acquire hstep ⟨hok.1, hok.2⟩ trivial

theorem allocStack {page : Option Nat} (hstep : s.allocStack p page = some s') :
    s'.Inv ∧ TableStep s s' c := by
  unfold State.allocStack at hstep
  split at hstep
  · rename_i np t hnp ht
    obtain ⟨hfresh, ⟨⟩⟩ := Option.ite_none_right_eq_some.mp hstep
    refine hs.outside hctx (.inl rfl) ht fun {a b i} ha hb => ?_
    simp only [Function.update_apply] at ha hb
    split_ifs at ha hb with h h' h'
    · rw [h, h']
    · exact absurd hb (hfresh i ha b)
    · exact absurd ha (hfresh i hb a)
    · exact hs.stack ha hb
  · cases hstep

theorem copyProc {ok : Bool} (hstep : s.copyProc p ok = some s') : s'.Inv ∧ TableStep s s' c := by
  unfold State.copyProc at hstep
  split at hstep
  · rename_i call np t hpc ht
    cases hstep
    refine hs.outside hctx (.inr rfl) ht fun {a b i} ha hb => ?_
    split_ifs at ha hb
    · exact hs.drop_stack (some np) ha hb
    · exact hs.stack ha hb
  · cases hstep

end

theorem by_act (op : Op) (p : Slot) : (op.act p).By p := by
  cases op <;> first | rfl | trivial

section

variable (hs : s.Inv)
include hs

theorem stepProc {p : Slot} {pc : ProcPc} {what : What} (hctx : (s.cpu c).ctx = .proc p pc)
    (hchecked : s.Checked (c, what)) (hstep : s.stepProc c p pc what = some s') :
    s'.Inv ∧ TableStep s s' c := by
  have hok := hs.ok c
  simp only [Cpu.Ok, hctx] at hok
  have hlock : pc.Holds → s.lock = some c := fun h => (hs.lock c).mp (by rw [hctx]; exact h)
  unfold State.stepProc at hstep
  split at hstep
  · exact hs.call hctx hchecked hstep
  · exact hs.allocStack hctx hstep
  · exact hs.copyProc hctx hstep
  · rename_i op
    obtain ⟨t, ht, rfl⟩ := Option.map_eq_some_iff.mp hstep
    exact hs.after _ hok (hlock trivial) (hs.table.step ht)
      (Ptable.State.effect_step hs.table (by_act op p) ht)
  · cases hstep
    exact hs.stay ⟨hok.1, hok.2⟩ ⟨fun _ => hlock trivial, fun _ => trivial⟩
  · cases hstep
    exact hs.after _ hok (hlock trivial) (hs.table.moves (Ptable.State.Did.goOn hok.2).moves)
      (Ptable.State.effect_goOn hok.2)
  · cases hstep
    exact hs.release (hlock trivial) ⟨hok.1, hok.2⟩ id
  · cases hstep

theorem keep {x : Cpu} {t : Ptable.State} (hlock : s.lock = some c) (htable : t.Inv)
    (hother : ∀ c', c' ≠ c → (s.cpu c').Ok t) (hok : x.Ok t) (hhold : x.ctx.Holds)
    (hunique : ∀ c' p, c' ≠ c → x.proc = some p → (s.cpu c').proc ≠ some p)
    (hcurrent : ∀ p, (t.proc p).state = .running →
      x.proc = some p ∨ ∃ c', c' ≠ c ∧ (s.cpu c').proc = some p) :
    ({ s with table := t, cpu := Function.update s.cpu c x } : State n).Inv :=
  hs.update htable hother hok ⟨fun _ => hlock, fun _ => hhold⟩ (fun _ _ => .rfl) hunique hcurrent hs.stack

theorem current_ne {p q : Slot} (hq : (s.table.proc q).state = .running)
    (hc : (s.cpu c).proc = none ∨ (s.cpu c).proc = some p ∧ p ≠ q) :
    ∃ c', c' ≠ c ∧ (s.cpu c').proc = some q := by
  obtain ⟨c', hc'⟩ := hs.current hq
  refine ⟨c', ?_, hc'⟩
  rintro rfl
  rcases hc with h | ⟨h, hne⟩
  · rw [h] at hc'
    cases hc'
  · rw [h] at hc'
    exact hne (Option.some.inj hc')

theorem intr {chan : Option Ptable.Chan} (hlock : s.lock = some c) (hcurrent : (s.cpu c).proc = none) :
    ({ s with table := s.table.wakeup1 chan }.goto c (.sched .intrRelease)).Inv := by
  have hwoken := Ptable.State.woken_wakeup1 (s := s.table) chan
  refine hs.keep hlock (hs.table.moves (Ptable.State.Quiets.wakeup1 chan).moves) (fun c' _ => ?_) hcurrent
    trivial (fun c' p _ hp => ?_) (fun q hq => ?_)
  · refine ok_of_states (hs.ok c') fun r _ => ?_
    rcases hwoken r with h | ⟨h, h'⟩
    · rw [h]
      exact ⟨id, id, id⟩
    · rw [h, h']
      decide
  · rw [show (s.cpu c).proc = some p from hp] at hcurrent
    cases hcurrent
  · have hrun := running_of_effect (hwoken.effect q) hq
    exact .inr (hs.current_ne (p := q) hrun (.inl hcurrent))

theorem choose {p : Slot} (hlock : s.lock = some c) (hcurrent : (s.cpu c).proc = none)
    (hp : (s.table.proc p).state = .runnable) :
    ((s.setCurrent c (some p)).goto c (.sched (.chosen p))).Inv := by
  have hnobody : ∀ c', c' ≠ c → (s.cpu c').proc ≠ some p := by
    intro c' hc h
    have hrun := hs.running_of_not_holds h fun h' => hc (Option.some.inj (h'.symm.trans hlock))
    rw [hp] at hrun
    cases hrun
  have hkeep := hs.keep (x := { proc := some p, ctx := .sched (.chosen p) }) hlock hs.table
    (fun c' _ => hs.ok c') ⟨rfl, hp⟩ trivial (fun c' q hc hq => Option.some.inj hq ▸ hnobody c' hc)
    (fun q hq => .inr (hs.current_ne (p := q) hq (.inl hcurrent)))
  simpa only [setCurrent, State.goto, Function.update_self, Function.update_idem] using hkeep

theorem run {p : Slot} (hlock : s.lock = some c) (hcurrent : (s.cpu c).proc = some p)
    (hp : (s.table.proc p).state = .runnable) :
    ({ s with table := s.table.setProc p { s.table.proc p with state := .running } }.goto c
      (.sched (.ran p))).Inv := by
  refine hs.keep hlock (hs.table.quiet (.run p hp)) (fun c' hc => ?_) ⟨hcurrent, ?_⟩ trivial
    (fun c' q hc hq h => hc (hs.unique h hq)) (fun q hq => ?_)
  · refine ok_of_states (hs.ok c') fun r hr => ?_
    have hrp : r ≠ p := fun h => hc (hs.unique (h ▸ hr) hcurrent)
    rw [Ptable.State.setProc_of_ne hrp]
    exact ⟨id, id, id⟩
  · rw [Ptable.State.setProc_self]
  · by_cases hqp : q = p
    · exact .inl (hqp ▸ hcurrent)
    · rw [Ptable.State.setProc_of_ne hqp] at hq
      exact .inr (hs.current_ne hq (.inr ⟨hcurrent, fun h => hqp h.symm⟩))

theorem back {p : Slot} (hlock : s.lock = some c) (hcurrent : (s.cpu c).proc = some p)
    (hp : (s.table.proc p).state ≠ .running) (i : Nat) :
    ((s.setCurrent c none).goto c (.sched (.scan i))).Inv := by
  have hkeep := hs.keep (x := { proc := none, ctx := .sched (.scan i) }) hlock hs.table
    (fun c' _ => hs.ok c') rfl trivial (fun c' q _ hq => nomatch hq)
    (fun q hq => .inr (hs.current_ne hq (.inr ⟨hcurrent, fun h => hp (h ▸ hq)⟩)))
  simpa only [setCurrent, State.goto, Function.update_self, Function.update_idem] using hkeep

theorem stepSched {pc : SchedPc} {what : What} (hctx : (s.cpu c).ctx = .sched pc)
    (hstep : s.stepSched c pc what = some s') : s'.Inv ∧ TableStep s s' c := by
  have hok := hs.ok c
  simp only [Cpu.Ok, hctx] at hok
  have hlock : pc.Holds → s.lock = some c := fun h => (hs.lock c).mp (by rw [hctx]; exact h)
  unfold State.stepSched at hstep
  split at hstep
  · exact hs.acquire hstep hok trivial
  · exact hs.acquire hstep hok trivial
  · rename_i chan
    cases hstep
    refine ⟨hs.intr (hlock trivial) hok, .locked Ptable.initproc (hlock trivial)
      ((Ptable.State.woken_wakeup1 chan).effect Ptable.initproc) fun r hr => ?_⟩
    rw [show (s.cpu c).proc = none from hok] at hr
    cases hr
  · cases hstep
    exact hs.release (hlock trivial) hok id
  · split_ifs at hstep with hi hrunnable <;> cases hstep
    · exact ⟨hs.choose (hlock trivial) hok hrunnable, .same rfl⟩
    · exact hs.stay hok ⟨fun _ => hlock trivial, fun _ => trivial⟩
    · exact hs.release (hlock trivial) hok id
  · rename_i p
    cases hstep
    exact ⟨hs.run (hlock trivial) hok.1 hok.2, .run p hok.2 rfl⟩
  · cases hstep
    exact hs.stay ⟨hok.1, hok.2⟩ ⟨fun _ => hlock trivial, fun _ => trivial⟩
  · rename_i p
    cases hstep
    exact ⟨hs.back (hlock trivial) hok.1 hok.2 (p + 1), .same rfl⟩
  · cases hstep

theorem step {a : Fin n × What} (hchecked : s.Checked a) (hstep : s.step a = some s') :
    s'.Inv ∧ TableStep s s' a.1 := by
  unfold State.step at hstep
  split at hstep
  · rename_i p pc hctx
    exact hs.stepProc hctx hchecked hstep
  · rename_i pc hctx
    exact hs.stepSched hctx hstep

end

end Inv

theorem inv_of_reaches (hrun : Reaches step Checked State.init s) : s.Inv :=
  hrun.invariant (I := State.Inv) inv_init fun _ _ _ hs hchecked hstep => (hs.step hchecked hstep).1

theorem arrow_of_effect {t t' : Ptable.State} {p : Slot} (heffect : Effect p t t') (q : Slot) :
    (t'.proc q).state = (t.proc q).state ∨ Ptable.Arrow (t.proc q).state (t'.proc q).state := by
  rcases heffect q with h | h | ⟨-, h⟩
  · exact .inl h
  · exact .inr h.arrow
  · exact .inr h.arrow

theorem arrow_step (htable : TableStep s s' c) (q : Slot) :
    (s'.table.proc q).state = (s.table.proc q).state ∨
      Ptable.Arrow (s.table.proc q).state (s'.table.proc q).state := by
  cases htable with
  | same h => exact .inl (by rw [h])
  | making p heffect hstate | locked p hlock heffect hcurrent => exact arrow_of_effect heffect q
  | run p hp h =>
    rw [h]
    by_cases hq : q = p
    · subst hq
      rw [Ptable.State.setProc_self, hp]
      exact .inr .run
    · rw [Ptable.State.setProc_of_ne hq]
      exact .inl rfl

theorem current_ne_reaped (hs : s.Inv) (htable : TableStep s s' c) {q r : Slot} {c' : Fin n}
    (hq : (s.table.proc q).state = .zombie) (hafter : (s'.table.proc q).state = .unused)
    (hr : (s.cpu c').proc = some r) : r ≠ q := by
  rintro rfl
  cases htable with
  | same h =>
    rw [h, hq] at hafter
    cases hafter
  | making p heffect hstate =>
    rcases hstate r with h | h
    · rw [h, hq] at hafter
      cases hafter
    · rw [hq] at h
      cases h
  | locked p hlock heffect hcurrent =>
    by_cases hc : c' = c
    · subst hc
      have hrun := hcurrent r hr
      rw [hq] at hrun
      cases hrun
    · have hrun := hs.running_of_not_holds hr fun h => hc (Option.some.inj (h.symm.trans hlock))
      rw [hq] at hrun
      cases hrun
  | run p hp h =>
    rw [h] at hafter
    by_cases hrp : r = p
    · subst hrp
      rw [Ptable.State.setProc_self] at hafter
      cases hafter
    · rw [Ptable.State.setProc_of_ne hrp, hq] at hafter
      cases hafter

instance (s : State n) (a : Fin n × What) : Decidable (s.Checked a) :=
  match a with
  | (_, .call (.mysleep chan .ptableLock)) => .isFalse fun h => h chan rfl
  | (_, .call (.mysleep _ .null)) | (_, .call (.mysleep _ .mutex)) | (_, .call .yield)
  | (_, .call (.alloc _)) | (_, .call .ready) | (_, .call .exit) | (_, .call .threadExit)
  | (_, .call .wait) | (_, .call .threadJoin) | (_, .call (.kill _)) | (_, .call (.sleep _))
  | (_, .call (.wakeup _)) | (_, .call (.mywakeup _)) | (_, .kstack _) | (_, .copy _)
  | (_, .intr _) | (_, .next) => .isTrue nofun

def steps (c : Fin n) (k : Nat) : List (Fin n × What) := List.replicate k (c, .next)

end Xv6.Sched.State
