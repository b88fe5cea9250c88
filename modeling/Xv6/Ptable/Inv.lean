import Xv6.Ptable.Family

/-!
# The invariant of the table

The program counters agree with the states, the table is a family, and nobody sleeps in `wait` or
`thread_join` over a child it could reap.
-/

namespace Xv6.Ptable

def Proc.member (x : Proc) : Member where
  kind := x.state.kind
  parent := x.parent
  isThread := x.isThread
  pid := x.pid
  serial := x.serial
  made := x.made
  creator := x.creator

def Proc.Busy (x : Proc) : Prop := x.state = .running ∨ x.state = .runnable

namespace State

variable (s : State)

def family : Family where
  member q := (s.proc q).member
  nextpid := s.nextpid
  created := s.created
  reaped := s.reaped

structure Made (p np : Slot) (b : Create × Bool) : Prop where
  busy : (s.proc p).Busy
  embryo : (s.proc np).state = .embryo
  made : (s.proc np).made = b.1
  parent : (s.proc np).parent.isSome = b.2
  creator : (s.proc np).creator = (s.proc p).serial
  serial : (s.proc p).serial < (s.proc np).serial

structure Wf : Prop where
  made : ∀ {p np b}, (s.proc p).pc.creating = some (np, b) → s.Made p np b
  unique : ∀ {p q np b b'}, (s.proc p).pc.creating = some (np, b) →
    (s.proc q).pc.creating = some (np, b') → p = q
  sleeping : ∀ {p}, (s.proc p).state = .sleeping →
    (s.proc p).pc = .asleep ∨ ∃ call, (s.proc p).pc = .reap call ∧ (s.proc p).chan = some (.proc p)

def Blocked (call : Reaper) (p : Slot) : Prop :=
  (s.proc p).state = .sleeping ∧ (s.proc p).pc = .reap call

def Awake : Prop :=
  ∀ p q call, s.Blocked call p → s.Child call p q → (s.proc q).state ≠ .zombie

structure Inv : Prop where
  wf : s.Wf
  family : s.family.Inv
  awake : s.Awake

variable {s}

/-! ### The program counters -/

theorem Made.ne {p np : Slot} {b : Create × Bool} (hmade : s.Made p np b) : p ≠ np := by
  rintro rfl
  rcases hmade.busy with h | h <;> rw [hmade.embryo] at h <;> cases h

namespace Wf

theorem not_creating (hs : s.Wf) {q : Slot} (hq : (s.proc q).state ≠ .embryo) (p : Slot)
    (b : Create × Bool) : (s.proc p).pc.creating ≠ some (q, b) :=
  fun h => hq (hs.made h).embryo

theorem idle (hs : s.Wf) {p : Slot} (hp : ¬ (s.proc p).Busy) : (s.proc p).pc.Idle := by
  by_contra h
  obtain ⟨⟨np, b⟩, hpc⟩ := Option.ne_none_iff_exists'.mp h
  exact hp (hs.made hpc).busy

theorem idle_of_embryo (hs : s.Wf) {p : Slot} (hp : (s.proc p).state = .embryo) : (s.proc p).pc.Idle := by
  refine hs.idle fun h => ?_
  rcases h with h | h <;> rw [hp] at h <;> cases h

theorem setProc (hs : s.Wf) {q : Slot} {x : Proc}
    (hmade : ∀ p b, (s.proc p).pc.creating = some (q, b) → x.state = .embryo ∧
      x.made = b.1 ∧ x.parent.isSome = b.2 ∧ x.creator = (s.proc q).creator ∧ x.serial = (s.proc q).serial)
    (hcreating : ∀ np b, x.pc.creating = some (np, b) →
      x.Busy ∧ x.serial = (s.proc q).serial ∧ (s.proc q).pc.creating = some (np, b))
    (hsleep : x.state = .sleeping → x.pc = .asleep ∨ ∃ call, x.pc = .reap call ∧ x.chan = some (.proc q)) :
    (s.setProc q x).Wf := by
  have hbefore : ∀ {p np b}, ((s.setProc q x).proc p).pc.creating = some (np, b) →
      (s.proc p).pc.creating = some (np, b) ∧ ((s.setProc q x).proc p).Busy ∧
        ((s.setProc q x).proc p).serial = (s.proc p).serial := by
    intro p np b hp
    by_cases hpq : p = q
    · subst hpq
      rw [setProc_self] at hp ⊢
      obtain ⟨hbusy, hserial, hold⟩ := hcreating np b hp
      exact ⟨hold, hbusy, hserial⟩
    · rw [setProc_of_ne hpq] at hp ⊢
      exact ⟨hp, (hs.made hp).busy, rfl⟩
  constructor
  · intro p np b hp
    obtain ⟨hold, hbusy, hserial⟩ := hbefore hp
    have hm := hs.made hold
    refine ⟨hbusy, ?_, ?_, ?_, ?_, ?_⟩
    all_goals
      by_cases hnp : np = q
      · subst hnp
        obtain ⟨hstate, hcall, hparent, hcreator, hser⟩ := hmade p b hold
        simp only [setProc_self, hserial, hstate, hcall, hparent, hcreator, hser, hm.creator, hm.serial]
      · simp only [setProc_of_ne hnp, hserial, hm.embryo, hm.made, hm.parent, hm.creator, hm.serial]
  · intro p r np b b' hp hr
    exact hs.unique (hbefore hp).1 (hbefore hr).1
  · intro p hp
    by_cases hpq : p = q
    · subst hpq
      rw [setProc_self] at hp ⊢
      exact hsleep hp
    · rw [setProc_of_ne hpq] at hp ⊢
      exact hs.sleeping hp

theorem pair (hs : s.Wf) {p np : Slot} {x : Proc} {pc : Pc} (hstate : (s.proc p).state = .running)
    (hne : p ≠ np) (hother : ∀ q b, (s.proc q).pc.creating = some (np, b) → q = p)
    (hidle : x.pc.Idle) (hsleep : x.state ≠ .sleeping)
    (hpc : ∀ m b, pc.creating = some (m, b) → m = np ∧ x.state = .embryo ∧
      x.made = b.1 ∧ x.parent.isSome = b.2 ∧ x.creator = (s.proc p).serial ∧ (s.proc p).serial < x.serial) :
    ((s.setProc np x).setProc p { (s.setProc np x).proc p with pc := pc }).Wf := by
  rw [setProc_of_ne hne]
  have hp : ((s.setProc np x).setProc p { s.proc p with pc := pc }).proc p =
      { s.proc p with pc := pc } := setProc_self ..
  have hnp : ((s.setProc np x).setProc p { s.proc p with pc := pc }).proc np = x := by
    rw [setProc_of_ne hne.symm, setProc_self]
  have hrest : ∀ {r}, r ≠ p → r ≠ np →
      ((s.setProc np x).setProc p { s.proc p with pc := pc }).proc r = s.proc r :=
    fun h h' => by rw [setProc_of_ne h, setProc_of_ne h']
  generalize (s.setProc np x).setProc p { s.proc p with pc := pc } = t at hp hnp hrest
  -- A claim is that of `p` on `np`, or an old one of another process on another entry.
  have hclaim : ∀ {a m b}, (t.proc a).pc.creating = some (m, b) →
      (a = p ∧ m = np ∧ pc.creating = some (np, b)) ∨
        (a ≠ p ∧ m ≠ np ∧ t.proc a = s.proc a ∧ t.proc m = s.proc m) := by
    intro a m b ha
    by_cases hap : a = p
    · rw [hap, hp] at ha
      obtain ⟨rfl, -⟩ := hpc m b ha
      exact .inl ⟨hap, rfl, ha⟩
    by_cases hanp : a = np
    · rw [hanp, hnp, hidle] at ha
      cases ha
    · rw [hrest hap hanp] at ha
      have hm : m ≠ np := fun h => hap (hother a b (h ▸ ha))
      have hmp : m ≠ p := by
        rintro rfl
        exact hs.not_creating (by rw [hstate]; decide) a b ha
      exact .inr ⟨hap, hm, hrest hap hanp, hrest hmp hm⟩
  constructor
  · intro a m b ha
    rcases hclaim ha with ⟨rfl, rfl, hcreating⟩ | ⟨hap, -, hsame, hsame'⟩
    · obtain ⟨-, hembryo, hcall, hparent, hcreator, hserial⟩ := hpc m b hcreating
      refine ⟨?_, ?_, ?_, ?_, ?_, ?_⟩
      · rw [hp]
        exact .inl hstate
      all_goals simp only [hp, hnp, hembryo, hcall, hparent, hcreator, hserial]
    · rw [hsame] at ha
      have hm := hs.made ha
      refine ⟨?_, ?_, ?_, ?_, ?_, ?_⟩
      · rw [hsame]
        exact hm.busy
      all_goals simp only [hsame, hsame', hm.embryo, hm.made, hm.parent, hm.creator, hm.serial]
  · intro a c m b b' ha hc
    rcases hclaim ha with ⟨rfl, rfl, -⟩ | ⟨-, hm, hsame, -⟩ <;>
      rcases hclaim hc with ⟨rfl, hm', -⟩ | ⟨-, hm', hsame', -⟩
    · rfl
    · exact absurd rfl hm'
    · exact absurd hm' hm
    · rw [hsame] at ha
      rw [hsame'] at hc
      exact hs.unique ha hc
  · intro a ha
    by_cases hap : a = p
    · rw [hap, hp] at ha
      simp only [hstate] at ha
      cases ha
    · by_cases hanp : a = np
      · rw [hanp, hnp] at ha
        exact absurd ha hsleep
      · rw [hrest hap hanp] at ha ⊢
        exact hs.sleeping ha

theorem wake (hs : s.Wf) (W : Slot → Bool) : (s.wake W).Wf := by
  have hsame : ∀ q, ((s.wake W).proc q).pc = (s.proc q).pc ∧
      ((s.wake W).proc q).chan = (s.proc q).chan ∧ ((s.wake W).proc q).parent = (s.proc q).parent ∧
      ((s.wake W).proc q).serial = (s.proc q).serial ∧ ((s.wake W).proc q).creator = (s.proc q).creator ∧
      ((s.wake W).proc q).made = (s.proc q).made := by
    intro q
    simp only [State.wake]
    split_ifs <;> exact ⟨rfl, rfl, rfl, rfl, rfl, rfl⟩
  have hstate : ∀ q, (s.proc q).state ≠ .sleeping → ((s.wake W).proc q).state = (s.proc q).state :=
    fun q hq => congrArg Proc.state (if_neg fun h => hq h.1)
  have hsleep : ∀ q, ((s.wake W).proc q).state = .sleeping → (s.proc q).state = .sleeping := by
    intro q hq
    by_contra h
    exact h (hstate q h ▸ hq)
  constructor
  · intro p np b hp
    rw [(hsame p).1] at hp
    have hm := hs.made hp
    have hnp := hstate np (by rw [hm.embryo]; decide)
    have hpstate := hstate p (by rcases hm.busy with h | h <;> rw [h] <;> decide)
    refine ⟨?_, ?_, ?_, ?_, ?_, ?_⟩
    · unfold Proc.Busy
      rw [hpstate]
      exact hm.busy
    · rw [hnp, hm.embryo]
    · rw [(hsame np).2.2.2.2.2, hm.made]
    · rw [(hsame np).2.2.1, hm.parent]
    · rw [(hsame np).2.2.2.2.1, (hsame p).2.2.2.1, hm.creator]
    · rw [(hsame np).2.2.2.1, (hsame p).2.2.2.1]
      exact hm.serial
  · intro p q np b b' hp hq
    rw [(hsame p).1] at hp
    rw [(hsame q).1] at hq
    exact hs.unique hp hq
  · intro p hp
    rw [(hsame p).1, (hsame p).2.1]
    exact hs.sleeping (hsleep p hp)

theorem mark (hs : s.Wf) (killed named : Slot → Bool) : (s.mark killed named).Wf where
  made h := ⟨(hs.made h).busy, (hs.made h).embryo, (hs.made h).made, (hs.made h).parent,
    (hs.made h).creator, (hs.made h).serial⟩
  unique := hs.unique
  sleeping := hs.sleeping

end Wf

/-! ### The family -/

theorem family_setProc (q : Slot) (x : Proc) : (s.setProc q x).family = s.family.set q x.member := by
  simp only [family, setProc, Family.set, Family.mk.injEq, and_true]
  funext r
  by_cases hr : r = q
  · subst hr
    simp only [Function.update_self]
  · simp only [Function.update_of_ne hr]

theorem family_setProc_of_member {q : Slot} {x : Proc} (hmember : x.member = (s.proc q).member) :
    (s.setProc q x).family = s.family := by
  rw [family_setProc, hmember]
  exact congrArg (fun m => ({ s.family with member := m } : Family))
    (Function.update_eq_self q s.family.member)

theorem family_wake (W : Slot → Bool) : (s.wake W).family = s.family := by
  simp only [family, State.wake, Family.mk.injEq, and_true]
  funext q
  split_ifs with h
  · simp [Proc.member, h.1, ProcState.kind]
  · rfl

theorem kind_eq_zombie {st : ProcState} : st.kind = .zombie ↔ st = .zombie := by
  cases st <;> simp [ProcState.kind]

theorem family_pair (p np : Slot) (x : Proc) (pc : Pc) :
    ((s.setProc np x).setProc p { (s.setProc np x).proc p with pc := pc }).family =
      s.family.set np x.member := by
  rw [← family_setProc]
  exact family_setProc_of_member rfl

/-! ### Sleeping parents -/

namespace Awake

theorem mono {s' : State} (hs : s.Awake) (hblocked : ∀ call p, s'.Blocked call p → s.Blocked call p)
    (hzombie : ∀ call p q, s'.Child call p q → (s'.proc q).state = .zombie →
      s.Child call p q ∧ (s.proc q).state = .zombie) : s'.Awake := by
  intro p q call hp hchild hq
  obtain ⟨hchild', hq'⟩ := hzombie call p q hchild hq
  exact hs p q call (hblocked call p hp) hchild' hq'

end Awake

theorem member_of_family {s' : State} (hfamily : s'.family = s.family) (q : Slot) :
    (s'.proc q).member = (s.proc q).member :=
  congrFun (congrArg Family.member hfamily) q

theorem child_of_family {s' : State} (hfamily : s'.family = s.family) {call : Reaper} {p q : Slot}
    (hchild : s'.Child call p q) : s.Child call p q := by
  have hmember := member_of_family hfamily q
  have hparent : (s'.proc q).parent = (s.proc q).parent := congrArg Member.parent hmember
  have hthread : (s'.proc q).isThread = (s.proc q).isThread := congrArg Member.isThread hmember
  unfold Child at hchild ⊢
  rwa [hparent, hthread] at hchild

theorem zombie_of_family {s' : State} (hfamily : s'.family = s.family) {q : Slot}
    (hq : (s'.proc q).state = .zombie) : (s.proc q).state = .zombie := by
  have hmember := member_of_family hfamily q
  have hkind : (s'.proc q).state.kind = (s.proc q).state.kind := congrArg Member.kind hmember
  rw [← kind_eq_zombie, ← hkind, hq]
  rfl

namespace Inv

theorem move_self (hs : s.Inv) {p : Slot} {x : Proc} {st : ProcState} (hstate : (s.proc p).state = st)
    (hembryo : st ≠ .embryo) (hmember : x.member = (s.proc p).member)
    (hcreating : ∀ np b, x.pc.creating = some (np, b) → x.Busy ∧ (s.proc p).pc.creating = some (np, b))
    (hsleep : x.state = .sleeping → x.pc = .asleep ∨ ∃ call, x.pc = .reap call ∧
      x.chan = some (.proc p) ∧ ∀ q, s.Child call p q → (s.proc q).state ≠ .zombie) :
    (s.setProc p x).Inv := by
  have hfamily := family_setProc_of_member hmember
  refine ⟨?_, hfamily.symm ▸ hs.family, ?_⟩
  · refine hs.wf.setProc (fun q b hq => absurd hq (hs.wf.not_creating (hstate ▸ hembryo) q b))
      (fun np b h => ⟨(hcreating np b h).1, congrArg Member.serial hmember, (hcreating np b h).2⟩)
      (fun h => ?_)
    rcases hsleep h with h | ⟨call, hpc, hchan, -⟩
    · exact .inl h
    · exact .inr ⟨call, hpc, hchan⟩
  · intro r q call hr hchild hq
    have hchild' := child_of_family hfamily hchild
    have hq' := zombie_of_family hfamily hq
    unfold Blocked at hr
    by_cases hrp : r = p
    · subst hrp
      rw [setProc_self] at hr
      rcases hsleep hr.1 with h | ⟨call', hpc, -, hnone⟩
      · rw [h] at hr
        cases hr.2
      · rw [hpc] at hr
        cases hr.2
        exact hnone q hchild' hq'
    · rw [setProc_of_ne hrp] at hr
      exact hs.awake r q call hr hchild' hq'

theorem wake (hs : s.Inv) (W : Slot → Bool) : (s.wake W).Inv := by
  refine ⟨hs.wf.wake W, (family_wake W).symm ▸ hs.family, hs.awake.mono ?_ ?_⟩
  · rintro call p ⟨hstate, hpc⟩
    simp only [State.wake] at hstate hpc
    split_ifs at hstate hpc with h
    exact ⟨hstate, hpc⟩
  · intro call p q hchild hq
    exact ⟨child_of_family (family_wake W) hchild, zombie_of_family (family_wake W) hq⟩

theorem mark (hs : s.Inv) (killed named : Slot → Bool) : (s.mark killed named).Inv :=
  ⟨hs.wf.mark killed named, hs.family, hs.awake⟩

theorem of_pair (hwf : s.Wf) (hawake : s.Awake) {p np : Slot} {x : Proc} {pc : Pc}
    (hstate : (s.proc p).state = .running) (hne : p ≠ np)
    (hother : ∀ q b, (s.proc q).pc.creating = some (np, b) → q = p)
    (hidle : x.pc.Idle) (hsleep : x.state ≠ .sleeping) (hzombie : x.state ≠ .zombie)
    (hpc : ∀ m b, pc.creating = some (m, b) → m = np ∧ x.state = .embryo ∧
      x.made = b.1 ∧ x.parent.isSome = b.2 ∧ x.creator = (s.proc p).serial ∧ (s.proc p).serial < x.serial)
    (hfamily : (s.family.set np x.member).Inv) :
    ((s.setProc np x).setProc p { (s.setProc np x).proc p with pc := pc }).Inv := by
  refine ⟨hwf.pair hstate hne hother hidle hsleep hpc, (family_pair p np x pc).symm ▸ hfamily,
    hawake.mono ?_ ?_⟩
  · rintro call r ⟨hr, hrpc⟩
    by_cases hrp : r = p
    · subst hrp
      rw [setProc_self, setProc_of_ne hne] at hr
      rw [hstate] at hr
      cases hr
    · rw [setProc_of_ne hrp] at hr hrpc
      by_cases hrnp : r = np
      · subst hrnp
        rw [setProc_self] at hr
        exact absurd hr hsleep
      · rw [setProc_of_ne hrnp] at hr hrpc
        exact ⟨hr, hrpc⟩
  · intro call r q hchild hq
    unfold Child at hchild ⊢
    by_cases hqp : q = p
    · subst hqp
      rw [setProc_self, setProc_of_ne hne, hstate] at hq
      cases hq
    · rw [setProc_of_ne hqp] at hchild hq
      by_cases hqnp : q = np
      · subst hqnp
        rw [setProc_self] at hq
        exact absurd hq hzombie
      · rw [setProc_of_ne hqnp] at hchild hq
        exact ⟨hchild, hq⟩

section

variable (hs : s.Inv)
include hs

variable {p np : Slot} {call : Create} {s' : State}

theorem claim (call : Create) (hstate : (s.proc p).state = .running)
    (hunused : (s.proc np).state = .unused) : (s.claim p np call).Inv := by
  have hne : p ≠ np := by
    rintro rfl
    rw [hstate] at hunused
    cases hunused
  have hkind : (s.family.member np).kind = .free := congrArg ProcState.kind hunused
  have hparent : (s.proc np).parent = none := hs.family.tree.parent_of_free hkind
  have hclaim : (s.family.claim p np call).Inv :=
    ⟨hs.family.tree.claim p call hkind, hs.family.serials.claim p np call⟩
  have hwf : ({ s with nextpid := int32 (s.nextpid + 1), created := s.created + 1 } : State).Wf :=
    ⟨fun h => ⟨(hs.wf.made h).busy, (hs.wf.made h).embryo, (hs.wf.made h).made, (hs.wf.made h).parent,
      (hs.wf.made h).creator, (hs.wf.made h).serial⟩, hs.wf.unique, hs.wf.sleeping⟩
  refine of_pair hwf hs.awake hstate hne (fun q b hq => absurd hq (hs.wf.not_creating ?_ q b))
    Pc.idle_user nofun nofun (fun m b h => ?_) hclaim
  · rw [hunused]
    decide
  · cases h
    exact ⟨rfl, rfl, rfl, by rw [hparent]; rfl, rfl, hs.family.serials.bound p⟩

theorem giveUp (hstate : (s.proc p).state = .running)
    (hpc : (s.proc p).pc.creating = some (np, call, false)) : (s.giveUp p np).Inv := by
  have hmade := hs.wf.made hpc
  have hparent : (s.proc np).parent = none := by
    rw [← Option.not_isSome_iff_eq_none, hmade.parent]
    exact Bool.false_ne_true
  have hfamily := hs.family.move (.giveUp np (congrArg ProcState.kind hmade.embryo) hparent)
  exact of_pair hs.wf hs.awake hstate hmade.ne (fun q b hq => hs.wf.unique hq hpc)
    (hs.wf.idle_of_embryo hmade.embryo) nofun nofun (fun m b h => by cases h) hfamily

theorem copyProc (hstate : (s.proc p).state = .running)
    (hpc : (s.proc p).pc.creating = some (np, call, false)) : (s.copyProc p np call).Inv := by
  have hmade := hs.wf.made hpc
  have hembryo := hmade.embryo
  have hfamily := hs.family.move (.enter p np ((s.proc np).isThread || call = .threadCreate)
    (congrArg ProcState.kind hstate) (congrArg ProcState.kind hembryo) hmade.creator hmade.serial)
  refine of_pair hs.wf hs.awake hstate hmade.ne (fun q b hq => hs.wf.unique hq hpc)
    (hs.wf.idle_of_embryo hembryo) ?_ ?_ (fun m b h => ?_) hfamily
  · rw [hembryo]
    decide
  · rw [hembryo]
    decide
  · cases h
    exact ⟨rfl, hembryo, hmade.made, rfl, hmade.creator, hmade.serial⟩

theorem makeReady (hstate : (s.proc p).state = .running)
    (hpc : (s.proc p).pc.creating = some (np, call, true)) : (s.makeReady p np).Inv := by
  have hmade := hs.wf.made hpc
  have hparent : (s.proc np).parent ≠ none := by
    rw [← Option.isSome_iff_ne_none, hmade.parent]
  have hfamily := hs.family.move (.ready np (congrArg ProcState.kind hmade.embryo) hparent)
  exact of_pair hs.wf hs.awake hstate hmade.ne (fun q b hq => hs.wf.unique hq hpc)
    (hs.wf.idle_of_embryo hmade.embryo) nofun nofun (fun m b h => by cases h) hfamily

theorem adopt {q : Slot} (hparent : (s.proc q).parent = some p)
    (hzombie : (s.proc q).state = .zombie → ¬ (s.proc initproc).Waits initproc) :
    (s.setProc q { s.proc q with parent := some initproc }).Inv := by
  refine ⟨hs.wf.setProc (fun r b hr => ?_) (fun np b h => ⟨(hs.wf.made h).busy, rfl, h⟩)
    hs.wf.sleeping, ?_, ?_⟩
  · have hmade := hs.wf.made hr
    refine ⟨hmade.embryo, hmade.made, ?_, rfl, rfl⟩
    rw [← hmade.parent, hparent]
    rfl
  · rw [family_setProc]
    exact hs.family.move (.adopt p q hparent)
  · intro r c call hr hchild hc
    have hr' : s.Blocked call r := by
      unfold Blocked at hr ⊢
      by_cases hrq : r = q
      · subst hrq
        rwa [setProc_self] at hr
      · rwa [setProc_of_ne hrq] at hr
    unfold Child at hchild
    by_cases hcq : c = q
    · subst hcq
      rw [setProc_self] at hchild hc
      cases hchild.1
      rcases hs.wf.sleeping hr'.1 with h | ⟨call', -, hchan⟩
      · rw [hr'.2] at h
        cases h
      · exact hzombie hc ⟨hr'.1, hchan⟩
    · rw [setProc_of_ne hcq] at hchild hc
      exact hs.awake r c call hr' hchild hc

theorem exit (hstate : (s.proc p).state = .running) (hidle : (s.proc p).pc.Idle) (hinit : p ≠ initproc)
    (hchildren : ∀ q, (s.proc q).parent ≠ some p)
    (hparent : ∀ r, (s.proc p).parent = some r → ¬ (s.proc r).Waits r) :
    (s.setProc p { s.proc p with state := .zombie }).Inv := by
  refine ⟨hs.wf.setProc (fun r b hr => absurd hr (hs.wf.not_creating (by rw [hstate]; decide) r b))
    (fun np b h => by rw [hidle] at h; cases h) nofun, ?_, ?_⟩
  · rw [family_setProc]
    exact hs.family.move (.exit p (congrArg ProcState.kind hstate) hinit hchildren)
  · intro r c call hr hchild hc
    unfold Blocked at hr
    unfold Child at hchild
    by_cases hrp : r = p
    · subst hrp
      rw [setProc_self] at hr
      cases hr.1
    rw [setProc_of_ne hrp] at hr
    by_cases hcp : c = p
    · subst hcp
      rw [setProc_self] at hchild
      rcases hs.wf.sleeping hr.1 with h | ⟨call', -, hchan⟩
      · rw [hr.2] at h
        cases h
      · exact hparent r hchild.1 ⟨hr.1, hchan⟩
    · rw [setProc_of_ne hcp] at hchild hc
      exact hs.awake r c call hr hchild hc

theorem collect {q : Slot} (call : Reaper) (hparent : (s.proc q).parent = some p)
    (hzombie : (s.proc q).state = .zombie) : (s.collect call p q).Inv := by
  have hidle : (s.proc q).pc.Idle := by
    refine hs.wf.idle fun h => ?_
    rcases h with h | h <;> rw [hzombie] at h <;> cases h
  have hfamily := hs.family.move (.collect call p q (congrArg ProcState.kind hzombie) hparent)
  have hwf : (s.setProc q
      { s.proc q with pid := 0, parent := none, killed := false, state := .unused }).Wf :=
    hs.wf.setProc (fun r b hr => absurd hr (hs.wf.not_creating (by rw [hzombie]; decide) r b))
      (fun np b h => by rw [hidle] at h; cases h) nofun
  refine ⟨⟨fun h => ⟨(hwf.made h).busy, (hwf.made h).embryo, (hwf.made h).made, (hwf.made h).parent,
    (hwf.made h).creator, (hwf.made h).serial⟩, hwf.unique, hwf.sleeping⟩, ?_, ?_⟩
  · unfold State.collect clear
    rw [family_setProc]
    exact hfamily
  · refine hs.awake.mono ?_ ?_
    · rintro call' r ⟨hr, hpc⟩
      by_cases hrq : r = q
      · subst hrq
        simp only [State.collect, clear, setProc_self] at hr
        cases hr
      · simp only [State.collect, clear, setProc_of_ne hrq] at hr hpc
        exact ⟨hr, hpc⟩
    · intro call' r c hchild hc
      unfold Child at hchild ⊢
      by_cases hcq : c = q
      · subst hcq
        simp only [State.collect, clear, setProc_self] at hc
        cases hc
      · simp only [State.collect, clear, setProc_of_ne hcq] at hchild hc
        exact ⟨hchild, hc⟩

theorem quiet (hmove : s.Quiet s') : s'.Inv := by
  cases hmove with
  | run p hstate =>
    exact hs.move_self hstate (by decide) (by simp [Proc.member, hstate, ProcState.kind])
      (fun np b h => ⟨.inl rfl, h⟩) nofun
  | yield p hstate =>
    exact hs.move_self hstate (by decide) (by simp [Proc.member, hstate, ProcState.kind])
      (fun np b h => ⟨.inr rfl, h⟩) nofun
  | goto p chan pc hstate hidle hpc =>
    exact hs.move_self hstate (by decide) rfl
      (fun np b h => by rw [hpc] at h; cases h) (fun h => by rw [hstate] at h; cases h)
  | sleep p chan hstate hidle =>
    exact hs.move_self hstate (by decide) (by simp [Proc.member, hstate, ProcState.kind])
      (fun np b h => by cases h) (fun _ => .inl rfl)
  | block p call hstate hidle hnone =>
    exact hs.move_self hstate (by decide) (by simp [Proc.member, hstate, ProcState.kind])
      (fun np b h => by cases h) (fun _ => .inr ⟨call, rfl, rfl, hnone⟩)
  | wake W => exact hs.wake W
  | mark killed named => exact hs.mark killed named
  | claim p np call hstate hidle hunused => exact hs.claim call hstate hunused
  | stack p np call hstate hpc =>
    exact hs.move_self hstate (by decide) rfl
      (fun m b h => ⟨.inl hstate, by rw [hpc]; exact h⟩) (fun h => by rw [hstate] at h; cases h)
  | ready p np call hstate hpc => exact hs.makeReady hstate (by rw [hpc]; rfl)
  | adopt p q hstate hinit hparent hzombie => exact hs.adopt hparent hzombie
  | exit p hstate hidle hinit hchildren hparent =>
    exact hs.exit hstate hidle hinit hchildren hparent

theorem move (hmove : s.Move s') : s'.Inv := by
  cases hmove with
  | quiet h => exact hs.quiet h
  | giveUp p np call hstate hpc =>
    have hcreating : (s.proc p).pc.creating = some (np, call, false) := by
      rcases hpc with h | h <;> rw [h] <;> rfl
    exact hs.giveUp hstate hcreating
  | copy p np call hstate hpc => exact hs.copyProc hstate (by rw [hpc]; rfl)
  | collect call p q hstate hidle hchild hzombie => exact hs.collect call hchild.1 hzombie

theorem moves (hmoves : s.Moves s') : s'.Inv := by
  induction hmoves with
  | refl => exact hs
  | tail _ hmove ih => exact ih.move hmove

theorem parent_ne_self (p : Slot) : (s.proc p).parent ≠ some p :=
  fun h => Nat.lt_irrefl _ (hs.family.tree.parent h).2.2.1

theorem step {a : Act} (hstep : s.step a = some s') : s'.Inv :=
  hs.moves (Did.step hs.parent_ne_self hstep).moves

end

theorem init : State.init.Inv := by
  have hkind : ∀ q, (State.init.family.member q).kind ≠ .free → q = initproc := by
    intro q hq
    by_contra h
    exact hq (by simp [State.family, State.init, Proc.member, h, ProcState.kind])
  refine ⟨⟨nofun, nofun, fun {p} h => ?_⟩, ⟨⟨?_, ?_, ?_, ?_⟩, ?_⟩, ?_⟩
  · simp only [State.init] at h
    split_ifs at h
  · exact nofun
  · exact ⟨rfl, rfl, rfl, rfl⟩
  · intro q hq h
    exact absurd (hkind q (by rcases h with h | h <;> rw [h] <;> decide)) hq
  · exact nofun
  · refine ⟨fun q => Nat.one_pos, fun {q r} hq hr _ => (hkind q hq).trans (hkind r hr).symm, by decide,
      fun {q} hq => ?_, nofun, List.nodup_nil⟩
    rw [hkind q hq]
    decide
  · rintro p q call ⟨h, -⟩
    simp only [State.init] at h
    split_ifs at h

end Inv

theorem inv_of_reaches {G : State → Act → Prop} (hrun : Reaches step G State.init s) : s.Inv :=
  hrun.invariant (I := State.Inv) .init fun _ _ _ hs _ hstep => hs.step hstep

end State

end Xv6.Ptable
