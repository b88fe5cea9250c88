import Xv6.Lib.Prog
import Mathlib.Logic.Relation

/-!
# Interleaving many programs over one shared state

Every thread runs a program. A step performs the next operation of one thread, atomically, on the
shared state; a thread whose program is over may be given another one. The rule at the end is the
one every concurrent argument of the development uses: a global invariant `J` relates the shared
state to one *local* assertion per thread, and a thread is `Safe` when each operation it performs
re-establishes `J` at the price of changing its own local assertion only. No thread's proof mentions
another thread's program.
-/

namespace Xv6

open Function (update update_of_ne)

variable {Pid Op : Type} {Res : Op → Type} {α β σ Local : Type}

/-- A concurrent semantics: thread `p` performing `o` in `s` may answer `r` and leave `s'`. -/
abbrev Sem (Pid Op : Type) (Res : Op → Type) (σ : Type) :=
  Pid → (o : Op) → σ → Res o → σ → Prop

structure Pool (Pid Op : Type) (Res : Op → Type) (α σ : Type) where
  thread : Pid → Prog Op Res α
  shared : σ

namespace Pool

variable [DecidableEq Pid]

/-- One step of the pool. `starts p s x` says that an idle thread `p` may be given `x` in `s`. -/
inductive Step (sem : Sem Pid Op Res σ) (starts : Pid → σ → Prog Op Res α → Prop) :
    Pool Pid Op Res α σ → Pool Pid Op Res α σ → Prop
  | start {c : Pool Pid Op Res α σ} (p : Pid) (a : α) (x : Prog Op Res α)
      (hidle : c.thread p = .pure a) (hstart : starts p c.shared x) :
      Step sem starts c ⟨update c.thread p x, c.shared⟩
  | op {c : Pool Pid Op Res α σ} (p : Pid) (o : Op) (next : Res o → Prog Op Res α) (r : Res o)
      (s' : σ) (hthread : c.thread p = .op o next) (hsem : sem p o c.shared r s') :
      Step sem starts c ⟨update c.thread p (next r), s'⟩

def Reaches (sem : Sem Pid Op Res σ) (starts : Pid → σ → Prog Op Res α → Prop) :
    Pool Pid Op Res α σ → Pool Pid Op Res α σ → Prop :=
  Relation.ReflTransGen (Step sem starts)

/-- Let the listed threads perform one operation each, in the order of the list. -/
def sched (exec : Pid → Exec Op Res σ) : List Pid → Pool Pid Op Res α σ → Option (Pool Pid Op Res α σ)
  | [], c => some c
  | p :: ps, c =>
    match c.thread p with
    | .pure _ => none
    | .op o next =>
      match exec p o c.shared with
      | none => none
      | some (r, s') => sched exec ps ⟨update c.thread p (next r), s'⟩

theorem reaches_of_sched {exec : Pid → Exec Op Res σ} {sem : Sem Pid Op Res σ}
    {starts : Pid → σ → Prog Op Res α → Prop}
    (hsem : ∀ p o s r s', exec p o s = some (r, s') → sem p o s r s') (ps : List Pid) :
    ∀ {c c' : Pool Pid Op Res α σ}, sched exec ps c = some c' → Reaches sem starts c c' := by
  induction ps with
  | nil =>
    intro c c' h
    rw [sched, Option.some.injEq] at h
    exact h ▸ .refl
  | cons p ps ih =>
    intro c c' h
    rw [sched] at h
    cases hthread : c.thread p with
    | pure a =>
      rw [hthread] at h
      cases h
    | op o next =>
      rw [hthread] at h
      dsimp only at h
      cases hexec : exec p o c.shared with
      | none =>
        rw [hexec] at h
        cases h
      | some rs =>
        rw [hexec] at h
        exact .head (.op p o next rs.1 rs.2 hthread (hsem p o _ _ _ hexec)) (ih h)

end Pool

/-! ### Safe threads -/

section Safe

variable [DecidableEq Pid] (sem : Sem Pid Op Res σ) (J : σ → (Pid → Local) → Prop)
  (At : Pid → Op → Local → Prop)

/-- Thread `p`, in local state `l`, re-establishes `J` at each of its operations and ends in `post`.
`At` is what the local state must satisfy while the thread is stopped before an operation. -/
def Prog.Safe (p : Pid) : Prog Op Res α → Local → (α → Local → Prop) → Prop
  | .pure a, l, post => post a l
  | .op o next, l, post =>
    At p o l ∧ ∀ s T, J s T → T p = l → ∀ r s', sem p o s r s' →
      ∃ l', J s' (update T p l') ∧ (next r).Safe p l' post

variable {sem J At}

variable (sem J At) in
/-- `J` holds of some assignment of local states under which every thread is safe and ends in its own
`post`. -/
def Pool.Ends (post : Pid → α → Local → Prop) (c : Pool Pid Op Res α σ) : Prop :=
  ∃ T, J c.shared T ∧ ∀ p, (c.thread p).Safe sem J At p (T p) (post p)

variable {starts : Pid → σ → Prog Op Res α → Prop} {c c' : Pool Pid Op Res α σ}

theorem Pool.Ends.step {post : Pid → α → Local → Prop}
    (hstarts : ∀ p s x a l, starts p s x → post p a l → x.Safe sem J At p l (post p))
    (hends : c.Ends sem J At post) (hstep : Pool.Step sem starts c c') :
    c'.Ends sem J At post := by
  obtain ⟨T, hJ, hsafe⟩ := hends
  cases hstep with
  | start p a x hidle hstart =>
    refine ⟨T, hJ, fun q => ?_⟩
    by_cases hq : q = p
    · subst hq
      have hp := hsafe q
      rw [hidle] at hp
      simpa using hstarts q _ x a (T q) hstart hp
    · simpa [update_of_ne hq] using hsafe q
  | op p o next r s' hthread hsem =>
    have hp := hsafe p
    rw [hthread] at hp
    obtain ⟨l', hJ', hnext⟩ := hp.2 c.shared T hJ rfl r s' hsem
    refine ⟨update T p l', hJ', fun q => ?_⟩
    by_cases hq : q = p
    · subst hq
      simpa using hnext
    · simpa [update_of_ne hq] using hsafe q

/-- **The interleaving rule.** What holds of the initial pool and is kept by each thread on its own
holds of every pool that any interleaving reaches. -/
theorem Pool.Ends.reaches {post : Pid → α → Local → Prop}
    (hstarts : ∀ p s x a l, starts p s x → post p a l → x.Safe sem J At p l (post p))
    (hends : c.Ends sem J At post) (hrun : Pool.Reaches sem starts c c') : c'.Ends sem J At post := by
  induction hrun with
  | refl => exact hends
  | tail _ hstep ih => exact ih.step hstarts hstep

variable (sem J At) in
/-- The pool invariant: `J` holds of some assignment of local states under which every thread is
safe until it is idle again. -/
def Pool.Inv (idle : Pid → Local → Prop) (c : Pool Pid Op Res α σ) : Prop :=
  ∃ T, J c.shared T ∧ ∀ p, (c.thread p).Safe sem J At p (T p) fun _ l => idle p l

theorem Pool.Inv.step {idle : Pid → Local → Prop}
    (hstarts : ∀ p s x l, starts p s x → idle p l → x.Safe sem J At p l fun _ l' => idle p l')
    (hinv : c.Inv sem J At idle) (hstep : Pool.Step sem starts c c') :
    c'.Inv sem J At idle :=
  Pool.Ends.step (fun p s x _ l hstart hidle => hstarts p s x l hstart hidle) hinv hstep

/-- The rule when all that counts of a thread that is over is that it is idle. -/
theorem Pool.Inv.reaches {idle : Pid → Local → Prop}
    (hstarts : ∀ p s x l, starts p s x → idle p l → x.Safe sem J At p l fun _ l' => idle p l')
    (hinv : c.Inv sem J At idle) (hrun : Pool.Reaches sem starts c c') :
    c'.Inv sem J At idle :=
  Pool.Ends.reaches (fun p s x _ l hstart hidle => hstarts p s x l hstart hidle) hinv hrun

end Safe

/-! ### Local protocols

When what a thread must know is decided by the answers it gets, its safety splits in two: that its
program obeys a protocol on local states, which mentions no shared state, and that the invariant
survives each operation the protocol allows. -/

/-- What an operation needs of the local state, the answers it can give there, and the local state
it leaves. -/
structure Protocol (Op : Type) (Res : Op → Type) (Local : Type) where
  pre : Op → Local → Prop
  res : (o : Op) → Local → Res o → Prop
  next : (o : Op) → Local → Res o → Local

namespace Prog

def Obeys (P : Protocol Op Res Local) : Prog Op Res α → Local → (α → Local → Prop) → Prop
  | .pure a, l, post => post a l
  | .op o next, l, post => P.pre o l ∧ ∀ r, P.res o l r → (next r).Obeys P (P.next o l r) post

variable {P : Protocol Op Res Local}

variable {x : Prog Op Res α} {l : Local} {post : α → Local → Prop}

theorem Obeys.mono {post' : α → Local → Prop}
    (hx : x.Obeys P l post) (hpost : ∀ a l', post a l' → post' a l') : x.Obeys P l post' := by
  induction x generalizing l with
  | pure a => exact hpost a l hx
  | op o next ih => exact ⟨hx.1, fun r hr => ih r (hx.2 r hr)⟩

theorem Obeys.bind {f : α → Prog Op Res β}
    {mid : α → Local → Prop} {post : β → Local → Prop} (hx : x.Obeys P l mid)
    (hf : ∀ a l', mid a l' → (f a).Obeys P l' post) : (x >>= f).Obeys P l post := by
  induction x generalizing l with
  | pure a => exact hf a l hx
  | op o next ih => exact ⟨hx.1, fun r hr => ih r (hx.2 r hr)⟩

theorem Obeys.perform {o : Op} {post : Res o → Local → Prop} (hpre : P.pre o l)
    (hpost : ∀ r, P.res o l r → post r (P.next o l r)) :
    (Prog.perform o : Prog Op Res (Res o)).Obeys P l post :=
  ⟨hpre, hpost⟩

theorem Obeys.perform_bind {o : Op} {f : Res o → Prog Op Res β} {post : β → Local → Prop} (hpre : P.pre o l)
    (hf : ∀ r, P.res o l r → (f r).Obeys P (P.next o l r) post) : (Prog.perform o >>= f).Obeys P l post :=
  ⟨hpre, hf⟩

theorem Obeys.forFin {n : Nat} {body : Fin n → Prog Op Res Unit} {I : Nat → Local → Prop}
    (hbody : ∀ (i : Fin n) l, I i l → (body i).Obeys P l fun _ => I (i + 1)) (hinit : I 0 l) :
    (Prog.forFin n body).Obeys P l fun _ => I n := by
  induction n generalizing l I with
  | zero => exact hinit
  | succ n ih =>
    refine .bind (hbody 0 l hinit) ?_
    intro _ l' hl'
    exact ih (I := fun k => I (k + 1)) (fun i l hl => hbody i.succ l hl) hl'

theorem Obeys.project {Local' : Type} {Q : Protocol Op Res Local'} (π : Local → Local')
    (hpre : ∀ o l, P.pre o l → Q.pre o (π l)) (hres : ∀ o l r, Q.res o (π l) r → P.res o l r)
    (hnext : ∀ o l r, π (P.next o l r) = Q.next o (π l) r)
    {post' : α → Local' → Prop} (hx : x.Obeys P l post)
    (hpost : ∀ a l', post a l' → post' a (π l')) : x.Obeys Q (π l) post' := by
  induction x generalizing l with
  | pure a => exact hpost a l hx
  | op o next ih =>
    refine ⟨hpre o l hx.1, fun r hr => ?_⟩
    rw [← hnext]
    exact ih r (hx.2 r (hres o l r hr))

/-- From every state of which at least `t` is known, the program obeys the protocol. -/
def Spec (P : Protocol Op Res Local) (K : Local → Local → Prop) (x : Prog Op Res α) (t : Local)
    (post : α → Local → Prop) : Prop :=
  ∀ l, K t l → x.Obeys P l post

namespace Spec

variable {K : Local → Local → Prop} {x : Prog Op Res α} {f : α → Prog Op Res β} {t : Local}

theorem mono {post post' : α → Local → Prop} (hx : x.Spec P K t post)
    (hpost : ∀ a l, post a l → post' a l) : x.Spec P K t post' :=
  fun l h => (hx l h).mono hpost

theorem seq {g : α → Local} {post : β → Local → Prop} (hx : x.Spec P K t fun a => K (g a))
    (hf : ∀ a, (f a).Spec P K (g a) post) : (x >>= f).Spec P K t post :=
  fun l h => (hx l h).bind fun a l' h' => hf a l' h'

theorem seq_and {φ : α → Prop} {g : α → Local} {post : β → Local → Prop}
    (hx : x.Spec P K t fun a l => φ a ∧ K (g a) l) (hf : ∀ a, φ a → (f a).Spec P K (g a) post) :
    (x >>= f).Spec P K t post :=
  fun l h => (hx l h).bind fun a l' h' => hf a h'.1 l' h'.2

end Spec

theorem Obeys.safe [DecidableEq Pid] {sem : Sem Pid Op Res σ} {J : σ → (Pid → Local) → Prop}
    (hJ : ∀ p o s T r s', J s T → P.pre o (T p) → sem p o s r s' →
      P.res o (T p) r ∧ J s' (update T p (P.next o (T p) r)))
    {p : Pid} (hx : x.Obeys P l post) :
    x.Safe sem J (fun _ => P.pre) p l post := by
  induction x generalizing l with
  | pure a => exact hx
  | op o next ih =>
    refine ⟨hx.1, fun s T hs hT r s' hsem => ?_⟩
    subst hT
    obtain ⟨hres, hJ'⟩ := hJ p o s T r s' hs hx.1 hsem
    exact ⟨_, hJ', ih r (hx.2 r hres)⟩

section Alone

variable {exec : Exec Op Res σ} {J : σ → Local → Prop} {x : Prog Op Res α} {s s' : σ} {l : Local}
  {post : α → Local → Prop}

/-- A program that obeys the protocol and runs alone keeps what the protocol's steps keep. -/
theorem Obeys.visits (hJ : ∀ o s l r s', J s l → P.pre o l → exec o s = some (r, s') →
      P.res o l r ∧ J s' (P.next o l r))
    (hx : x.Obeys P l post) (hs : J s l) {o : Op} (hvisit : x.Visits exec s o s') :
    ∃ l', J s' l' ∧ P.pre o l' := by
  induction hvisit generalizing l with
  | here => exact ⟨l, hs, hx.1⟩
  | later hexec _ ih =>
    obtain ⟨hres, hJ'⟩ := hJ _ _ l _ _ hs hx.1 hexec
    exact ih (hx.2 _ hres) hJ'

theorem Obeys.done (hJ : ∀ o s l r s', J s l → P.pre o l → exec o s = some (r, s') →
      P.res o l r ∧ J s' (P.next o l r))
    (hx : x.Obeys P l post) (hs : J s l) {a : α} (hrun : x.run exec s = .done a s') :
    ∃ l', J s' l' ∧ post a l' := by
  induction x generalizing s l with
  | pure b =>
    cases hrun
    exact ⟨l, hs, hx⟩
  | op o next ih =>
    rw [run] at hrun
    cases hexec : exec o s with
    | none =>
      rw [hexec] at hrun
      cases hrun
    | some rs =>
      rw [hexec] at hrun
      obtain ⟨hres, hJ'⟩ := hJ o s l rs.1 rs.2 hs hx.1 hexec
      exact ih rs.1 (hx.2 rs.1 hres) hJ' hrun

end Alone

end Prog

end Xv6
