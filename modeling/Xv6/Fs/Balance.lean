import Xv6.Fs.Proof.AccountCalls
import Xv6.Fs.Proof.HoldInv

/-!
# Calls are balanced

Any number of processes run the calls that take a path, `exec`, `namei` and `nameiparent`, in any
interleaving. To the state are added counts that the kernel does not keep: for each process its calls of
`begin_op` less those of `end_op`, what its operations have added to the reference counts of the cache,
and the open files it has set up.
-/

namespace Xv6.Fs

open Function (update update_self update_of_ne)

variable {n : Nat}

structure Counted (n : Nat) where
  fs : State n
  ops : Fin n → Int
  net : Fin n → Inum → Int
  opened : Fin n → List (Nat × Inum)

namespace Counted

def entered : Op → Int
  | .beginOp => 1
  | .endOp => -1
  | _ => 0

def setUp : Op → List (Nat × Inum)
  | .fileInit f ip _ _ => [(f, ip)]
  | _ => []

/-- Process `p` performs `o`, and the file system becomes `fs'`. -/
def record (s : Counted n) (p : Fin n) (o : Op) (fs' : State n) : Counted n where
  fs := fs'
  ops := update s.ops p (s.ops p + entered o)
  net := update s.net p fun i => s.net p i + ((fs'.ref i : Int) - s.fs.ref i)
  opened := update s.opened p (setUp o ++ s.opened p)

def exec (p : Fin n) : Exec Op Op.Res (Counted n) := fun o s =>
  (s.fs.exec p o).map fun (r, fs') => (r, s.record p o fs')

def sem : Sem (Fin n) Op Op.Res (Counted n) := fun p o s r s' => exec p o s = some (r, s')

/-- What a call of `p` leaves: its locks and its transactions as they were, `refs` more references in the
cache, and these as its current directory and its open files. -/
structure Leaves (s s' : Counted n) (p : Fin n) (refs : Inum → Int) (cwd : Option Inum)
    (opened : List (Nat × Inum)) : Prop where
  lock : ∀ i, s'.fs.lock i = some p ↔ s.fs.lock i = some p
  ops : s'.ops p = s.ops p
  net : ∀ i, s'.net p i = s.net p i + refs i
  cwd : s'.fs.cwd p = cwd
  opened : s'.opened p = opened

def Keeps (s s' : Counted n) (p : Fin n) : Prop := s.Leaves s' p 0 (s.fs.cwd p) (s.opened p)

def Balanced (s s' : Counted n) (p : Fin n) : Request → Reply → Prop
  | .open _, r =>
    r = .int (-1) ∧ s.Keeps s' p ∨ ∃ (fd : Nat) (f : Nat) (ip : Inum), r = .int fd ∧
        s.Leaves s' p (Pi.single ip 1) (s.fs.cwd p) ((f, ip) :: s.opened p)
  | .chdir _, r =>
    r = .int (-1) ∧ s.Keeps s' p ∨ ∃ c ip, r = .int 0 ∧ s.fs.cwd p = some c ∧
        s.Leaves s' p (Pi.single ip 1 - Pi.single c 1) (some ip) (s.opened p)
  | .namei _, r | .nameiparent _, r =>
    ∃ ip : Option Inum, r = .inode ip ∧ s.Leaves s' p (ip.elim 0 (Pi.single · 1)) (s.fs.cwd p) (s.opened p)
  | _, _ => s.Keeps s' p

end Counted

abbrev CountedPool (n : Nat) := Pool (Fin n) Op Op.Res Reply (Counted n)

def Request.LooksUp : Request → Prop
  | .namei _ | .nameiparent _ => True
  | _ => False

/-- `namei` and `nameiparent` may be called with inodes locked. -/
def startsRequest : Fin n → Counted n → FsM Reply → Prop := fun p s x =>
  ∃ req : Request, x = req.prog ∧ (req.LooksUp ∨ ∀ i, s.fs.lock i ≠ some p)

/-- Current directories are referenced, and an open file that is not in use has no inode. -/
structure State.AtRest (s : State n) : Prop where
  cwd : ∀ i, (Finset.univ.filter fun p => s.cwd p = some i).card ≤ s.ref i
  unused : ∀ f, (s.file f).ref = 0 → (s.file f).fields.ip = none

/-! ### The counts agree with the accounts -/

structure Counted.Agrees (s : Counted n) (outer : Fin n → Set Inum) (ops : Fin n → Int)
    (net : Fin n → Inum → Int) (T : Fin n → Account) : Prop where
  holds : HoldInv s.fs outer fun p => (T p).toHold
  ops : ∀ p, s.ops p = ops p + (T p).ops
  net : ∀ p i, s.net p i = net p i + (T p).refs.count i
  opened : ∀ p, s.opened p = (T p).opened

namespace Counted.Agrees

variable {s s' : Counted n} {outer : Fin n → Set Inum} {ops : Fin n → Int} {net : Fin n → Inum → Int}
  {T T' : Fin n → Account} {p : Fin n}

theorem ops_next {o : Op} {t : Account} (hpre : Account.pre o t) (r : o.Res) :
    ((Account.next o t r).ops : Int) = t.ops + entered o := by
  have hops := hpre.2
  cases o with
  | endOp =>
    change ((t.ops - 1 : Nat) : Int) = t.ops + -1
    have hone : t.ops = 1 := hops
    omega
  | _ => simp [Account.next, entered]

theorem opened_next {o : Op} {t : Account} (r : o.Res) :
    (Account.next o t r).opened = setUp o ++ t.opened := by
  cases o <;> rfl

theorem step {o : Op} {r : o.Res} (h : s.Agrees outer ops net T) (hpre : Account.pre o (T p))
    (hexec : exec p o s = some (r, s')) : Hold.res o (T p).toHold r ∧
      s'.Agrees outer ops net (update T p (Account.next o (T p) r)) := by
  obtain ⟨⟨r', fs'⟩, hstep, heq⟩ := Option.map_eq_some_iff.mp hexec
  cases heq
  obtain ⟨hres, hcounts, hinv⟩ := h.holds.step hpre.1 hstep
  refine ⟨hres, ?_, fun q => ?_, fun q i => ?_, fun q => ?_⟩
  · have hproj : (fun q => (update T p (.next o (T p) r) q).toHold) =
        update (fun q => (T q).toHold) p (.next o (T p).toHold r) := by
      funext q
      exact Function.apply_update (fun _ => Account.toHold) T p _ q
    rw [hproj]
    exact hinv
  all_goals by_cases hq : q = p
  · subst hq
    simp only [record, update_self]
    rw [h.ops, ops_next hpre, add_assoc]
  · simp only [record, update_of_ne hq, h.ops]
  · subst hq
    have hcount : _ + (T q).refs.count i = _ := hcounts i
    simp only [record, update_self]
    rw [h.net]
    change _ = net q i + ((Hold.next o (T q).toHold r).refs.count i : Int)
    omega
  · simp only [record, update_of_ne hq, h.net]
  · subst hq
    simp only [record, update_self]
    rw [h.opened, opened_next]
  · simp only [record, update_of_ne hq, h.opened]

/-- What the account of a process says at its two rests is so of the state. -/
theorem leaves {t : Account} {refs : Inum → Int} (h : s.Agrees outer ops net T)
    (h' : s'.Agrees outer ops net T') (hrest : (T p).Rest) (hrest' : (T' p).Rest) (hsame : t.Same (T' p))
    (hrefs : ∀ i, (t.refs.count i : Int) = (T p).refs.count i + refs i) :
    s.Leaves s' p refs t.cwd t.opened where
  lock i := by
    rw [(h'.holds.sound p).lock i, (h.holds.sound p).lock i, hrest.idle.held, hrest'.idle.held]
  ops := by rw [h'.ops, h.ops, hrest.ops, hrest'.ops]
  net i := by
    rw [h'.net, h.net, hsame.refs, hrefs, add_assoc]
  cwd := (h'.holds.sound p).cwd.trans hsame.cwd
  opened := (h'.opened p).trans hsame.opened

theorem count_take (refs : Multiset Inum) (ip i : Inum) :
    ((ip ::ₘ refs).count i : Int) = refs.count i + (Pi.single ip 1 : Inum → Int) i := by
  by_cases hi : i = ip
  · subst hi
    simp
  · simp [Multiset.count_cons_of_ne hi, Pi.single_eq_of_ne hi]

theorem count_move {refs : Multiset Inum} {c : Inum} (hc : c ∈ refs) (ip i : Inum) :
    ((ip ::ₘ refs.erase c).count i : Int) =
      refs.count i + (Pi.single ip 1 - Pi.single c 1 : Inum → Int) i := by
  have herase := count_take (refs.erase c) c i
  rw [Multiset.cons_erase hc] at herase
  rw [count_take, Pi.sub_apply]
  omega

theorem balanced {req : Request} {r : Reply} (h : s.Agrees outer ops net T)
    (h' : s'.Agrees outer ops net T') (hrest : (T p).Rest) (hsettles : (T p).Settles req r (T' p)) :
    s.Balanced s' p req r := by
  have hrest' := hsettles.rest hrest
  have hcwd := (h.holds.sound p).cwd
  have hkeeps : (T p).Same (T' p) → s.Keeps s' p := fun hsame => by
    unfold Keeps
    rw [hcwd, h.opened]
    exact h.leaves h' hrest hrest' hsame fun i => (add_zero _).symm
  have htaken : ∀ ip, ((T p).taken ip).Same (T' p) →
      s.Leaves s' p (ip.elim 0 (Pi.single · 1)) (s.fs.cwd p) (s.opened p) := by
    intro ip hsame
    cases ip with
    | none => exact hkeeps hsame
    | some ip =>
      rw [hcwd, h.opened]
      exact h.leaves (t := (T p).take ip) h' hrest hrest' hsame (count_take (T p).refs ip)
  cases req with
  | «open» args =>
    obtain ⟨hr, hsame⟩ | ⟨fd, f, ip, hr, hsame⟩ := hsettles
    · exact .inl ⟨hr, hkeeps hsame⟩
    · refine .inr ⟨fd, f, ip, hr, ?_⟩
      rw [hcwd, h.opened]
      exact h.leaves h' hrest hrest' hsame (count_take (T p).refs ip)
  | chdir path =>
    obtain ⟨hr, hsame⟩ | ⟨c, ip, hr, hc, hsame⟩ := hsettles
    · exact .inl ⟨hr, hkeeps hsame⟩
    · refine .inr ⟨c, ip, hr, hcwd.trans hc, ?_⟩
      rw [h.opened]
      exact h.leaves h' hrest hrest' hsame (count_move (hrest.idle.cwd c hc) ip)
  | namei path | nameiparent path =>
    obtain ⟨ip, hr, hsame⟩ := hsettles
    exact ⟨ip, hr, htaken ip hsame⟩
  | link | unlink | mkdir | mknod | exec => exact hkeeps hsettles

end Counted.Agrees

/-! ### Runs -/

/-- The account of a process between two calls. -/
def Counted.account (s : Counted n) (p : Fin n) : Account where
  refs := (s.fs.cwd p).elim 0 ({·})
  held := []
  live := ∅
  dirs := ∅
  nondir := ∅
  below := ∅
  last := ∅
  cwd := s.fs.cwd p
  files := ∅
  ops := 0
  opened := s.opened p

theorem Counted.account_rest (s : Counted n) (p : Fin n) : (s.account p).Rest where
  idle := ⟨rfl, rfl, fun c hc => by
    have hcwd : s.fs.cwd p = some c := hc
    simp [account, hcwd]⟩
  ops := rfl

theorem Counted.agrees_account {s : Counted n} (hrest : s.fs.AtRest) :
    s.Agrees (fun p => { i | s.fs.lock i = some p }) s.ops
      (fun p i => s.net p i - (s.account p).refs.count i) s.account where
  holds := {
    sound := fun p => ⟨fun i => by simp [account], nofun, List.nodup_nil, rfl, nofun, nofun, nofun⟩
    refs_le := fun i => by
      refine le_of_eq_of_le ?_ (hrest.cwd i)
      rw [Finset.card_filter]
      refine Finset.sum_congr rfl fun p _ => ?_
      cases hcwd : s.fs.cwd p with
      | none => simp [account, hcwd]
      | some c => simp [account, hcwd, Multiset.count_singleton, eq_comm]
    files := fun _ _ _ _ => nofun
    unused := hrest.unused }
  ops p := (add_zero _).symm
  net p i := (sub_add_cancel ..).symm
  opened _ := rfl

section Runs

variable {outer : Fin n → Set Inum} {ops : Fin n → Int} {net : Fin n → Inum → Int}
  {c₀ c c' : CountedPool n} {p : Fin n} {req : Request}

/-- Thread `x` of `p` with the account `t` keeps the counts in agreement and ends in `post`. -/
abbrev Keeping (outer : Fin n → Set Inum) (ops : Fin n → Int) (net : Fin n → Inum → Int) (p : Fin n)
    (x : FsM Reply) (t : Account) (post : Reply → Account → Prop) : Prop :=
  x.Safe Counted.sem (Counted.Agrees · outer ops net) (fun _ => accountProtocol.pre) p t post

theorem Request.keeping (req : Request) {t : Account} {post : Reply → Account → Prop} (hrest : t.Rest)
    (hpost : ∀ r t', t.Settles req r t' → post r t') : Keeping outer ops net p req.prog t post :=
  ((req.prog_settles hrest).mono hpost t ⟨.refl, hrest.idle.held ▸ List.nodup_nil⟩).safe
    fun _ _ _ _ _ _ h hpre hexec => h.step hpre hexec

theorem startsRequest_keeping {s : Counted n} {x : FsM Reply} {t : Account}
    (hstart : startsRequest p s x) (hrest : t.Rest) :
    Keeping outer ops net p x t fun _ => Account.Rest := by
  obtain ⟨req, rfl, -⟩ := hstart
  exact req.keeping hrest fun _ _ h => h.rest hrest

theorem agrees_of_reaches (hidle : ∀ q, ∃ b, c₀.thread q = .pure b) (hrest : c₀.shared.fs.AtRest)
    (hrun : Pool.Reaches Counted.sem startsRequest c₀ c) :
    ∃ outer ops net T, c.shared.Agrees outer ops net T ∧
      ∀ q, Keeping outer ops net q (c.thread q) (T q) fun _ => Account.Rest := by
  have hagrees := Counted.agrees_account hrest
  refine ⟨_, _, _, Pool.Ends.reaches (fun _ _ _ _ _ h => startsRequest_keeping h)
    ⟨_, hagrees, fun q => ?_⟩ hrun⟩
  obtain ⟨b, hb⟩ := hidle q
  rw [hb]
  exact c₀.shared.account_rest q

theorem settles_of_reaches {T : Fin n → Account} {r : Reply} (hagrees : c.shared.Agrees outer ops net T)
    (hkeeping : ∀ q, Keeping outer ops net q (c.thread q) (T q) fun _ => Account.Rest) (hrest : (T p).Rest)
    (hcall : Pool.Reaches Counted.sem (fun q s x => q ≠ p ∧ startsRequest q s x)
      ⟨update c.thread p req.prog, c.shared⟩ c')
    (hend : c'.thread p = .pure r) :
    ∃ T', c'.shared.Agrees outer ops net T' ∧ (T p).Settles req r (T' p) := by
  -- `p` ends as its request settles, the others as before
  set post : Fin n → Reply → Account → Prop := update (fun _ _ => Account.Rest) p ((T p).Settles req)
  have hself : post p = (T p).Settles req := update_self ..
  have hother : ∀ q, q ≠ p → post q = fun _ => Account.Rest := fun q hq => update_of_ne hq ..
  have hstarts : ∀ q s x b t, q ≠ p ∧ startsRequest q s x → post q b t →
      Keeping outer ops net q x t (post q) := by
    intro q s x b t hstart hq
    rw [hother q hstart.1] at hq ⊢
    exact startsRequest_keeping hstart.2 hq
  have hbegin : ∀ q, Keeping outer ops net q (update c.thread p req.prog q) (T q) (post q) := by
    intro q
    by_cases hq : q = p
    · subst hq
      rw [update_self, hself]
      exact req.keeping hrest fun _ _ h => h
    · rw [update_of_ne hq, hother q hq]
      exact hkeeping q
  obtain ⟨T', hagrees', hkeeping'⟩ := Pool.Ends.reaches
    (c := ⟨update c.thread p req.prog, c.shared⟩) hstarts ⟨T, hagrees, hbegin⟩ hcall
  have hp := hkeeping' p
  rw [hend, hself] at hp
  exact ⟨T', hagrees', hp⟩

end Runs

/-- In every interleaving of the calls, from any file system whose processes are between two calls, a call
that returns has left its caller the locks it had, which are none unless the call is `namei` or
`nameiparent`; it has left every transaction it has entered; and it has changed the reference counts by
what it has stored or returned. -/
theorem calls_balanced {c₀ c c' : CountedPool n} {p : Fin n} {req : Request} {a r : Reply}
    (hidle : ∀ q, ∃ b, c₀.thread q = .pure b) (hrest : c₀.shared.fs.AtRest)
    (hrun : Pool.Reaches Counted.sem startsRequest c₀ c) (hthread : c.thread p = .pure a)
    (hlocks : req.LooksUp ∨ ∀ i, c.shared.fs.lock i ≠ some p)
    (hcall : Pool.Reaches Counted.sem (fun q s x => q ≠ p ∧ startsRequest q s x)
      ⟨update c.thread p req.prog, c.shared⟩ c')
    (hend : c'.thread p = .pure r) :
    c.shared.Balanced c'.shared p req r ∧ (req.LooksUp ∨ ∀ i, c'.shared.fs.lock i ≠ some p) := by
  obtain ⟨outer, ops, net, T, hagrees, hkeeping⟩ := agrees_of_reaches hidle hrest hrun
  have hp : (T p).Rest := by
    have hp := hkeeping p
    rwa [hthread] at hp
  obtain ⟨T', hagrees', hsettles⟩ := settles_of_reaches hagrees hkeeping hp hcall hend
  have hlock : ∀ i, c'.shared.fs.lock i = some p ↔ c.shared.fs.lock i = some p := fun i => by
    rw [(hagrees'.holds.sound p).lock i, (hagrees.holds.sound p).lock i, hp.idle.held,
      (hsettles.rest hp).idle.held]
  refine ⟨hagrees.balanced hagrees' hp hsettles, hlocks.imp id fun hnone i => ?_⟩
  rw [ne_eq, hlock]
  exact hnone i

/-- One process between two calls, on an image with the file `f`. -/
def idlePool : CountedPool 1 :=
  ⟨fun _ => .pure (.int 0), { fs := oneFile.boot 1, ops := 0, net := 0, opened := fun _ => [] }⟩

/-- `open("f", O_RDONLY)` returns with one reference more, to the inode of `f`. -/
theorem calls_balanced_open :
    ∃ (c : CountedPool 1) (r : Reply), c.thread 0 = .pure r ∧ c.shared.net 0 2 = 1 ∧
      idlePool.shared.Balanced c.shared 0 (.open (some ([102], 0))) r := by
  obtain ⟨c, hsched, hc⟩ := Option.map_eq_some_iff.mp (show (Pool.sched Counted.exec (List.replicate 30 0)
        (⟨update idlePool.thread 0 (Request.open (some ([102], 0))).prog, idlePool.shared⟩ :
          CountedPool 1)).map
      (fun c => ((c.thread 0).nextOp, c.shared.net 0 2)) = some (none, 1) by decide +kernel)
  rw [Prod.mk.injEq] at hc
  cases hthread : c.thread 0 with
  | op o next =>
    rw [hthread] at hc
    cases hc.1
  | pure r =>
    refine ⟨c, r, hthread, hc.2, (calls_balanced (fun _ => ⟨_, rfl⟩) ⟨fun i => ?_, fun _ _ => rfl⟩ .refl
      rfl (Or.inr (by simp [idlePool, Image.boot]))
      (Pool.reaches_of_sched (fun _ _ _ _ _ h => h) _ hsched) hthread).1⟩
    by_cases hi : i = rootino <;> simp [idlePool, Image.boot, hi, eq_comm]

end Xv6.Fs
