import Xv6.Fs.Account
import Xv6.Fs.Components

/-!
# Every call follows the protocol and settles

One lemma per function of `fs.c`, `sysfile.c` and `exec.c`. A state of which only so much is known as of
`t` is one with the resources of `t` and at least its knowledge; a function's lemma starts from any such
state and says of which `t'` as much is known in the state it leaves.
-/

namespace Xv6.Fs

namespace Account

structure Le (t t' : Account) : Prop extends Same t t' where
  live : ∀ i ∈ t.held, i ∈ t.live → i ∈ t'.live
  dirs : ∀ d ∈ t.held, d ∈ t.dirs → d ∈ t'.dirs
  below : ∀ x ∈ t.below, x.1 ∈ t.held → x ∈ t'.below
  nondir : ∀ i ∈ t.refs, i ∈ t.nondir → i ∈ t'.nondir

structure Knows (t t' : Account) : Prop extends Le t t' where
  nodup : t'.held.Nodup

variable {t t₁ t₂ : Account} {ip dp : Inum}

theorem Le.refl : t.Le t :=
  ⟨⟨rfl, rfl, rfl, rfl, rfl, rfl⟩, fun _ _ h => h, fun _ _ h => h, fun _ h _ => h, fun _ _ h => h⟩

theorem Le.trans (h₁ : t.Le t₁) (h₂ : t₁.Le t₂) : t.Le t₂ where
  held := h₂.held.trans h₁.held
  refs := h₂.refs.trans h₁.refs
  cwd := h₂.cwd.trans h₁.cwd
  files := h₂.files.trans h₁.files
  ops := h₂.ops.trans h₁.ops
  opened := h₂.opened.trans h₁.opened
  live i hi h := h₂.live i (h₁.held ▸ hi) (h₁.live i hi h)
  dirs d hd h := h₂.dirs d (h₁.held ▸ hd) (h₁.dirs d hd h)
  below x hx h := h₂.below x (h₁.below x hx h) (h₁.held ▸ h)
  nondir i hi h := h₂.nondir i (h₁.refs ▸ hi) (h₁.nondir i hi h)

theorem Knows.of_le (h₁ : t.Le t₁) (h₂ : t₁.Knows t₂) : t.Knows t₂ := ⟨h₁.trans h₂.toLe, h₂.nodup⟩

theorem Knows.step (h₁ : t.Knows t₁) (h₂ : t₁.Le t₂) : t.Knows t₂ :=
  ⟨h₁.toLe.trans h₂, h₂.held ▸ h₁.nodup⟩

/-! ### What a process comes to have and to know -/

/-- The lock of `ip` in `acquiresleep`. Nothing is known of an inode before it is locked. -/
def shut (t : Account) (ip : Inum) : Account :=
  { t with
    held := ip :: t.held
    live := { i | i ∈ t.live ∧ i ∈ t.held }
    dirs := { d | d ∈ t.dirs ∧ d ∈ t.held }
    below := { x | x ∈ t.below ∧ x.1 ∈ t.held } }

/-- The lock of `ip` in `ilock`, which has found the inode allocated. -/
def lock (t : Account) (ip : Inum) : Account := { t.shut ip with live := insert ip (t.shut ip).live }

def dir (t : Account) (dp : Inum) : Account := { t with dirs := insert dp t.dirs }

def under (t : Account) (dp ip : Inum) : Account := { t with below := insert (dp, ip) t.below }

def plain (t : Account) (ip : Inum) : Account := { t with nondir := insert ip t.nondir }

/-- What `dirlookup` in `dp` leaves: an inode found by a name other than `.` and `..` is below. -/
def found (t : Account) (dp : Inum) (name : Name) : Option (Inum × Nat) → Account
  | none => t
  | some (ip, _) => if IsDot name then t.take ip else (t.take ip).under dp ip

theorem le_dir : t.Le (t.dir dp) := { Le.refl with dirs := fun _ _ => Or.inr }

theorem le_under : t.Le (t.under dp ip) := { Le.refl with below := fun _ h _ => Or.inr h }

theorem le_plain : t.Le (t.plain ip) := { Le.refl with nondir := fun _ _ => Or.inr }

theorem Le.take (h : t.Le t₁) : (t.take ip).Le (t₁.take ip) :=
  { h with
    refs := congrArg (ip ::ₘ ·) h.refs
    nondir := fun i _ hi => ⟨h.nondir i hi.2 hi.1, h.refs ▸ hi.2⟩ }

theorem Le.shut (h : t.Le t₁) : (t.shut ip).Le (t₁.shut ip) :=
  { h with
    held := congrArg (ip :: ·) h.held
    live := fun i _ hi => ⟨h.live i hi.2 hi.1, h.held ▸ hi.2⟩
    dirs := fun d _ hd => ⟨h.dirs d hd.2 hd.1, h.held ▸ hd.2⟩
    below := fun x hx _ => ⟨h.below x hx.1 hx.2, h.held ▸ hx.2⟩ }

theorem Le.lock (h : t.Le t₁) : (t.lock ip).Le (t₁.lock ip) :=
  { h.shut with
    live := fun i hi hlive => hlive.imp id fun hold => h.shut.live i hi hold }

theorem take_take_le : ((t.take ip).take dp).Le ((t.take dp).take ip) :=
  { Le.refl with
    refs := Multiset.cons_swap ip dp t.refs
    nondir := fun _ _ hi => ⟨hi.1, Multiset.mem_cons_of_mem hi.1.2⟩ }

theorem le_found {name : Name} {e : Inum × Nat} : (t.take e.1).Le ((t.dir dp).found dp name (some e)) := by
  unfold found
  split_ifs
  · exact le_dir.take
  · exact le_dir.take.trans le_under

theorem le_found_lock {name : Name} {e : Inum × Nat} :
    (((t.take e.1).take dp).lock dp).Le ((((t.take dp).lock dp).dir dp).found dp name (some e)) := by
  have hswap : (((t.take e.1).take dp).lock dp).Le (((t.take dp).lock dp).take e.1) := take_take_le.lock
  exact hswap.trans le_found

end Account

open Account

variable {α β : Type} {x : FsM α} {f : α → FsM β} {t t₁ : Account} {ip dp : Inum}

/-- From any state of which as much is known as of `t`, the code follows the protocol to `post`. -/
def Spec (x : FsM α) (t : Account) (post : α → Account → Prop) : Prop :=
  ∀ t₁, t.Knows t₁ → x.Obeys accountProtocol t₁ post

namespace Spec

variable {post : β → Account → Prop}

theorem weaken {post : α → Account → Prop} (hx : Spec x t post) (hle : t.Le t₁) : Spec x t₁ post :=
  fun t₂ h₂ => hx t₂ (.of_le hle h₂)

theorem mono {post post' : α → Account → Prop} (hx : Spec x t post)
    (hpost : ∀ a t', post a t' → post' a t') : Spec x t post' :=
  fun t₂ h₂ => (hx t₂ h₂).mono hpost

theorem ret {post : α → Account → Prop} {a : α} (hpost : ∀ t', t.Knows t' → post a t') :
    Spec (pure a) t post :=
  hpost

theorem ret_knows {a : α} : Spec (pure a) t fun _ => t.Knows := fun _ h => h

theorem panic {post : α → Account → Prop} {msg : Panic} : Spec (panic msg) t post :=
  fun _ _ => ⟨⟨trivial, trivial⟩, fun r => r.elim⟩

theorem nodup {post : α → Account → Prop} (hx : t.held.Nodup → Spec x t post) : Spec x t post :=
  fun t₁ h₁ => hx (h₁.held ▸ h₁.nodup) t₁ h₁

theorem seq {g : α → Account} (hx : Spec x t fun a => (g a).Knows) (hf : ∀ a, Spec (f a) (g a) post) :
    Spec (x >>= f) t post :=
  fun t₁ h₁ => (hx t₁ h₁).bind fun a t' h' => hf a t' h'

theorem op {o : Op} {f : o.Res → FsM β} {g : o.Res → Account} (hpre : ∀ t₁, t.Knows t₁ → Account.pre o t₁)
    (hnext : ∀ r t₁, t.Knows t₁ → Hold.res o t₁.toHold r → (g r).Knows (Account.next o t₁ r))
    (hf : ∀ r, Spec (f r) (g r) post) : Spec (atomic o >>= f) t post :=
  fun t₁ h₁ => ⟨hpre t₁ h₁, fun r hr => hf r _ (hnext r t₁ h₁ hr)⟩

theorem learn {o : Op} {f : o.Res → FsM β} (hpre : ∀ t₁, t.Knows t₁ → Account.pre o t₁)
    (hle : ∀ (t₁ : Account) r, t₁.Le (Account.next o t₁ r)) (hf : ∀ r, Spec (f r) t post) :
    Spec (atomic o >>= f) t post :=
  op hpre (fun r t₁ h₁ _ => h₁.step (hle t₁ r)) hf

end Spec

/-! ### Operations that only teach -/

theorem le_fields (f : InodeFields) : t.Le (Account.next (.fields ip) t f) :=
  { Le.refl with dirs := fun _ _ => Or.inl, nondir := fun _ _ => Or.inl }

theorem le_readDirent {off : Nat} (r : Option Dirent) : t.Le (Account.next (.readDirent ip off) t r) :=
  { Le.refl with below := fun _ h _ => Or.inl h }

theorem le_load (r : FileType) : t.Le (Account.next (.load ip) t r) :=
  { Le.refl with live := fun _ _ => Or.inl }

theorem le_ref (r : Nat) : t.Le (Account.next (.ref ip) t r) := { Le.refl with }

/-- Operations that change neither what a process has nor what it knows. -/
def Op.Quiet : Op → Prop
  | .cwd | .holdingsleep _ | .initInode _ _ _ | .addNlink _ _ | .readProgram _ | .fdalloc _ => True
  | _ => False

namespace Spec

variable {post : β → Account → Prop}

theorem fields {f : InodeFields → FsM β} (hf : ∀ r, Spec (f r) t post) : Spec (fields ip >>= f) t post :=
  .learn (fun _ _ => ⟨trivial, trivial⟩) (fun _ => le_fields) hf

theorem readDirent {off : Nat} {f : Option Dirent → FsM β} (hf : ∀ r, Spec (f r) t post) :
    Spec (readDirent ip off >>= f) t post :=
  .learn (fun _ _ => ⟨trivial, trivial⟩) (fun _ => le_readDirent) hf

theorem ref {f : Nat → FsM β} (hf : ∀ r, Spec (f r) t post) : Spec (atomic (.ref ip) >>= f) t post :=
  .learn (fun _ _ => ⟨trivial, trivial⟩) (fun _ => le_ref) hf

theorem quiet (o : Op) (ho : o.Quiet) {f : o.Res → FsM β} (hf : ∀ r, Spec (f r) t post) :
    Spec (atomic o >>= f) t post := by
  intro t₁ h₁
  cases o <;> first | exact ho.elim | exact ⟨⟨trivial, trivial⟩, fun r _ => hf r t₁ h₁⟩

end Spec

/-! ### The inode layer -/

theorem knows_take (h : t.Knows t₁) : (t.take ip).Knows { t₁ with refs := ip ::ₘ t₁.refs } :=
  ⟨{ h.toLe with
    refs := congrArg (ip ::ₘ ·) h.refs
    nondir := fun i _ hi => h.nondir i hi.2 hi.1 }, h.nodup⟩

theorem iget_spec : Spec (iget ip) t fun _ => (t.take ip).Knows := by
  refine .op (g := fun r => if r then t.take ip else t) (fun _ _ => ⟨trivial, trivial⟩)
    (fun r t₁ h₁ _ => ?_) fun r => ?_
  · cases r with
    | false => exact h₁
    | true => exact knows_take h₁
  · cases r with
    | false => exact .panic
    | true => exact .ret_knows

theorem knows_shut (h : t.Knows t₁) (hnot : ip ∉ t₁.held) {t₂ : Account} (hle : t₁.Le t₂) :
    (t.shut ip).Knows { t₂ with held := ip :: t₂.held } := by
  have hall := h.toLe.trans hle
  refine ⟨{ hall with
    held := congrArg (ip :: ·) hall.held
    live := fun i _ hi => hall.live i hi.2 hi.1
    dirs := fun d _ hd => hall.dirs d hd.2 hd.1
    below := fun x hx _ => hall.below x hx.1 hx.2 }, ?_⟩
  rw [hle.held]
  exact List.nodup_cons.mpr ⟨hnot, h.nodup⟩

theorem acquiresleep_spec {site : LockSite} (hwait : site = .ilock → t.MayWait ip) :
    Spec (acquiresleep site ip) t fun _ => (t.shut ip).Knows := by
  intro t₁ h₁
  have hmay : site = .ilock → t₁.MayWait ip := fun hsite d hd => by
    rw [h₁.held] at hd
    have hd' := hwait hsite d hd
    exact ⟨h₁.dirs d hd hd'.1, h₁.below _ hd'.2 hd⟩
  cases site with
  | ilock =>
    refine ⟨⟨hmay rfl, trivial⟩, fun r hr => ?_⟩
    cases r with
    | true => exact knows_shut h₁ (hr rfl) .refl
    | false => exact ⟨⟨hmay rfl, trivial⟩, fun _ hr => knows_shut h₁ hr .refl⟩
  | iput =>
    refine ⟨⟨trivial, trivial⟩, fun r hr => ?_⟩
    cases r with
    | true => exact knows_shut h₁ (hr rfl) .refl
    | false =>
      refine ⟨⟨fun d hd => ⟨.inr hd, .inr ⟨hd, rfl⟩⟩, trivial⟩, fun _ hr => ?_⟩
      exact knows_shut h₁ hr { Le.refl with dirs := fun _ _ => Or.inl, below := fun _ h _ => Or.inl h }

theorem ilock_spec (hwait : t.MayWait ip) : Spec (ilock ip) t fun _ => (t.lock ip).Knows := by
  refine .ref fun r => ?_
  split_ifs
  · exact .panic
  refine .seq (acquiresleep_spec fun _ => hwait) fun _ => ?_
  refine .op (g := fun type => if type = .free then t.shut ip else t.lock ip)
    (fun _ _ => ⟨trivial, trivial⟩) (fun type t₁ h₁ _ => ?_) fun type => ?_
  · split_ifs with htype
    · exact h₁.step (le_load type)
    · refine ⟨{ h₁.toLe with live := ?_ }, h₁.nodup⟩
      rintro i hi (rfl | hlive)
      · exact .inr ⟨rfl, h₁.held ▸ hi, htype⟩
      · exact .inl (h₁.live i hi hlive)
  · split_ifs
    · exact .panic
    · exact .ret_knows

def Account.unlocked (t : Account) (ip : Inum) : Account := Account.next (.unlock ip) t ()

theorem Account.Le.unlocked (h : t.Le t₁) : (t.unlocked ip).Le (t₁.unlocked ip) :=
  { h with
    held := congrArg (List.erase · ip) h.held
    live := fun i hi hlive => ⟨h.live i (List.mem_of_mem_erase hi) hlive.1, hlive.2⟩
    dirs := fun d hd hdir => ⟨h.dirs d (List.mem_of_mem_erase hd) hdir.1, hdir.2⟩
    below := fun x hx hd => ⟨h.below x hx.1 (List.mem_of_mem_erase hd), hx.2⟩ }

theorem releasesleep_spec (hmem : ip ∈ t.held) :
    Spec (releasesleep ip) t fun _ => (t.unlocked ip).Knows := fun t₁ h₁ =>
  ⟨⟨show ip ∈ t₁.held from h₁.held.symm ▸ hmem, trivial⟩, fun _ _ => ⟨h₁.toLe.unlocked, h₁.nodup.erase ip⟩⟩

theorem iunlock_spec (hmem : ip ∈ t.held) : Spec (iunlock ip) t fun _ => (t.unlocked ip).Knows := by
  refine .quiet (.holdingsleep ip) trivial fun b => ?_
  cases b with
  | false => exact .panic
  | true =>
    refine .ref fun r => ?_
    split_ifs
    · exact .panic
    · exact releasesleep_spec hmem

theorem le_unlocked_shut (hnot : ip ∉ t.held) : t.Le ((t.shut ip).unlocked ip) :=
  { Le.refl with
    held := List.erase_cons_head ..
    live := fun _ hi hlive => ⟨⟨hlive, hi⟩, fun heq => hnot (heq ▸ hi)⟩
    dirs := fun _ hd hdir => ⟨⟨hdir, hd⟩, fun heq => hnot (heq ▸ hd)⟩
    below := fun _ hx hd => ⟨⟨hx, hd⟩, fun heq => hnot (heq ▸ hd)⟩ }

theorem shut_le_lock : (t.shut ip).Le (t.lock ip) := { Le.refl with live := fun _ _ => Or.inr }

theorem le_unlocked (hnot : ip ∉ t.held) : t.Le ((t.lock ip).unlocked ip) :=
  (le_unlocked_shut hnot).trans shut_le_lock.unlocked

theorem iunlock_own : Spec (iunlock ip) (t.lock ip) fun _ => t.Knows :=
  .nodup fun hnodup => (iunlock_spec List.mem_cons_self).mono fun _ _ =>
    .of_le (le_unlocked (List.nodup_cons.mp hnodup).1)

theorem lock_le_unlocked (hnodup : ((t.lock dp).lock ip).held.Nodup) :
    (t.lock ip).Le (((t.lock dp).lock ip).unlocked dp) := by
  have hne : ip ≠ dp := by
    rintro rfl
    exact (List.nodup_cons.mp hnodup).1 List.mem_cons_self
  have hnot : dp ∉ t.held := (List.nodup_cons.mp (List.nodup_cons.mp hnodup).2).1
  have hother : ∀ i ∈ t.held, i ≠ dp := fun _ hi heq => hnot (heq ▸ hi)
  refine { Le.refl with held := ?_, live := ?_, dirs := ?_, below := ?_ }
  · change (ip :: dp :: t.held).erase dp = ip :: t.held
    rw [List.erase_cons_tail (by simpa using hne), List.erase_cons_head]
  · rintro i - (rfl | ⟨hlive, hi⟩)
    · exact ⟨.inl rfl, hne⟩
    · exact ⟨.inr ⟨.inr ⟨hlive, hi⟩, List.mem_cons_of_mem _ hi⟩, hother i hi⟩
  · rintro d - ⟨hdir, hd⟩
    exact ⟨⟨⟨hdir, hd⟩, List.mem_cons_of_mem _ hd⟩, hother d hd⟩
  · rintro x ⟨hx, hd⟩ -
    exact ⟨⟨⟨hx, hd⟩, List.mem_cons_of_mem _ hd⟩, hother _ hd⟩

def Account.dropped (t : Account) (ip : Inum) : Account := Account.next (.decRef ip) t ()

theorem release_spec {t₁ : Account} (hmem : ip ∈ t₁.held) (href : ip ∈ t₁.refs)
    (hle : t₁.held.Nodup → t.Le ((t₁.unlocked ip).dropped ip)) :
    Spec (do releasesleep ip; atomic (.decRef ip)) t₁ fun _ => t.Knows := by
  refine .nodup fun hnodup => .seq (releasesleep_spec hmem) fun _ t₂ h₂ => ?_
  refine ⟨⟨show ip ∈ t₂.refs from h₂.refs.symm ▸ href, trivial⟩, fun _ _ => .of_le (hle hnodup) ⟨{ h₂.toLe with
    refs := congrArg (Multiset.erase · ip) h₂.refs
    nondir := fun i hi hplain => ?_ }, h₂.nodup⟩⟩
  exact ⟨h₂.nondir i (Multiset.mem_of_mem_erase hi) hplain.1, h₂.refs ▸ hplain.2⟩

theorem le_released (hnot : ip ∉ t.held) : t.Le ((((t.take ip).shut ip).unlocked ip).dropped ip) :=
  { le_unlocked_shut hnot with
    refs := Multiset.erase_cons_head ..
    nondir := fun i hi hplain => by
      refine ⟨⟨hplain, hi⟩, ?_⟩
      change i ∈ (ip ::ₘ t.refs).erase ip
      rwa [Multiset.erase_cons_head] }

/-- An inode that is freed had no reference but the one that goes. -/
theorem le_released_ifree (hnot : ip ∉ t.held) (href : ip ∉ t.refs) :
    t.Le (((Account.next (.ifree ip) ((t.take ip).shut ip) ()).unlocked ip).dropped ip) := by
  have hle := le_released (t := t) hnot
  exact { hle with
    live := fun i hi h => ⟨⟨(hle.live i hi h).1, (hle.live i hi h).2⟩, (hle.live i hi h).2⟩
    dirs := fun d hd h => ⟨⟨(hle.dirs d hd h).1, (hle.dirs d hd h).2⟩, (hle.dirs d hd h).2⟩
    below := fun x hx h => ⟨⟨(hle.below x hx h).1, (hle.below x hx h).2⟩, (hle.below x hx h).2⟩
    nondir := fun i hi h => ⟨⟨(hle.nondir i hi h).1, fun heq => href (heq ▸ hi)⟩, (hle.nondir i hi h).2⟩ }

theorem iput_spec : Spec (iput ip) (t.take ip) fun _ => t.Knows := by
  have hnot : ((t.take ip).shut ip).held.Nodup → ip ∉ t.held := fun h => (List.nodup_cons.mp h).1
  have hend : Spec (do releasesleep ip; atomic (.decRef ip)) ((t.take ip).shut ip) fun _ => t.Knows :=
    release_spec List.mem_cons_self (Multiset.mem_cons_self ..) fun h => le_released (hnot h)
  refine .seq (acquiresleep_spec nofun) fun _ => ?_
  refine .fields fun f => ?_
  split_ifs with hdead
  · intro t₁ h₁
    refine ⟨⟨trivial, trivial⟩, fun r hr => ?_⟩
    have h₂ : ((t.take ip).shut ip).Knows (.next (.ref ip) t₁ r) := h₁.step (le_ref r)
    by_cases hone : r = 1
    · subst hone
      have href : ip ∉ t.refs := by
        have hcount : t₁.refs.count ip ≤ 1 := hr
        rw [h₁.refs] at hcount
        change (ip ::ₘ t.refs).count ip ≤ 1 at hcount
        rw [Multiset.count_cons_self] at hcount
        exact Multiset.count_eq_zero.mp (by omega)
      refine ⟨⟨.inr ⟨rfl, h₁.held ▸ List.mem_cons_self, h₁.refs ▸ Multiset.mem_cons_self .., rfl⟩,
        trivial⟩, fun _ _ => ?_⟩
      have hfreed : Spec (do releasesleep ip; atomic (.decRef ip))
          (.next (.ifree ip) ((t.take ip).shut ip) ()) fun _ => t.Knows :=
        release_spec List.mem_cons_self (Multiset.mem_cons_self ..) fun h => le_released_ifree (hnot h) href
      refine hfreed _ ⟨{ h₂.toLe with
          live := fun i hi h => ⟨h₂.live i hi h.1, h.2⟩
          dirs := fun d hd h => ⟨h₂.dirs d hd h.1, h.2⟩
          below := fun x hx h => ⟨h₂.below x hx.1 h, hx.2⟩
          nondir := fun i hi h => ⟨h₂.nondir i hi h.1, h.2⟩ }, h₂.nodup⟩
    · change Prog.Obeys _ (if r = 1 then _ else _) _ _
      rw [if_neg hone]
      exact hend _ h₂
  · exact hend

theorem iunlockput_spec : Spec (iunlockput ip) ((t.take ip).lock ip) fun _ => t.Knows :=
  .seq iunlock_own fun _ => iput_spec

theorem iunlockput_under : Spec (iunlockput dp) ((((t.take dp).lock dp).take ip).lock ip)
    fun _ => ((t.take ip).lock ip).Knows := by
  refine .nodup fun hnodup => .seq (iunlock_spec (List.mem_cons_of_mem _ List.mem_cons_self)) fun _ => ?_
  refine (iput_spec (t := (t.take ip).lock ip)).weaken ?_
  have hle : (((t.take dp).take ip).lock ip).Le
      (((((t.take dp).take ip).lock dp).lock ip).unlocked dp) := lock_le_unlocked hnodup
  have hswap : (((t.take ip).lock ip).take dp).Le (((t.take dp).take ip).lock ip) := take_take_le.lock
  exact hswap.trans hle

theorem ialloc_spec {type : FileType} (hheld : dp ∈ t.held) (hdir : dp ∈ t.dirs) :
    Spec (ialloc type) t fun ip => ((t.take ip).under dp ip).Knows := by
  refine .op (g := fun r => r.elim t (t.under dp)) (fun _ _ => ⟨trivial, trivial⟩)
    (fun r t₁ h₁ _ => ?_) fun r => ?_
  · cases r with
    | none => exact h₁.step { Le.refl with below := fun _ h _ => Or.inl h }
    | some ip =>
      refine ⟨{ h₁.toLe with below := ?_ }, h₁.nodup⟩
      rintro x (rfl | hx) hd
      · exact .inr ⟨h₁.dirs dp hheld hdir, rfl⟩
      · exact .inl (h₁.below x hx hd)
  · cases r with
    | none => exact .panic
    | some ip => exact .seq iget_spec fun _ => .ret fun _ h => h

/-! ### Directories and paths -/

theorem Account.Le.readDirent (h : t.Le t₁) (hheld : dp ∈ t.held) {off : Nat} (r : Option Dirent) :
    (Account.next (.readDirent dp off) t r).Le (Account.next (.readDirent dp off) t₁ r) :=
  { h with
    below := by
      rintro x (hx | ⟨hdp, hdir, hde⟩) hd
      · exact .inl (h.below x hx hd)
      · exact .inr ⟨hdp, h.dirs dp hheld hdir, hde⟩ }

variable {name : Name} {path : Path}

theorem dirlookupFrom_spec (hheld : dp ∈ t.held) (hdir : dp ∈ t.dirs) (k off : Nat) :
    Spec (dirlookupFrom dp name k off) t fun r => (t.found dp name r).Knows := by
  induction k generalizing off with
  | zero => exact .ret fun _ h => h
  | succ k ih =>
    refine .op (g := fun r => .next (.readDirent dp off) t r) (fun _ _ => ⟨trivial, trivial⟩)
      (fun r t₁ h₁ _ => ⟨h₁.toLe.readDirent hheld r, h₁.nodup⟩) fun r => ?_
    cases r with
    | none => exact .panic
    | some de =>
      dsimp only
      split_ifs with hfree hname
      · exact (ih _).weaken (le_readDirent _)
      · -- the entry read says that the inode is below, unless it is `.` or `..`
        refine .seq iget_spec fun _ => .ret fun _ => .of_le ?_
        have hle : (t.take de.inum).Le ((Account.next (.readDirent dp off) t (some de)).take de.inum) :=
          (le_readDirent (some de)).take
        unfold found
        split_ifs with hdot
        · exact hle
        · refine { hle with below := ?_ }
          rintro x (rfl | hx) hd
          · exact .inr ⟨rfl, hdir, de, rfl, rfl, hfree, hname ▸ hdot⟩
          · exact hle.below x hx hd
      · exact (ih _).weaken (le_readDirent _)

theorem dirlookup_spec (hheld : dp ∈ t.held) :
    Spec (dirlookup dp name) t fun r => ((t.dir dp).found dp name r).Knows := by
  refine .op (g := fun f => if f.type = .dir then t.dir dp else t) (fun _ _ => ⟨trivial, trivial⟩)
    (fun f t₁ h₁ _ => ?_) fun f => ?_
  · split_ifs with hdir
    · refine ⟨{ (h₁.step (le_fields f)).toLe with dirs := ?_ }, h₁.nodup⟩
      rintro d hd (rfl | hold)
      · exact .inr ⟨rfl, h₁.held.symm ▸ hheld, hdir⟩
      · exact .inl (h₁.dirs d hd hold)
    · exact h₁.step (le_fields f)
  · by_cases hdir : f.type = .dir
    · rw [if_neg (not_not.mpr hdir), if_pos hdir]
      exact dirlookupFrom_spec (t := t.dir dp) hheld (.inl rfl) _ _
    · rw [if_pos hdir]
      exact .panic

theorem emptyDirent_spec (k off : Nat) : Spec (emptyDirent dp k off) t fun _ => t.Knows := by
  induction k generalizing off with
  | zero => exact .ret_knows
  | succ k ih =>
    refine .readDirent fun r => ?_
    cases r with
    | none => exact .panic
    | some de =>
      dsimp only
      split_ifs
      · exact .ret_knows
      · exact ih _

/-- An entry may name an inode by `.` or `..`, or one below the directory, or one that is not a
directory. -/
theorem dirlink_spec {inum : Inum} (hheld : dp ∈ t.held)
    (hentry : IsDot name ∨ (dp, inum) ∈ t.below ∨ inum ∈ t.refs ∧ inum ∈ t.nondir) :
    Spec (dirlink dp name inum) t fun _ => t.Knows := by
  refine .seq (dirlookup_spec hheld) fun r => ?_
  cases r with
  | some found =>
    exact .weaken (.seq iput_spec fun _ => .ret_knows) le_found
  | none =>
    refine .fields fun f => ?_
    refine .seq (emptyDirent_spec _ _) fun off => .learn (fun t₁ h₁ => ?_) (fun _ _ => .refl) fun b => ?_
    · refine ⟨⟨h₁.dirs dp hheld (.inl rfl), fun _ => ?_⟩, trivial⟩
      rcases hentry with hdot | hbelow | ⟨hmem, hplain⟩
      · exact .inl hdot
      · exact .inr (.inl (h₁.below _ hbelow hheld))
      · exact .inr (.inr (h₁.nondir _ hmem hplain))
    · cases b with
      | false => exact .panic
      | true => exact .ret fun _ => .of_le le_dir

theorem isdiremptyFrom_spec (k off : Nat) : Spec (isdiremptyFrom dp k off) t fun _ => t.Knows := by
  induction k generalizing off with
  | zero => exact .ret_knows
  | succ k ih =>
    refine .readDirent fun r => ?_
    cases r with
    | none => exact .panic
    | some de =>
      dsimp only
      split_ifs
      · exact .ret_knows
      · exact ih _

theorem isdirempty_spec : Spec (isdirempty dp) t fun _ => t.Knows :=
  .fields fun _ => isdiremptyFrom_spec _ _

theorem mayWait_nil (hheld : t.held = []) : t.MayWait ip := by
  intro d hd
  rw [hheld] at hd
  cases hd

/-- A walk holds one lock at a time: `iunlockput` comes before the next `ilock`. -/
theorem namexElems_spec {parent : Bool} (hheld : t.held = []) (names : List Name) (ip : Inum) :
    Spec (namexElems parent names ip) (t.take ip) fun r => (t.taken (r.map Prod.fst)).Knows := by
  induction names generalizing ip with
  | nil =>
    cases parent with
    | false => exact .ret fun _ h => h
    | true => exact .seq iput_spec fun _ => .ret fun _ h => h
  | cons name rest ih =>
    have hstop : Spec (iunlockput ip >>= fun _ => pure none) ((t.take ip).lock ip)
        fun (r : Option (Inum × Name)) => (t.taken (r.map Prod.fst)).Knows :=
      .seq iunlockput_spec fun _ => .ret fun _ h => h
    refine .seq (ilock_spec (mayWait_nil hheld)) fun _ => ?_
    refine .fields fun f => ?_
    split_ifs with hdir hlast
    · exact hstop
    · exact .seq iunlock_own fun _ => .ret fun _ h => h
    · refine .seq (dirlookup_spec List.mem_cons_self) fun r => ?_
      cases r with
      | none => exact hstop.weaken le_dir
      | some found =>
        refine .weaken (t := ((t.take found.1).take ip).lock ip)
          (.seq iunlockput_spec fun _ => ih found.1) le_found_lock

theorem namex_spec {parent : Bool} (hheld : t.held = []) :
    Spec (namex path parent) t fun r => (t.taken (r.map Prod.fst)).Knows := by
  have hstart : Spec (namexStart path) t fun ip => (t.take ip).Knows := by
    unfold namexStart
    split_ifs
    · exact .seq iget_spec fun _ => .ret fun _ h => h
    · refine .quiet .cwd trivial fun ip => ?_
      exact .op (fun _ _ => ⟨trivial, trivial⟩) (fun _ _ h₁ _ => knows_take h₁) fun _ => .ret fun _ h => h
  rw [namex_eq]
  exact .seq hstart fun ip => namexElems_spec hheld (elems path) ip

theorem namei_spec (hheld : t.held = []) : Spec (namei path) t fun r => (t.taken r).Knows := by
  refine .seq (namex_spec hheld) fun r => ?_
  cases r with
  | none | some found => exact .ret fun _ h => h

/-! ### System calls -/

def Account.got (t : Account) (r : Option Inum) : Account := r.elim t fun ip => (t.take ip).lock ip

def Account.begun (t : Account) : Account := { t with ops := t.ops + 1 }

section Calls

variable {post : β → Account → Prop}

theorem beginOp_spec {f : Unit → FsM β} (hops : t.ops = 0) (hf : Spec (f ()) t.begun post) :
    Spec (beginOp >>= f) t post :=
  .op (g := fun _ => t.begun) (fun _ h₁ => ⟨trivial, h₁.ops.trans hops⟩)
    (fun _ _ h₁ _ => ⟨{ h₁.toLe with ops := congrArg (· + 1) h₁.ops }, h₁.nodup⟩) fun _ => hf

theorem endOp_spec {f : Unit → FsM β} (hops : t.ops = 0) (hf : Spec (f ()) t post) :
    Spec (endOp >>= f) t.begun post :=
  .op (g := fun _ => t) (fun _ h₁ => ⟨trivial, h₁.ops.trans (congrArg (· + 1) hops)⟩)
    (fun _ _ h₁ _ => ⟨{ h₁.toLe with ops := congrArg (· - 1) h₁.ops }, h₁.nodup⟩) fun _ => hf

theorem cwd_spec {f : Inum → FsM β} (hf : ∀ c, t.cwd = some c → Spec (f c) t post) :
    Spec (cwd >>= f) t post :=
  fun t₁ h₁ => ⟨⟨trivial, trivial⟩, fun c hc => hf c (h₁.cwd.symm.trans hc) t₁ h₁⟩

end Calls

theorem leave_spec (hops : t.ops = 0) (r : Int) :
    Spec (do endOp; pure r) t.begun fun r' t' => r' = r ∧ t.Knows t' :=
  endOp_spec hops (.ret fun _ h => ⟨rfl, h⟩)

theorem drop_spec (hops : t.ops = 0) (r : Int) :
    Spec (do iunlockput ip; endOp; pure r) ((t.begun.take ip).lock ip) fun r' t' => r' = r ∧ t.Knows t' :=
  .seq iunlockput_spec fun _ => leave_spec hops r

theorem createDots_spec (hheld : ip ∈ t.held) : Spec (createDots ip dp) t fun _ => t.Knows := by
  refine .seq (dirlink_spec hheld (.inl (.inl rfl))) fun b => ?_
  cases b with
  | false => exact .panic
  | true =>
    refine .seq (dirlink_spec hheld (.inl (.inr rfl))) fun b => ?_
    cases b with
    | false => exact .panic
    | true => exact .ret_knows

theorem create_dirlink_spec (hle : ((((t.take dp).lock dp).take ip).lock ip).Le t₁)
    (hbelow : (dp, ip) ∈ t₁.below) : Spec (do
      if ← dirlink dp name ip then do
        iunlockput dp
        pure (some ip)
      else
        panic .createDirlink) t₁ fun r => (t.got r).Knows := by
  have hheld : dp ∈ t₁.held := hle.held ▸ List.mem_cons_of_mem _ List.mem_cons_self
  refine .seq (dirlink_spec hheld (.inr (.inl hbelow))) fun b => ?_
  cases b with
  | false => exact .panic
  | true => exact .weaken (.seq iunlockput_under fun _ => .ret fun _ h => h) hle

theorem create_spec {type : FileType} {major minor : Int} (hheld : t.held = []) :
    Spec (create path type major minor) t fun r => (t.got r).Knows := by
  refine .seq (namex_spec hheld) fun r => ?_
  cases r with
  | none => exact .ret fun _ h => h
  | some parent =>
    obtain ⟨dp, name⟩ := parent
    refine .seq (ilock_spec (t := t.take dp) (mayWait_nil hheld)) fun _ => ?_
    refine .seq (dirlookup_spec List.mem_cons_self) fun r => ?_
    cases r with
    | some found =>
      refine .weaken (t := ((t.take found.1).take dp).lock dp) ?_ le_found_lock
      refine .seq iunlockput_spec fun _ => .seq (ilock_spec (mayWait_nil hheld)) fun _ => ?_
      refine .fields fun f => ?_
      split_ifs
      · exact .ret fun _ h => h
      · exact .seq iunlockput_spec fun _ => .ret fun _ h => h
    | none =>
      refine .seq (ialloc_spec (t := ((t.take dp).lock dp).dir dp) List.mem_cons_self (.inl rfl))
        fun ip => ?_
      set t₁ := ((((t.take dp).lock dp).dir dp).take ip).under dp ip with ht₁
      have hmay : t₁.MayWait ip := by
        intro d hd
        obtain rfl : d = dp := by simpa [ht₁, under, take, dir, lock, shut, hheld] using hd
        exact ⟨.inl rfl, .inl rfl⟩
      refine .seq (ilock_spec hmay) fun _ => ?_
      refine .quiet (.initInode ip major minor) trivial fun _ => ?_
      have hle : ((((t.take dp).lock dp).take ip).lock ip).Le (t₁.lock ip) :=
        (le_dir.take.trans le_under).lock
      have hbelow : (dp, ip) ∈ (t₁.lock ip).below := ⟨.inl rfl, List.mem_cons_self⟩
      split_ifs
      · refine .quiet (.addNlink dp 1) trivial fun _ => ?_
        exact .seq (createDots_spec List.mem_cons_self) fun _ => create_dirlink_spec hle hbelow
      · exact create_dirlink_spec hle hbelow

theorem openExisting_spec {omode : UInt32} (hheld : t.held = []) :
    Spec (openExisting path omode) t fun r => (t.got r).Knows := by
  refine .seq (namei_spec hheld) fun r => ?_
  cases r with
  | none => exact .ret fun _ h => h
  | some ip =>
    refine .seq (ilock_spec (t := t.take ip) (mayWait_nil hheld)) fun _ => ?_
    refine .fields fun f => ?_
    split_ifs
    · exact .seq iunlockput_spec fun _ => .ret fun _ h => h
    · exact .ret fun _ h => h

/-- A file that has not been set up has no inode, so closing it takes no lock. -/
theorem fileclose_spec {f : Nat} (hfiles : t.files = {f}) :
    Spec (fileclose f) t fun _ => Knows { t with files := ∅ } := by
  have hnext : ∀ t₁, t.Knows t₁ → Knows { t with files := ∅ } { t₁ with files := t₁.files \ {f} } := by
    intro t₁ h₁
    refine ⟨{ h₁.toLe with files := ?_ }, h₁.nodup⟩
    change t₁.files \ {f} = ∅
    rw [h₁.files, hfiles, Set.sdiff_self]
  refine fun t₁ h₁ => ⟨⟨show f ∈ t₁.files by rw [h₁.files, hfiles]; rfl, trivial⟩, fun r hr => ?_⟩
  cases r with
  | bad => exact Spec.panic _ (hnext t₁ h₁)
  | kept => exact hnext t₁ h₁
  | last ff =>
    obtain ⟨ip, off, readable, writable⟩ := ff
    obtain rfl : ip = none := hr
    exact hnext t₁ h₁

def Account.Opened (t : Account) (r : Int) (t' : Account) : Prop :=
  r = -1 ∧ t.Same t' ∨ ∃ (fd : Nat) (f : Nat) (ip : Inum), r = fd ∧
    Same { t.take ip with opened := (f, ip) :: t.opened } t'

section

variable (hrest : t.Rest)
include hrest

theorem openFile_spec {omode : UInt32} : Spec (openFile ip omode) ((t.begun.take ip).lock ip) t.Opened := by
  have hfail : ∀ (r : Int) t', r = -1 ∧ t.Knows t' → t.Opened r t' :=
    fun _ _ h => .inl ⟨h.1, h.2.toSame⟩
  have hfiles : t.files = ∅ := hrest.idle.files
  -- the account with the file that is being set up
  set t₁ : Nat → Account := fun f => { (t.begun.take ip).lock ip with files := {f} } with ht₁
  have hclosed : ∀ f, { t₁ f with files := ∅ } = (t.begun.take ip).lock ip := by
    intro f
    rw [ht₁, ← hfiles]
    rfl
  refine .op (g := fun r => r.elim ((t.begun.take ip).lock ip) t₁) (fun _ _ => ⟨trivial, trivial⟩)
    (fun r t₂ h₂ _ => ?_) fun r => ?_
  · have hfiles₂ : t₂.files = ∅ := h₂.files.trans hfiles
    cases r with
    | none =>
      refine ⟨{ h₂.toLe with files := ?_ }, h₂.nodup⟩
      change t₂.files ∪ _ = t.files
      rw [hfiles₂, hfiles]
      simp
    | some f =>
      refine ⟨{ h₂.toLe with files := ?_ }, h₂.nodup⟩
      change t₂.files ∪ { g | some f = some g } = {f}
      rw [hfiles₂]
      ext g
      simp [eq_comm]
  · cases r with
    | none => exact (drop_spec hrest.ops (-1)).mono hfail
    | some f =>
      refine .quiet (.fdalloc f) trivial fun r => ?_
      cases r with
      | none =>
        refine .seq (fileclose_spec (t := t₁ f) rfl) fun _ => ?_
        rw [hclosed]
        exact (drop_spec hrest.ops (-1)).mono hfail
      | some fd =>
        refine .seq (iunlock_own (t := { t.begun.take ip with files := {f} })) fun _ => ?_
        refine endOp_spec (t := { t.take ip with files := {f} }) hrest.ops ?_
        refine fun t₃ h₃ => ⟨⟨show f ∈ t₃.files by rw [h₃.files]; rfl, trivial⟩, fun _ _ => ?_⟩
        refine .inr ⟨fd, f, ip, rfl, { h₃.toSame with files := ?_, opened := ?_ }⟩
        · change t₃.files \ {f} = t.files
          rw [h₃.files, hfiles, Set.sdiff_self]
        · exact congrArg ((f, ip) :: ·) h₃.opened

variable {path : Path}

theorem sysOpen_spec {omode : UInt32} : Spec (sysOpen path omode) t t.Opened := by
  have hnone : Spec (do endOp; pure (-1)) (t.begun.got none) t.Opened :=
    (leave_spec hrest.ops (-1)).mono fun _ _ h => .inl ⟨h.1, h.2.toSame⟩
  refine beginOp_spec hrest.ops ?_
  split_ifs
  · refine .seq (create_spec hrest.idle.held) fun r => ?_
    cases r with
    | none => exact hnone
    | some ip => exact openFile_spec hrest
  · refine .seq (openExisting_spec hrest.idle.held) fun r => ?_
    cases r with
    | none => exact hnone
    | some ip => exact openFile_spec hrest

theorem leave_knows {r : Int} : Spec (do endOp; pure r) t.begun fun _ => t.Knows :=
  (leave_spec hrest.ops r).mono fun _ _ h => h.2

theorem drop_knows {r : Int} :
    Spec (do iunlockput ip; endOp; pure r) ((t.begun.take ip).lock ip) fun _ => t.Knows :=
  (drop_spec hrest.ops r).mono fun _ _ h => h.2

theorem create_drop_spec {type : FileType} {major minor : Int} : Spec (do
      beginOp
      match ← create path type major minor with
      | none => do
          endOp
          pure (-1)
      | some ip => do
          iunlockput ip
          endOp
          pure (0 : Int)) t fun _ => t.Knows := by
  refine beginOp_spec hrest.ops (.seq (create_spec hrest.idle.held) fun r => ?_)
  cases r with
  | none => exact leave_knows hrest
  | some ip => exact drop_knows hrest

theorem linkBad_spec : Spec (linkBad ip) (t.begun.take ip) fun _ => t.Knows := by
  refine .seq (ilock_spec (mayWait_nil hrest.idle.held)) fun _ => ?_
  refine .quiet (.addNlink ip (-1)) trivial fun _ => ?_
  exact drop_knows hrest

theorem sysLink_spec {old new : Path} : Spec (sysLink old new) t fun _ => t.Knows := by
  have hheld : t.begun.held = [] := hrest.idle.held
  refine beginOp_spec hrest.ops (.seq (namei_spec hheld) fun r => ?_)
  cases r with
  | none => exact leave_knows hrest
  | some ip =>
    -- `ilock` has found an inode, so one that is no directory may be linked
    refine .seq (ilock_spec (t := t.begun.take ip) (mayWait_nil hheld)) fun _ => ?_
    refine .op (g := fun f => if f.type = .dir then (t.begun.take ip).lock ip else
        ((t.begun.take ip).plain ip).lock ip) (fun _ _ => ⟨trivial, trivial⟩) (fun f t₁ h₁ hf => ?_)
      fun f => ?_
    · split_ifs with hdir
      · exact h₁.step (le_fields f)
      · refine ⟨{ (h₁.step (le_fields f)).toLe with nondir := ?_ }, h₁.nodup⟩
        rintro i hi (rfl | hold)
        · exact .inr ⟨rfl, h₁.held.symm ▸ List.mem_cons_self, h₁.refs.symm ▸ hi, hdir,
            hf (h₁.live i List.mem_cons_self (.inl rfl))⟩
        · exact .inl (h₁.nondir i hi hold)
    split_ifs with hdir
    · exact drop_knows hrest
    refine .quiet (.addNlink ip 1) trivial fun _ => ?_
    refine .seq (iunlock_own (t := (t.begun.take ip).plain ip)) fun _ => ?_
    refine .seq (namex_spec hheld) fun r => ?_
    cases r with
    | none => exact (linkBad_spec hrest).weaken le_plain
    | some parent =>
      obtain ⟨dp, name⟩ := parent
      refine .seq (ilock_spec (t := ((t.begun.take ip).plain ip).take dp) (mayWait_nil hheld)) fun _ => ?_
      refine .seq (dirlink_spec List.mem_cons_self (.inr (.inr
        ⟨Multiset.mem_cons_of_mem (Multiset.mem_cons_self ..), .inl rfl,
          Multiset.mem_cons_self ..⟩))) fun b => ?_
      cases b with
      | false => exact .seq iunlockput_spec fun _ => (linkBad_spec hrest).weaken le_plain
      | true =>
        refine .seq iunlockput_spec fun _ => .weaken (.seq iput_spec fun _ => ?_) le_plain
        exact leave_knows hrest

theorem unlinkEntry_spec {off : Nat} {type : FileType}
    (hle : ((((t.begun.take dp).lock dp).take ip).lock ip).Le t₁) (hdir : dp ∈ t₁.dirs) :
    Spec (unlinkEntry dp ip off type) t₁ fun _ => t.Knows := by
  have hheld : dp ∈ t₁.held := hle.held ▸ List.mem_cons_of_mem _ List.mem_cons_self
  have hend : Spec (do iunlockput dp; addNlink ip (-1); iunlockput ip; endOp; pure (0 : Int)) t₁
      fun _ => t.Knows := by
    refine .weaken (.seq iunlockput_under fun _ => ?_) hle
    refine .quiet (.addNlink ip (-1)) trivial fun _ => ?_
    exact drop_knows hrest
  refine .learn (fun _ h₁ => ⟨⟨h₁.dirs dp hheld hdir, nofun⟩, trivial⟩) (fun _ _ => .refl) fun b => ?_
  cases b with
  | false => exact .panic
  | true =>
    rw [if_pos rfl]
    split_ifs
    · exact .quiet (.addNlink dp (-1)) trivial fun _ => hend
    · exact hend

theorem sysUnlink_spec : Spec (sysUnlink path) t fun _ => t.Knows := by
  have hheld : t.begun.held = [] := hrest.idle.held
  refine beginOp_spec hrest.ops (.seq (namex_spec hheld) fun r => ?_)
  cases r with
  | none => exact leave_knows hrest
  | some parent =>
    obtain ⟨dp, name⟩ := parent
    have hbad : Spec (unlinkBad dp) ((t.begun.take dp).lock dp) fun _ => t.Knows :=
      drop_knows hrest
    refine .seq (ilock_spec (t := t.begun.take dp) (mayWait_nil hheld)) fun _ => ?_
    split_ifs with hdot
    · exact hbad
    refine .seq (dirlookup_spec List.mem_cons_self) fun r => ?_
    cases r with
    | none => exact hbad.weaken le_dir
    | some found =>
      obtain ⟨ip, off⟩ := found
      set t₁ := ((((t.begun.take dp).lock dp).dir dp).take ip).under dp ip with ht₁
      have hfound : (((t.begun.take dp).lock dp).dir dp).found dp name (some (ip, off)) = t₁ :=
        if_neg hdot
      rw [hfound]
      have hle : ((((t.begun.take dp).lock dp).take ip).lock ip).Le (t₁.lock ip) :=
        (le_dir.take.trans le_under).lock
      have hdir : dp ∈ (t₁.lock ip).dirs := ⟨.inl rfl, List.mem_cons_self⟩
      have hmay : t₁.MayWait ip := by
        intro d hd
        obtain rfl : d = dp := by simpa [ht₁, under, take, dir, lock, shut, hheld] using hd
        exact ⟨.inl rfl, .inl rfl⟩
      refine .seq (ilock_spec hmay) fun _ => ?_
      refine .fields fun f => ?_
      split_ifs
      · exact .panic
      · refine .seq isdirempty_spec fun b => ?_
        cases b with
        | true => exact unlinkEntry_spec hrest hle hdir
        | false => exact .weaken (.seq iunlockput_spec fun _ => hbad) hle
      · exact unlinkEntry_spec hrest hle hdir

def Account.Moved (t : Account) (r : Int) (t' : Account) : Prop :=
  r = -1 ∧ t.Same t' ∨ ∃ c ip, r = 0 ∧ t.cwd = some c ∧
    Same { t with cwd := some ip, refs := ip ::ₘ t.refs.erase c } t'

theorem sysChdir_spec : Spec (sysChdir path) t t.Moved := by
  have hfail : ∀ (r : Int) t', r = -1 ∧ t.Knows t' → t.Moved r t' :=
    fun _ _ h => .inl ⟨h.1, h.2.toSame⟩
  have hheld : t.begun.held = [] := hrest.idle.held
  refine beginOp_spec hrest.ops (.seq (namei_spec hheld) fun r => ?_)
  cases r with
  | none => exact (leave_spec hrest.ops (-1)).mono hfail
  | some ip =>
    refine .seq (ilock_spec (t := t.begun.take ip) (mayWait_nil hheld)) fun _ => ?_
    refine .fields fun f => ?_
    split_ifs
    · exact (drop_spec hrest.ops (-1)).mono hfail
    refine .seq (iunlock_own (t := t.begun.take ip)) fun _ => cwd_spec fun c hc => ?_
    -- the reference of the old current directory is given up
    have hmem : c ∈ t.refs := hrest.idle.cwd c hc
    set t₁ : Account := { t with refs := t.refs.erase c } with ht₁
    have hle : ((t₁.begun.take ip).take c).Le (t.begun.take ip) :=
      { Le.refl with
        refs := by
          change ip ::ₘ t.refs = c ::ₘ ip ::ₘ t.refs.erase c
          rw [Multiset.cons_swap, Multiset.cons_erase hmem]
        nondir := fun i _ hi => ⟨hi.1.1, Multiset.mem_of_mem_erase hi.1.2⟩ }
    refine .weaken (.seq iput_spec fun _ => ?_) hle
    refine endOp_spec (t := t₁.take ip) hrest.ops ?_
    intro t₂ h₂
    exact ⟨⟨trivial, trivial⟩, fun _ _ => .inr ⟨c, ip, rfl, hc, { h₂.toSame with cwd := rfl }⟩⟩

theorem execInode_spec : Spec (execInode path) t fun _ => t.Knows := by
  have hheld : t.begun.held = [] := hrest.idle.held
  refine beginOp_spec hrest.ops (.seq (namei_spec hheld) fun r => ?_)
  cases r with
  | none => exact leave_knows hrest
  | some ip =>
    refine .seq (ilock_spec (t := t.begun.take ip) (mayWait_nil hheld)) fun _ => ?_
    refine .quiet (.readProgram ip) trivial fun _ => ?_
    exact drop_knows hrest

theorem exec_spec {tests : ExecTests} : Spec (exec tests path) t fun _ => t.Knows := by
  have hheld : t.begun.held = [] := hrest.idle.held
  have hbad : ∀ ip, Spec (execBad (some ip)) ((t.begun.take ip).lock ip) fun _ => t.Knows :=
    fun _ => drop_knows hrest
  refine beginOp_spec hrest.ops (.seq (namei_spec hheld) fun r => ?_)
  cases r with
  | none => exact leave_knows hrest
  | some ip =>
    refine .seq (ilock_spec (t := t.begun.take ip) (mayWait_nil hheld)) fun _ => ?_
    split_ifs
    · exact hbad ip
    · exact hbad ip
    · exact hbad ip
    · refine .seq iunlockput_spec fun _ => endOp_spec hrest.ops ?_
      unfold execStack
      split_ifs <;> exact .ret_knows

end

/-! ### Every request -/

theorem intReply_spec {x : FsM Int} {post : Reply → Account → Prop}
    (hx : Spec x t fun r => post (.int r)) : Spec (intReply x) t post :=
  fun t₁ h₁ => (hx t₁ h₁).bind fun _ _ h => h

theorem refused_spec : Spec refused t fun r t' => r = -1 ∧ t.Knows t' := fun _ h => ⟨rfl, h⟩

theorem refusedInOp_spec (hops : t.ops = 0) : Spec refusedInOp t fun r t' => r = -1 ∧ t.Knows t' :=
  beginOp_spec hops (leave_spec hops (-1))

theorem Request.prog_settles (req : Request) (hrest : t.Rest) : Spec req.prog t (t.Settles req) := by
  -- what the refused calls and the calls that leave nothing have to show
  have hrefused := (refused_spec (t := t)).mono fun _ _ h => h.2
  have hinop := (refusedInOp_spec hrest.ops).mono fun _ _ h => h.2
  have hsame : ∀ {x : FsM Int}, Spec x t (fun _ => t.Knows) → Spec (intReply x) t fun _ => t.Same :=
    fun hx => intReply_spec (hx.mono fun _ _ h => h.toSame)
  match req with
  | .open (some (path, omode)) =>
    refine intReply_spec ((sysOpen_spec hrest).mono ?_)
    rintro _ t' (⟨rfl, h⟩ | ⟨fd, f, ip, rfl, h⟩)
    · exact .inl ⟨rfl, h⟩
    · exact .inr ⟨fd, f, ip, rfl, h⟩
  | .open none => exact intReply_spec (refused_spec.mono fun _ _ h => .inl ⟨h.1 ▸ rfl, h.2.toSame⟩)
  | .link (some (old, new)) => exact hsame (sysLink_spec hrest)
  | .link none => exact hsame hrefused
  | .unlink (some path) => exact hsame (sysUnlink_spec hrest)
  | .unlink none => exact hsame hrefused
  | .mkdir (some path) => exact hsame (create_drop_spec hrest)
  | .mkdir none => exact hsame hinop
  | .mknod (some (path, major, minor)) => exact hsame (create_drop_spec hrest)
  | .mknod none => exact hsame hinop
  | .chdir (some path) =>
    refine intReply_spec ((sysChdir_spec hrest).mono ?_)
    rintro _ t' (⟨rfl, h⟩ | ⟨c, ip, rfl, hc, h⟩)
    · exact .inl ⟨rfl, h⟩
    · exact .inr ⟨c, ip, rfl, hc, h⟩
  | .chdir none =>
    exact intReply_spec ((refusedInOp_spec hrest.ops).mono fun _ _ h =>
      .inl ⟨h.1 ▸ rfl, h.2.toSame⟩)
  | .exec tests path => exact hsame (exec_spec hrest)
  | .namei path => exact .seq (namei_spec hrest.idle.held) fun r => .ret fun _ h => ⟨r, rfl, h.toSame⟩
  | .nameiparent path =>
    exact .seq (namex_spec hrest.idle.held) fun r => .ret fun _ h => ⟨_, rfl, h.toSame⟩

namespace Account

variable {t' : Account}

theorem Same.rest (h : t.Same t') (hrest : t.Rest) : t'.Rest where
  idle := {
    held := h.held.trans hrest.idle.held
    files := h.files.trans hrest.idle.files
    cwd := fun c hc => h.refs ▸ hrest.idle.cwd c (h.cwd ▸ hc) }
  ops := h.ops.trans hrest.ops

theorem Rest.take (hrest : t.Rest) : (t.take ip).Rest where
  idle := { hrest.idle with cwd := fun c hc => Multiset.mem_cons_of_mem (hrest.idle.cwd c hc) }
  ops := hrest.ops

theorem Rest.taken (hrest : t.Rest) (r : Option Inum) : (t.taken r).Rest := by
  cases r with
  | none => exact hrest
  | some ip => exact hrest.take

theorem Opened.rest {r : Int} (h : t.Opened r t') (hrest : t.Rest) : t'.Rest := by
  obtain ⟨-, h⟩ | ⟨fd, f, ip, -, h⟩ := h
  · exact h.rest hrest
  · exact h.rest ⟨{ hrest.take.idle with }, hrest.ops⟩

theorem Moved.rest {r : Int} (h : t.Moved r t') (hrest : t.Rest) : t'.Rest := by
  obtain ⟨-, h⟩ | ⟨c, ip, -, -, h⟩ := h
  · exact h.rest hrest
  · refine h.rest ⟨{ hrest.idle with cwd := fun d hd => ?_ }, hrest.ops⟩
    obtain rfl : ip = d := by simpa using hd
    exact Multiset.mem_cons_self ..

theorem Settles.rest {req : Request} {r : Reply} (h : t.Settles req r t') (hrest : t.Rest) : t'.Rest := by
  cases req with
  | «open» args =>
    obtain h | ⟨fd, f, ip, -, h⟩ := h
    · exact h.2.rest hrest
    · exact Opened.rest (Or.inr ⟨fd, f, ip, rfl, h⟩) hrest
  | chdir path =>
    obtain h | ⟨c, ip, -, hc, h⟩ := h
    · exact h.2.rest hrest
    · exact Moved.rest (Or.inr ⟨c, ip, rfl, hc, h⟩) hrest
  | namei path | nameiparent path =>
    obtain ⟨ip, -, h⟩ := h
    exact h.rest (hrest.taken ip)
  | link | unlink | mkdir | mknod | exec => exact Same.rest h hrest

end Account

/-! ### The lock protocol -/

def Call.UsesPath : Call → Prop
  | .open _ _ | .mkdir _ | .mknod _ _ _ | .link _ _ | .unlink _ | .chdir _ | .exec _ => True
  | .close _ | .write _ _ | .exit => False

theorem Call.prog_spec {call : Call} (hcall : call.UsesPath) (hrest : t.Rest) :
    Spec call.prog t fun _ t' => t'.Rest := by
  have hknows : ∀ {x : FsM Int}, Spec x t (fun _ => t.Knows) → Spec x t fun _ t' => t'.Rest :=
    fun hx => hx.mono fun _ _ h => h.toSame.rest hrest
  cases call with
  | «open» path omode => exact (sysOpen_spec hrest).mono fun _ _ h => h.rest hrest
  | mkdir path | mknod path major minor => exact hknows (create_drop_spec hrest)
  | link old new => exact hknows (sysLink_spec hrest)
  | unlink path => exact hknows (sysUnlink_spec hrest)
  | chdir path => exact (sysChdir_spec hrest).mono fun _ _ h => h.rest hrest
  | exec path => exact hknows (execInode_spec hrest)
  | close fd | write fd src | exit => exact hcall.elim

theorem Call.prog_obeys {call : Call} (hcall : call.UsesPath) {l : Hold} (hidle : l.Idle) :
    call.prog.Obeys lockProtocol l fun _ => Hold.Idle := by
  set t : Account := { l with ops := 0, opened := [] } with ht
  have hobeys := Call.prog_spec hcall (t := t) ⟨hidle, rfl⟩ t ⟨.refl, hidle.held ▸ List.nodup_nil⟩
  exact hobeys.project Account.toHold (fun o l (h : Account.pre o l) => h.1) (fun _ _ _ h => h) (fun _ _ _ => rfl)
    fun _ _ h => h.idle

end Xv6.Fs
