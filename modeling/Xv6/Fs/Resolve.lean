import Xv6.Fs.Components
import Xv6.Fs.OneCopy
import Xv6.Lib.Count
import Mathlib.Data.Multiset.AddSub

/-!
# Path resolution

What a path means: its components, looked up one after another. A walk by `namex` ends at the inode
they lead to.
-/

namespace Xv6.Fs

open Function (update update_self update_of_ne update_idem update_eq_self)

/-! ### Looking up -/

namespace State

variable {n : Nat} (s : State n)

/-- The inode that the first entry with this name leads to; nothing is found in an inode that is no
directory. -/
def lookup (d : Inum) (x : Name) : Option Inum :=
  if (s.ino d).type = .dir then
    ((s.ino d).dents.find? fun de => de.inum ≠ 0 ∧ x = de.name).map Dirent.inum
  else
    none

def resolve : Inum → List Name → Option Inum
  | i, [] => some i
  | i, x :: xs => (s.lookup i x).bind fun j => resolve j xs

/-- The directory that all names but the last lead to, with the last name. -/
def resolveParent (i : Inum) (names : List Name) : Option (Inum × Name) :=
  (names.getLast?).bind fun x => (s.resolve i names.dropLast).bind fun d =>
    if (s.ino d).type = .dir then some (d, x) else none

def start (p : Fin n) (path : Path) : Option Inum :=
  if path.head? = some slash then some rootino else s.cwd p

/-- An inode that a walk may use: allocated, unlocked, and with a link or a reference that stays. -/
structure Sound (i : Inum) : Prop where
  type : (s.ino i).type ≠ .free
  lock : s.lock i = none
  kept : (s.ino i).nlink ≠ 0 ∨ 0 < s.ref i

/-- The inodes in which names are looked up are sound. -/
def Passes : Inum → List Name → Prop
  | _, [] => True
  | i, x :: xs => s.Sound i ∧ ∀ j, s.lookup i x = some j → Passes j xs

/-- The one way in which a walk does not return: a cache with less than two free entries. -/
def Full (o : Op) (_ : State n) : Prop := o = .panic .igetNoInodes ∧ ninode < s.active + 2

/-- Nothing but counts, `valid` flags and the locks `l` differs, and `m` has been referenced. -/
structure Walk (l : Inum → Option (Fin n)) (m : Multiset Inum) (s₁ : State n) : Prop where
  ninodes : s₁.ninodes = s.ninodes
  ino : s₁.ino = s.ino
  cwd : s₁.cwd = s.cwd
  lock : s₁.lock = l
  ref : ∀ i, s₁.ref i = s.ref i + m.count i

theorem walk_refl : s.Walk s.lock 0 s := ⟨rfl, rfl, rfl, rfl, fun _ => rfl⟩

end State

section Walk

variable {n : Nat} {p : Fin n} {s s₁ s₂ : State n} {ip : Inum} {l : Inum → Option (Fin n)}
  {m : Multiset Inum} {α : Type}

open State

abbrev State.Runs (s : State n) (p : Fin n) (x : FsM α) (post : α → State n → Prop) (s₁ : State n) : Prop :=
  x.wp (State.exec p) s.Full post s₁

theorem State.Runs.step (o : Op) (r : o.Res × State n) {f : o.Res → FsM α} {post : α → State n → Prop}
    (hexec : State.exec p o s₁ = some r) (hf : s.Runs p (f r.1) post r.2) :
    s.Runs p (atomic o >>= f) post s₁ :=
  Prog.wp_step o r hexec hf

theorem State.Runs.seq {β : Type} {x : FsM α} {f : α → FsM β} {mid : α → State n → Prop}
    {post : β → State n → Prop} (hx : s.Runs p x mid s₁)
    (hf : ∀ a s₂, mid a s₂ → s.Runs p (f a) post s₂) : s.Runs p (x >>= f) post s₁ :=
  Prog.wp_seq hx hf

theorem State.Walk.active_le (hwalk : s.Walk l {ip} s₁) : s₁.active ≤ s.active + 1 := by
  unfold State.active
  rw [hwalk.ninodes, countP_eq_card, countP_eq_card]
  refine (Finset.card_le_card fun i hi => ?_).trans (Finset.card_insert_le ip _)
  by_cases hip : i = ip
  · exact Finset.mem_insert.mpr (.inl hip)
  obtain ⟨hrange, hpos⟩ := Finset.mem_filter.mp hi
  have hget : (List.range s.ninodes)[i]? = some i := by
    rw [List.length_range, Finset.mem_range] at hrange
    exact List.getElem?_range hrange
  rw [hget, Option.any_some, hwalk.ref, Multiset.count_singleton, if_neg hip] at hpos
  refine Finset.mem_insert_of_mem (Finset.mem_filter.mpr ⟨hrange, ?_⟩)
  rw [hget, Option.any_some]
  exact hpos

theorem iget_walks (hwalk : s.Walk l m s₁) (hroom : s₁.active ≤ s.active + 1) :
    s.Runs p (iget ip) (fun _ => s.Walk l (ip ::ₘ m)) s₁ := by
  have hnext : ∀ v, s.Walk l (ip ::ₘ m) { s₁.setRef ip (s₁.ref ip + 1) with valid := v } := by
    refine fun v => ⟨hwalk.ninodes, hwalk.ino, hwalk.cwd, hwalk.lock, fun i => ?_⟩
    change update s₁.ref ip (s₁.ref ip + 1) i = _
    by_cases hi : i = ip
    · subst hi
      rw [update_self, Multiset.count_cons_self, hwalk.ref]
      rfl
    · rw [update_of_ne hi, Multiset.count_cons_of_ne hi, hwalk.ref]
  by_cases hpos : 0 < s₁.ref ip
  · refine .step (.igetEntry ip) (true, s₁.setRef ip (s₁.ref ip + 1)) ?_ (hnext s₁.valid)
    simp [State.exec, State.igetEntry, hpos]
  have hzero : s₁.ref ip = 0 := by omega
  by_cases hfree : s₁.active < ninode
  · refine .step (.igetEntry ip) (true, (s₁.setRef ip 1).setValid ip false) ?_ ?_
    · simp [State.exec, State.igetEntry, hpos, hfree]
    · have hwalk₂ := hnext (update s₁.valid ip false)
      rw [hzero] at hwalk₂
      exact hwalk₂
  · refine .step (.igetEntry ip) (false, s₁) ?_ ?_
    · simp [State.exec, State.igetEntry, hpos, hfree]
    · exact (⟨rfl, by omega⟩ : s.Full _ s₁)

theorem acquiresleep_walks {site : LockSite} (hwalk : s.Walk s.lock m s₁) (hlock : s.lock ip = none) :
    s.Runs p (acquiresleep site ip) (fun _ => s.Walk (update s.lock ip (some p)) m) s₁ := by
  refine .step (.tryLock site ip) (true, s₁.setLock ip (some p)) ?_ ?_
  · simp [State.exec, State.tryLock, hwalk.lock, hlock]
  · refine { hwalk with lock := ?_ }
    rw [← hwalk.lock]
    rfl

theorem ilock_walks (hwalk : s.Walk s.lock m s₁) (hsound : s.Sound ip) (hmem : ip ∈ m) :
    s.Runs p (ilock ip) (fun _ => s.Walk (update s.lock ip (some p)) m) s₁ := by
  have hpos : ¬ s₁.ref ip < 1 := by
    have hcount := Multiset.count_pos.mpr hmem
    have href := hwalk.ref ip
    omega
  refine .step (.ref ip) (_, _) rfl ?_
  rw [if_neg hpos]
  refine .seq (acquiresleep_walks hwalk hsound.lock) fun _ s₂ hwalk₂ => ?_
  have htype : (s₂.load ip).1 = (s.ino ip).type := by
    unfold State.load
    rw [hwalk₂.ino]
    split_ifs <;> rfl
  have hload : s.Walk (update s.lock ip (some p)) m (s₂.load ip).2 := by
    unfold State.load
    split_ifs
    · exact hwalk₂
    · exact ⟨hwalk₂.ninodes, hwalk₂.ino, hwalk₂.cwd, hwalk₂.lock, hwalk₂.ref⟩
  refine .step (.load ip) (s₂.load ip) rfl ?_
  rw [htype, if_neg hsound.type]
  exact hload

theorem releasesleep_walks (hwalk : s.Walk (update s.lock ip (some p)) m s₁) (hlock : s.lock ip = none) :
    s.Walk s.lock m (s₁.setLock ip none) := by
  refine { hwalk with lock := ?_ }
  change update s₁.lock ip none = s.lock
  rw [hwalk.lock, update_idem, ← hlock, update_eq_self]

theorem iunlock_walks (hwalk : s.Walk (update s.lock ip (some p)) m s₁) (hlock : s.lock ip = none)
    (hmem : ip ∈ m) : s.Runs p (iunlock ip) (fun _ => s.Walk s.lock m) s₁ := by
  have hpos : ¬ s₁.ref ip < 1 := by
    have hcount := Multiset.count_pos.mpr hmem
    have href := hwalk.ref ip
    omega
  refine .step (.holdingsleep ip) (true, s₁) ?_ (.step (.ref ip) (_, _) rfl ?_)
  · simp [State.exec, hwalk.lock]
  · rw [if_neg hpos]
    exact releasesleep_walks hwalk hlock

theorem iput_walks (hwalk : s.Walk s.lock (ip ::ₘ m) s₁) (hsound : s.Sound ip) :
    s.Runs p (iput ip) (fun _ => s.Walk s.lock m) s₁ := by
  refine .seq (acquiresleep_walks hwalk hsound.lock) fun _ s₂ hwalk₂ => ?_
  have hend : s.Runs p (releasesleep ip >>= fun _ => atomic (.decRef ip)) (fun _ => s.Walk s.lock m) s₂ := by
    have hrelease := releasesleep_walks hwalk₂ hsound.lock
    refine .step (.unlock ip) (_, _) rfl { hrelease with ref := fun i => ?_ }
    change update s₂.ref ip (s₂.ref ip - 1) i = _
    have href := hwalk₂.ref i
    by_cases hi : i = ip
    · subst hi
      rw [Multiset.count_cons_self] at href
      rw [update_self]
      omega
    · rw [update_of_ne hi, href, Multiset.count_cons_of_ne hi]
  refine .step (.fields ip) (_, _) rfl ?_
  split_ifs with hdead
  · refine .step (.ref ip) (_, _) rfl ?_
    have hkept : 0 < s.ref ip := by
      refine hsound.kept.resolve_left fun hne => hne ?_
      have hnlink : (s₂.ino ip).nlink = 0 := hdead.2
      rwa [hwalk₂.ino] at hnlink
    have hmany : ¬ s₂.ref ip = 1 := by
      have href := hwalk₂.ref ip
      rw [Multiset.count_cons_self] at href
      omega
    rw [if_neg hmany]
    exact hend
  · exact hend

theorem iunlockput_walks (hwalk : s.Walk (update s.lock ip (some p)) (ip ::ₘ m) s₁)
    (hsound : s.Sound ip) : s.Runs p (iunlockput ip) (fun _ => s.Walk s.lock m) s₁ :=
  .seq (iunlock_walks hwalk hsound.lock (Multiset.mem_cons_self ip m)) fun _ _ hwalk₂ =>
    iput_walks hwalk₂ hsound

/-! ### Directories and paths -/

theorem dirlookupFrom_walks {dp : Inum} {x : Name} (hwalk : s.Walk l m s₁)
    (hroom : s₁.active ≤ s.active + 1) (k j : Nat) (hlen : j + k = (s.ino dp).dents.length) :
    s.Runs p (dirlookupFrom dp x k (direntSize * j)) (fun r s₂ =>
      r.map Prod.fst = (((s.ino dp).dents.drop j).find? fun de => de.inum ≠ 0 ∧ x = de.name).map Dirent.inum
        ∧ s.Walk l (r.elim m (·.1 ::ₘ m)) s₂) s₁ := by
  induction k generalizing j with
  | zero =>
    have hend : (s.ino dp).dents.length ≤ j := Nat.le_of_eq hlen.symm
    rw [List.drop_eq_nil_of_le hend]
    exact ⟨rfl, hwalk⟩
  | succ k ih =>
    have hj : j < (s.ino dp).dents.length := by omega
    rw [List.drop_eq_getElem_cons hj]
    set de := (s.ino dp).dents[j]
    refine .step (.readDirent dp (direntSize * j)) (some de, s₁) ?_ ?_
    · simp only [State.exec]
      rw [hwalk.ino, Nat.mul_div_cancel_left j (by decide), List.getElem?_eq_getElem hj]
    · have hnext := ih (j + 1) (by omega)
      rw [Nat.mul_succ] at hnext
      dsimp only
      split_ifs with hfree hname
      · rwa [List.find?_cons_of_neg (by simp [hfree])]
      · rw [List.find?_cons_of_pos (by simp [hfree, hname])]
        exact .seq (iget_walks hwalk hroom) fun _ s₂ hwalk₂ => ⟨rfl, hwalk₂⟩
      · rwa [List.find?_cons_of_neg (by simp [hname])]

theorem dirlookup_walks {dp : Inum} {x : Name} (hwalk : s.Walk l m s₁)
    (hroom : s₁.active ≤ s.active + 1) (hdir : (s.ino dp).type = .dir) :
    s.Runs p (dirlookup dp x) (fun r s₂ =>
      r.map Prod.fst = s.lookup dp x ∧ s.Walk l (r.elim m (·.1 ::ₘ m)) s₂) s₁ := by
  have hfields : s₁.fields dp = { s₁.fields dp with type := .dir, size := (s.ino dp).size } := by
    unfold State.fields
    rw [hwalk.ino, hdir]
  refine .step (.fields dp) (s₁.fields dp, s₁) rfl ?_
  have hslots : slots (s.ino dp).size = (s.ino dp).dents.length := by
    unfold slots Inode.size direntSize
    rw [if_pos hdir]
    omega
  rw [hfields]
  simp only [ne_eq, not_true_eq_false, if_false]
  rw [State.lookup, if_pos hdir, hslots]
  exact dirlookupFrom_walks hwalk hroom _ 0 (Nat.zero_add _)

theorem State.resolveParent_cons {i : Inum} {x : Name} {rest : List Name} (hne : rest ≠ []) :
    s.resolveParent i (x :: rest) = (s.lookup i x).bind fun j => s.resolveParent j rest := by
  obtain ⟨y, ys, rfl⟩ := List.exists_cons_of_ne_nil hne
  unfold State.resolveParent
  rw [List.getLast?_cons_cons, List.dropLast_cons_cons, State.resolve]
  cases s.lookup i x with
  | none => cases (y :: ys).getLast? <;> rfl
  | some j => rfl

def State.found (s : State n) (parent : Bool) (i : Inum) (names : List Name) : Option (Inum × Name) :=
  if parent then s.resolveParent i names else (s.resolve i names).map fun j => (j, [])

theorem State.found_cons {parent : Bool} {i : Inum} {x : Name} {rest : List Name}
    (hlast : ¬ (parent = true ∧ rest = [])) :
    s.found parent i (x :: rest) = (s.lookup i x).bind fun j => s.found parent j rest := by
  cases parent with
  | true => exact State.resolveParent_cons fun hrest => hlast ⟨rfl, hrest⟩
  | false =>
    change ((s.lookup i x).bind _).map _ = _
    rw [Option.map_bind]
    rfl

/-- The names are taken off one by one; between two of them the walk has one reference and no lock. -/
theorem namexElems_walks {parent : Bool} (names : List Name) {i : Inum} (hwalk : s.Walk s.lock {i} s₁)
    (hpasses : s.Passes i names) (hsound : parent = true → names = [] → s.Sound i) :
    s.Runs p (namexElems parent names i) (fun r s₂ =>
      r = s.found parent i names ∧ s.Walk s.lock (r.elim 0 fun x => {x.1}) s₂) s₁ := by
  induction names generalizing i s₁ with
  | nil =>
    cases parent with
    | false => exact ⟨rfl, hwalk⟩
    | true => exact .seq (iput_walks hwalk (hsound rfl rfl)) fun _ _ hwalk₂ => ⟨rfl, hwalk₂⟩
  | cons x rest ih =>
    clear hsound
    obtain ⟨hsound, hrest⟩ := hpasses
    refine .seq (ilock_walks hwalk hsound (Multiset.mem_singleton_self i)) fun _ s₂ hwalk₂ => ?_
    have htype : (s₂.fields i).type = (s.ino i).type := congrArg (fun ino => (ino i).type) hwalk₂.ino
    refine .step (.fields i) (s₂.fields i, s₂) rfl ?_
    dsimp only
    rw [htype]
    -- both ways to give up
    have hgiveUp : s.found parent i (x :: rest) = none → ∀ s₃,
        s.Walk (update s.lock i (some p)) {i} s₃ → s.Runs p
          (iunlockput i >>= fun _ => (pure none : FsM (Option (Inum × Name)))) (fun r s₂ =>
            r = s.found parent i (x :: rest) ∧ s.Walk s.lock (r.elim 0 fun x => {x.1}) s₂) s₃ :=
      fun hnone s₃ hwalk₃ => .seq (iunlockput_walks hwalk₃ hsound) fun _ _ hwalk₄ => ⟨hnone.symm, hwalk₄⟩
    split_ifs with hdir hlast
    · refine hgiveUp ?_ s₂ hwalk₂
      by_cases hlast : parent = true ∧ rest = []
      · obtain ⟨rfl, rfl⟩ := hlast
        exact if_neg hdir
      · rw [State.found_cons hlast, State.lookup, if_neg hdir]
        rfl
    · obtain ⟨rfl, rfl⟩ := hlast
      refine .seq (iunlock_walks hwalk₂ hsound.lock (Multiset.mem_singleton_self i)) fun _ _ hwalk₃ => ?_
      exact ⟨(if_pos (not_not.mp hdir)).symm, hwalk₃⟩
    · refine .seq (dirlookup_walks hwalk₂ hwalk₂.active_le (not_not.mp hdir)) fun r s₃ hr => ?_
      obtain ⟨hlookup, hwalk₃⟩ := hr
      have hfound := State.found_cons (s := s) (i := i) (x := x) hlast
      rw [← hlookup] at hfound
      cases r with
      | none => exact hgiveUp hfound s₃ hwalk₃
      | some next =>
        obtain ⟨j, off⟩ := next
        change s.Walk _ (j ::ₘ i ::ₘ 0) s₃ at hwalk₃
        rw [Multiset.cons_swap] at hwalk₃
        rw [hfound]
        refine .seq (iunlockput_walks hwalk₃ hsound) fun _ s₄ hwalk₄ => ?_
        exact ih hwalk₄ (hrest j hlookup.symm) fun hp hnil => absurd ⟨hp, hnil⟩ hlast

theorem namex_walks {parent : Bool} {path : Path} {i : Inum} (hstart : s.start p path = some i)
    (hpasses : s.Passes i (components path)) (hsound : parent = true → components path = [] → s.Sound i) :
    s.Runs p (namex path parent) (fun r s₂ =>
      r = s.found parent i (components path) ∧ s.Walk s.lock (r.elim 0 fun x => {x.1}) s₂) s := by
  rw [← elems_eq_components] at hpasses hsound ⊢
  have hbegin : s.Runs p (namexStart path) (fun j s₂ => j = i ∧ s.Walk s.lock {i} s₂) s := by
    unfold namexStart
    unfold State.start at hstart
    split_ifs at hstart ⊢ with habs
    · obtain rfl := Option.some.inj hstart
      exact .seq (iget_walks s.walk_refl (Nat.le_succ _)) fun _ _ hwalk => ⟨rfl, hwalk⟩
    refine .step .cwd (i, s) ?_ (.step (.idup i) (_, _) rfl ⟨rfl, ?_⟩)
    · simp [State.exec, hstart]
    · refine { s.walk_refl with ref := fun j => ?_ }
      change update s.ref i (s.ref i + 1) j = _
      by_cases hj : j = i
      · subst hj
        rw [update_self, Multiset.count_singleton_self]
      · rw [update_of_ne hj, Multiset.count_singleton, if_neg hj, Nat.add_zero]
  rw [namex_eq]
  refine .seq hbegin fun j s₂ hj => ?_
  obtain ⟨rfl, hwalk⟩ := hj
  exact namexElems_walks _ hwalk hpasses hsound

end Walk

/-! ### Failure -/

theorem State.lookup_eq_none {n : Nat} {s : State n} {d : Inum} {x : Name} :
    s.lookup d x = none ↔ (s.ino d).type ≠ .dir ∨ ∀ de ∈ (s.ino d).dents, de.inum ≠ 0 → x ≠ de.name := by
  unfold State.lookup
  split_ifs with hdir
  · simp [hdir]
  · simp [hdir]

theorem State.resolve_eq_none {n : Nat} {s : State n} {i : Inum} {names : List Name} :
    s.resolve i names = none ↔ ∃ before x after d, names = before ++ x :: after ∧
      s.resolve i before = some d ∧ s.lookup d x = none := by
  induction names generalizing i with
  | nil => simp [State.resolve]
  | cons x rest ih =>
    change (s.lookup i x).bind (s.resolve · rest) = none ↔ _
    constructor
    · intro hnone
      cases hlookup : s.lookup i x with
      | none => exact ⟨[], x, rest, i, rfl, rfl, hlookup⟩
      | some j =>
        rw [hlookup] at hnone
        obtain ⟨before, y, after, d, rfl, hd, hy⟩ := ih.mp hnone
        refine ⟨x :: before, y, after, d, rfl, ?_, hy⟩
        exact (congrArg (Option.bind · (s.resolve · before)) hlookup).trans hd
    · rintro ⟨before, y, after, d, heq, hd, hy⟩
      cases before with
      | nil =>
        obtain ⟨rfl, rfl⟩ := List.cons.inj heq
        obtain rfl := Option.some.inj hd
        rw [hy]
        rfl
      | cons z before =>
        obtain ⟨rfl, rfl⟩ := List.cons.inj heq
        obtain ⟨j, hlookup, hd⟩ := Option.bind_eq_some_iff.mp hd
        rw [hlookup]
        exact ih.mpr ⟨before, y, after, d, rfl, hd, hy⟩

theorem State.resolveParent_eq_none {n : Nat} {s : State n} {i : Inum} {names : List Name} :
    s.resolveParent i names = none ↔ names = [] ∨ s.resolve i names.dropLast = none ∨
      ∃ d, s.resolve i names.dropLast = some d ∧ (s.ino d).type ≠ .dir := by
  unfold State.resolveParent
  cases hlast : names.getLast? with
  | none => simp [List.getLast?_eq_none_iff.mp hlast]
  | some x =>
    have hne : names ≠ [] := by
      rintro rfl
      cases hlast
    cases hres : s.resolve i names.dropLast <;> simp [hne]

/-! ### The theorem -/

/-- **A path means its components.** Iterating `skipelem` yields the non-empty strings between slashes,
cut to `dirsiz` bytes; `namei` returns the inode that they lead to, and `nameiparent` the directory that
all but the last lead to, or they fail where a lookup fails. They change no inode and no lock, and keep
a reference to what they return. -/
theorem namei_resolves {n : Nat} {s : State n} {p : Fin n} {path : Path} {i : Inum}
    (hstart : s.start p path = some i) (hpasses : s.Passes i (components path)) :
    (∀ q : Path, elems q = (skipelem q).elim [] fun next => next.1 :: elems next.2) ∧
    elems path = components path ∧ s.Runs p (namei path) (fun r s' =>
      r = s.resolve i (components path) ∧ s.Walk s.lock (r.elim 0 fun j => {j}) s') s ∧
    ((components path = [] → s.Sound i) → s.Runs p (nameiparent path) (fun r s' =>
      r = s.resolveParent i (components path) ∧ s.Walk s.lock (r.elim 0 fun x => {x.1}) s') s) ∧
    (s.resolve i (components path) = none ↔ ∃ before x after d, components path = before ++ x :: after ∧
      s.resolve i before = some d ∧
        ((s.ino d).type ≠ .dir ∨ ∀ de ∈ (s.ino d).dents, de.inum ≠ 0 → x ≠ de.name)) ∧
    (s.resolveParent i (components path) = none ↔ components path = [] ∨
      s.resolve i (components path).dropLast = none ∨
        ∃ d, s.resolve i (components path).dropLast = some d ∧ (s.ino d).type ≠ .dir) := by
  refine ⟨fun q => ?_, elems_eq_components path, ?_, fun hsound => ?_, ?_, State.resolveParent_eq_none⟩
  · rw [elems_eq_components]
    cases hskip : skipelem q with
    | none => exact skipelem_none hskip
    | some next =>
      rw [(skipelem_some hskip).1, ← elems_eq_components next.2]
      rfl
  · refine .seq (namex_walks hstart hpasses nofun) fun r s' hr => ?_
    obtain ⟨hfound, hwalk⟩ := hr
    have hresolve : r.map Prod.fst = s.resolve i (components path) := by
      rw [hfound, State.found, if_neg Bool.false_ne_true, Option.map_map]
      exact Option.map_id' ..
    cases r with
    | none | some found => exact ⟨hresolve, hwalk⟩
  · exact namex_walks hstart hpasses fun _ => hsound
  · simp only [← State.lookup_eq_none]
    exact State.resolve_eq_none

/-- `namei("//f/")` in an image with one file `f`. -/
theorem namei_resolves_file : components [slash, slash, 102, slash] = [[102]] ∧
    (oneFile.boot 1).resolve rootino [[102]] = some 2 ∧
    (oneFile.boot 1).Runs 0 (namei [slash, slash, 102, slash]) (fun r s' =>
      r = (oneFile.boot 1).resolve rootino (components [slash, slash, 102, slash]) ∧
        (oneFile.boot 1).Walk (oneFile.boot 1).lock (r.elim 0 fun j => {j}) s') (oneFile.boot 1) := by
  have hcomponents : components [slash, slash, 102, slash] = [[102]] := by decide
  refine ⟨hcomponents, by decide, (namei_resolves (by rfl) ?_).2.2.1⟩
  rw [hcomponents]
  exact ⟨⟨by decide, rfl, .inl (by decide)⟩, fun _ _ => trivial⟩

end Xv6.Fs
