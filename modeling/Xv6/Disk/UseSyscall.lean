import Xv6.Disk.UseCalls

/-!
# The rules for whole system calls

A call starts with one reference, to the current directory, and ends with one. Between `begin_op` and
`end_op` it logs few inodes and few other blocks: this is where the numbers come from.
-/

namespace Xv6.Disk

open Fs Use

namespace Use

/-- Outside calls a process references its current directory and nothing else. -/
def Idle (l : Use) : Prop := l.refs = ownRefs l.cwd

structure Start (l : Use) : Prop where
  idle : l.Idle
  held : l.held = ∅
  loose : ∀ i ∈ l.loose, i ∈ l.refs

/-- The blocks that a strict transaction may have logged so far, the bitmap block not counted. -/
def Within (strict : Prop) (c : Nat) (l : Use) : Prop := strict → l.nodes.card + l.extra ≤ c

structure Opens (strict : Prop) (ip : Inum) (l : Use) : Prop where
  refs : l.refs = ip ::ₘ ownRefs l.cwd
  live : ip ∈ l.live
  within : Within strict 8 l

def begun (t : Use) : Use := { t with nodes := ∅, extra := 0 }

variable {strict : Prop} {c c' : Nat} {ip : Inum} {t t₁ l : Use}

theorem Start.cwd_mem (hstart : t.Start) (w : Inum) (hw : t.cwd = some w) : w ∈ t.refs := by
  rw [hstart.idle]
  exact mem_ownRefs hw

theorem Knows.idle (h : t.Knows strict l) (hidle : t.Idle) : l.Idle := by
  unfold Idle
  rw [h.refs, h.cwd]
  exact hidle

theorem Knows.within (h : t.Knows strict l) (hwithin : Within strict c t) : Within strict c l :=
  fun hs => (Nat.add_le_add (Finset.card_le_card (h.nodes hs)) (h.extra hs)).trans (hwithin hs)

theorem Knows.opens (h : t.Knows strict l) (hopens : Opens strict ip t) : Opens strict ip l where
  refs := by
    rw [h.refs, h.cwd]
    exact hopens.refs
  live := h.live hopens.live
  within := h.within hopens.within

theorem Within.mono (hwithin : Within strict c t) (hc : c ≤ c') : Within strict c' t :=
  fun hs => (hwithin hs).trans hc

theorem Within.log (hwithin : Within strict c t) (k : Nat) (hnodes : t₁.nodes ⊆ insert ip t.nodes)
    (hextra : t₁.extra ≤ t.extra + k) (hc : c + 1 + k ≤ c') : Within strict c' t₁ := by
  intro hs
  have hcard := (Finset.card_le_card hnodes).trans (Finset.card_insert_le ip t.nodes)
  have hbefore := hwithin hs
  omega

theorem within_begun (t : Use) : Within strict c t.begun := fun _ => Nat.zero_le c

end Use

section Calls

variable {N : Nodes} {strict : Prop} {α : Type} {t : Use} {ip dp : Inum} {m : Multiset Inum} {c : Nat}

namespace Follows

theorem bind {β : Type} {x : FsM α} {f : α → FsM β} {mid : α → Use → Prop} {post : β → Use → Prop}
    (hx : Follows N strict x t mid) (hf : ∀ a l, mid a l → Follows N strict (f a) l post) :
    Follows N strict (x >>= f) t post :=
  fun l h => (hx l h).bind fun a l' h' => hf a l' h' l' .refl

theorem bare {x : FsM α} {post : α → Use → Prop} (hx : Follows N strict x (t.bare m) post)
    (hrefs : t.refs = m) : Follows N strict x t post :=
  fun l h => hx l (h.bare_of hrefs)

end Follows

theorem beginOp_follows {f : Unit → FsM α} {post : α → Use → Prop}
    (hf : Follows N strict (f ()) (t.begun.bare t.refs) post) : Follows N strict (beginOp >>= f) t post :=
  .op .beginOp trivial fun _ _ => hf.bare rfl

theorem endOp_follows {r : Int} (hidle : t.Idle) (hwithin : Within strict 9 t) :
    Follows N strict (do endOp; pure r : FsM Int) t fun _ => Idle :=
  .op .endOp (fun hs => Nat.lt_succ_of_le (hwithin hs)) fun _ _ _ h => h.idle hidle

theorem ilock_own (hrefs : t.refs = ip ::ₘ m) :
    Follows N strict (ilock ip) t fun _ l => ip ∉ t.held ∧ (t.lock ip).Knows strict l :=
  ilock_follows (.inl (hrefs ▸ Multiset.mem_cons_self ip m))

theorem giveUp_follows {r : Int} (hrefs : t.refs = ip ::ₘ ownRefs t.cwd) (hwithin : Within strict 8 t) :
    Follows N strict (do iunlockput ip; endOp; pure r : FsM Int) t fun _ => Idle :=
  .seq (iunlockput_follows hrefs (Finset.subset_insert ip _) (.inl (Finset.mem_insert_self ip _)))
    fun _ => endOp_follows rfl (hwithin.log 0 subset_rfl le_rfl le_rfl)

theorem abandon_follows {r : Int} (hidle : t.Idle) :
    Follows N strict (do iunlockput ip; endOp; pure r : FsM Int) ((t.begun.bare (ip ::ₘ t.refs)).lock ip)
      fun _ => Idle :=
  giveUp_follows (congrArg (ip ::ₘ ·) hidle) (within_begun t)

/-! ### Creating and opening -/

theorem createDots_follows {ns : Finset Inum} (hready : ip ∈ t.ready) (hip : ip ∈ t.refs)
    (hdp : dp ∈ t.refs) (hloose : ∀ i ∈ t.loose, i ∈ t.refs) (hns : t.nodes ⊆ ns) (hmem : ip ∈ ns) :
    Follows N strict (createDots ip dp) t fun _ =>
      Knows strict { t.calm with nodes := ns, extra := t.extra + 4 } := by
  refine .seq (dirlink_follows hready hip hloose (Finset.insert_subset hmem hns)) fun b => ?_
  cases b with
  | false => exact Follows.panic
  | true =>
    refine .seq (dirlink_follows hready hdp hloose (Finset.insert_subset hmem subset_rfl)) fun b => ?_
    cases b with
    | false => exact Follows.panic
    | true => exact fun _ h => h

/-- What `create` leaves: it may have logged two inodes and six other blocks, two for each entry
written. -/
def Use.Creates (strict : Prop) (type : FileType) : Option Inum → Use → Prop
  | none, l => l.Idle ∧ Within strict 0 l
  | some ip, l => Opens strict ip l ∧ (type = .file → ip ∈ l.nondir)

variable {type : FileType} {major minor : Int} {path : Path} {omode : UInt32}

theorem create_dirlink_follows {name : Name} (hne : ip ≠ dp)
    (hrefs : t.refs = ip ::ₘ dp ::ₘ ownRefs t.cwd) (hready : dp ∈ t.ready)
    (hloose : ∀ i ∈ t.loose, i ∈ t.refs) (hlive : ip ∈ t.live) (hnondir : type = .file → ip ∈ t.nondir)
    (hnodes : t.nodes ⊆ {ip, dp}) (hextra : t.extra ≤ 4) : Follows N strict (do
        if ← dirlink dp name ip then do
          iunlockput dp
          pure (some ip)
        else
          panic .createDirlink : FsM (Option Inum)) t (Creates strict type) := by
  have hip : ip ∈ t.refs := hrefs ▸ Multiset.mem_cons_self ip _
  have hdp : dp ∈ ({ip, dp} : Finset Inum) := by simp
  refine .seq (dirlink_follows hready hip hloose (Finset.insert_subset hdp hnodes)) fun b => ?_
  cases b with
  | false => exact Follows.panic
  | true =>
    refine .seq (iunlockput_follows (hrefs.trans (Multiset.cons_swap ..)) subset_rfl (.inl hdp))
      fun _ _ h => ⟨h.opens ⟨rfl, ⟨hlive, hne⟩, fun _ => ?_⟩, fun htype => h.nondir (hnondir htype)⟩
    exact Nat.add_le_add Finset.card_le_two (Nat.add_le_add_right hextra 2)

theorem create_new_follows {name : Name} (hstart : t.Start) : Follows N strict (do
        let ip ← ialloc type
        ilock ip
        initInode ip major minor
        if type = .dir then do
          addNlink dp 1
          createDots ip dp
        if ← dirlink dp name ip then do
          iunlockput dp
          pure (some ip)
        else
          panic .createDirlink : FsM (Option Inum)) ((t.begun.bare (dp ::ₘ t.refs)).lock dp).calm
        (Creates strict type) := by
  refine .seq ialloc_follows fun ip => .seq_and (ilock_own rfl)
    fun _ hnot => Follows.op (.initInode ip major minor) (Or.inl rfl) fun _ _ => ?_
  have hne : ip ≠ dp := fun heq => hnot (Or.inl heq)
  have hip : ip ∈ ip ::ₘ dp ::ₘ t.refs := Multiset.mem_cons_self ..
  have hdp : dp ∈ ip ::ₘ dp ::ₘ t.refs := Multiset.mem_cons_of_mem (Multiset.mem_cons_self ..)
  have hrefs : ip ::ₘ dp ::ₘ t.refs = ip ::ₘ dp ::ₘ ownRefs t.cwd :=
    congrArg (ip ::ₘ dp ::ₘ ·) hstart.idle
  have hmemIp : ip ∈ ({ip, dp} : Finset Inum) := by simp
  have hmemDp : dp ∈ ({ip, dp} : Finset Inum) := by simp
  have hnodes : insert ip (insert ip (∅ : Finset Inum)) ⊆ {ip, dp} := by simp
  -- every inode whose links change is referenced to the end
  have hloose : ∀ i ∈ t.loose ∪ {ip} ∪ {ip}, i ∈ ip ::ₘ dp ::ₘ t.refs := by
    rintro i ((hi | rfl) | rfl)
    · exact Multiset.mem_cons_of_mem (Multiset.mem_cons_of_mem (hstart.loose i hi))
    · exact hip
    · exact hip
  by_cases htype : type = .dir
  · simp only [htype, if_true]
    have hloose' : ∀ i ∈ t.loose ∪ {ip} ∪ {ip} ∪ {dp}, i ∈ ip ::ₘ dp ::ₘ t.refs := by
      rintro i (hi | rfl)
      · exact hloose i hi
      · exact hdp
    refine .op (.addNlink dp 1) (.inr (.inl rfl)) fun _ _ => .seq
      (createDots_follows (.inl rfl) hip hdp hloose' (Finset.insert_subset hmemDp hnodes) hmemIp)
      fun _ => ?_
    exact create_dirlink_follows hne hrefs (.inr (.inl rfl)) hloose' (.inl rfl) nofun subset_rfl le_rfl
  · simp only [htype, if_false]
    refine create_dirlink_follows hne hrefs (.inr (.inl rfl)) hloose (.inl rfl) (fun _ => ?_) hnodes
      (Nat.zero_le 4)
    change ip ∈ if type = .dir then _ else _
    rw [if_neg htype]
    exact .inr rfl

theorem create_follows (hroot : rootino ∈ N.named) (hstart : t.Start) :
    Follows N strict (create path type major minor) (t.begun.bare t.refs) (Creates strict type) := by
  refine .seq (namex_follows hroot hstart.cwd_mem hstart.loose) fun r => ?_
  cases r with
  | none => exact fun _ h => ⟨h.idle hstart.idle, h.within (within_begun t)⟩
  | some parent =>
    refine .seq_and (ilock_own rfl) fun _ _ =>
      .seq_and (dirlookup_follows (.inl rfl)) fun r _ => ?_
    cases r with
    | none => exact create_new_follows hstart
    | some found =>
      refine .seq (iunlockput_follows (Multiset.cons_swap ..) subset_rfl (.inr fun i hi =>
        Multiset.mem_cons_of_mem (hstart.loose i hi))) fun _ => .seq_and
        (ilock_own rfl) fun _ _ =>
        Follows.op (.fields found.1) trivial fun f _ => ?_
      split_ifs with hfile
      · refine fun _ h => ⟨h.opens ⟨congrArg (found.1 ::ₘ ·) hstart.idle, Or.inl rfl,
          within_begun t⟩, fun _ => h.nondir (.inr ⟨rfl, .inl rfl, ?_⟩)⟩
        rw [hfile.2]
        decide
      · exact .seq (iunlockput_follows rfl subset_rfl (.inr hstart.loose)) fun _ _ h =>
          ⟨h.idle hstart.idle, h.within (within_begun t)⟩

theorem fileclose_new_follows {f : Nat} (hf : f ∈ t.files) : Follows N strict (fileclose f) t fun _ =>
      Knows strict { t.bare t.refs with pins := ∅, files := ∅ } := by
  refine .op (.fileDrop f) trivial fun r hr => ?_
  cases r with
  | bad => exact .panic
  | kept => exact fun _ h =>
    { h.bare_of rfl with pins := Set.empty_subset _, files := Set.empty_subset _ }
  | last ff =>
    have hnone : ff.ip = none := hr hf
    simp only [hnone]
    refine fun l h => { h.bare_of ?_ with
      pins := Set.empty_subset _
      files := Set.empty_subset _
      loose := h.loose.trans (Set.union_subset subset_rfl fun i hi => ?_) }
    · change ff.ip.elim t.refs (· ::ₘ t.refs) = t.refs
      rw [hnone]
      rfl
    · exact absurd (hnone.symm.trans hi) nofun

theorem openFile_follows (hopens : Opens strict ip t)
    (hwrite : (omode &&& oWronly != 0 || omode &&& oRdwr != 0) = true → ip ∈ t.nondir) :
    Follows N strict (openFile ip omode) t fun _ => Idle := by
  refine .op .filealloc trivial fun r _ => ?_
  cases r with
  | none => exact giveUp_follows hopens.refs hopens.within
  | some f =>
    refine .op (.fdalloc f) trivial fun r _ => ?_
    cases r with
    | none =>
      exact .seq (fileclose_new_follows (.inr rfl)) fun _ => giveUp_follows hopens.refs hopens.within
    | some fd =>
      have hip : ip ∈ t.refs := hopens.refs ▸ Multiset.mem_cons_self ip _
      refine .seq iunlock_follows fun _ => Follows.op .endOp
        (fun hs => Nat.lt_succ_of_le ((hopens.within hs).trans (Nat.le_succ 8))) fun _ _ =>
        Follows.op (.fileInit f ip _ _) ⟨Or.inr rfl, hip, hopens.live, hwrite⟩ fun _ _ _ h => h.idle ?_
      exact (congrArg (Multiset.erase · ip) hopens.refs).trans (Multiset.erase_cons_head ..)

theorem openExisting_follows (hroot : rootino ∈ N.named) (hstart : t.Start) :
    Follows N strict (openExisting path omode) (t.begun.bare t.refs) fun r l =>
      match r with
      | none => l.Idle ∧ Within strict 8 l
      | some ip => Opens strict ip l ∧ (omode ≠ 0 → ip ∈ l.nondir) := by
  refine .seq (namei_follows hroot hstart.cwd_mem hstart.loose) fun r => ?_
  have hwithin : Within strict 8 t.begun := within_begun t
  cases r with
  | none => exact fun _ h => ⟨h.idle hstart.idle, h.within hwithin⟩
  | some ip =>
    refine .seq_and (ilock_own rfl) fun _ _ =>
      Follows.op (.fields ip) trivial fun f _ => ?_
    split_ifs with hdir
    · exact .seq (iunlockput_follows rfl subset_rfl (Or.inr hstart.loose)) fun _ _ h =>
        ⟨h.idle hstart.idle, h.within hwithin⟩
    · exact fun _ h => ⟨h.opens ⟨congrArg (ip ::ₘ ·) hstart.idle, .inl rfl, hwithin⟩,
        fun hmode => h.nondir (.inr ⟨rfl, .inl rfl, fun htype => hdir ⟨htype, hmode⟩⟩)⟩

theorem writable_ne_zero (hw : (omode &&& oWronly != 0 || omode &&& oRdwr != 0) = true) : omode ≠ 0 := by
  rintro rfl
  revert hw
  decide

theorem sysOpen_follows (hroot : rootino ∈ N.named) (hstart : t.Start) :
    Follows N strict (sysOpen path omode) t fun _ => Idle := by
  refine beginOp_follows ?_
  by_cases hcreate : omode &&& oCreate != 0
  · simp only [hcreate, if_true]
    refine .bind (create_follows hroot hstart) fun r l hcreates => ?_
    cases r with
    | none => exact endOp_follows hcreates.1 (hcreates.2.mono (Nat.zero_le 9))
    | some ip => exact openFile_follows hcreates.1 fun _ => hcreates.2 rfl
  · simp only [hcreate]
    refine .bind (openExisting_follows hroot hstart) fun r l hopens => ?_
    cases r with
    | none => exact endOp_follows hopens.1 (hopens.2.mono (Nat.le_succ 8))
    | some ip => exact openFile_follows hopens.1 fun hw => hopens.2 (writable_ne_zero hw)

theorem create_iunlockput_follows (hroot : rootino ∈ N.named) (hstart : t.Start) : Follows N strict (do
        beginOp
        match ← create path type major minor with
        | none => do
            endOp
            pure (-1)
        | some ip => do
            iunlockput ip
            endOp
            pure 0 : FsM Int) t fun _ => Idle := by
  refine beginOp_follows (.bind (create_follows hroot hstart) fun r l hcreates => ?_)
  cases r with
  | none => exact endOp_follows hcreates.1 (hcreates.2.mono (Nat.zero_le 9))
  | some ip => exact giveUp_follows hcreates.1.refs hcreates.1.within

/-! ### Links -/

theorem linkBad_follows (hrefs : t.refs = ip ::ₘ ownRefs t.cwd) (hwithin : Within strict 7 t) :
    Follows N strict (linkBad ip) t fun _ => Idle :=
  .seq_and (ilock_own hrefs) fun _ _ =>
    Follows.op (.addNlink ip (-1)) (Or.inl rfl) fun _ _ =>
      giveUp_follows hrefs (hwithin.log 0 subset_rfl le_rfl le_rfl)

theorem sysLink_follows {old new : Path} (hroot : rootino ∈ N.named) (hstart : t.Start) :
    Follows N strict (sysLink old new) t fun _ => Idle := by
  refine beginOp_follows (.seq (namei_follows hroot hstart.cwd_mem hstart.loose) fun r => ?_)
  cases r with
  | none => exact endOp_follows hstart.idle (within_begun t)
  | some ip =>
    refine .seq_and (ilock_own rfl) fun _ _ =>
      Follows.fields fun f => ?_
    split_ifs
    · exact abandon_follows hstart.idle
    -- the reference to `ip` is held through the second walk, so that it is not loose there
    have hcwd : ∀ w, t.cwd = some w → w ∈ ip ::ₘ t.refs :=
      fun w hw => Multiset.mem_cons_of_mem (hstart.cwd_mem w hw)
    have hloose : ∀ i ∈ t.loose ∪ {ip}, i ∈ ip ::ₘ t.refs := by
      rintro i (hi | rfl)
      · exact Multiset.mem_cons_of_mem (hstart.loose i hi)
      · exact Multiset.mem_cons_self ..
    have hrefs : ip ::ₘ t.refs = ip ::ₘ ownRefs t.cwd := congrArg (ip ::ₘ ·) hstart.idle
    have hwithin : Within strict 1 { t.begun with nodes := insert ip ∅ } :=
      (within_begun t).log 0 subset_rfl le_rfl le_rfl
    refine .op (.addNlink ip 1) (.inl rfl) fun _ _ => .seq iunlock_follows fun _ =>
      Follows.bare (.seq (namex_follows hroot hcwd hloose) fun r => ?_) rfl
    cases r with
    | none => exact linkBad_follows hrefs (hwithin.mono (by decide))
    | some parent =>
      have hloose' : ∀ i ∈ t.loose ∪ {ip}, i ∈ parent.1 ::ₘ ip ::ₘ t.refs :=
        fun i hi => Multiset.mem_cons_of_mem (hloose i hi)
      have hip : ip ∈ parent.1 ::ₘ ip ::ₘ t.refs :=
        Multiset.mem_cons_of_mem (Multiset.mem_cons_self ..)
      refine .seq_and (ilock_own rfl) fun _ _ =>
        .seq (dirlink_follows (.inl rfl) hip hloose' subset_rfl) fun b => ?_
      cases b with
      | false =>
        exact .seq (iunlockput_follows rfl subset_rfl (.inr hloose)) fun _ =>
          linkBad_follows hrefs (hwithin.mono (by decide))
      | true =>
        refine .seq (iunlockput_follows rfl subset_rfl (.inr hloose)) fun _ =>
          .seq (iput_follows hrefs (Finset.subset_insert ip _) (.inl (Finset.mem_insert_self ip _)))
          fun _ => endOp_follows rfl ?_
        have hlinked : Within strict 4 { t.begun with
            nodes := insert parent.1 (insert ip ∅), extra := 0 + 2 } :=
          hwithin.log 2 subset_rfl le_rfl le_rfl
        exact hlinked.log 0 subset_rfl le_rfl (by decide)

theorem unlinkEntry_follows {off : Nat} (hne : ip ≠ dp)
    (hrefs : t.refs = ip ::ₘ dp ::ₘ ownRefs t.cwd) (hdp : dp ∈ t.ready) (hip : ip ∈ t.ready)
    (hwithin : Within strict 0 t) (hoff : direntSize ∣ off) :
    Follows N strict (unlinkEntry dp ip off type) t fun _ => Idle := by
  -- once the entry is gone and the directory's own count adjusted
  have hend : ∀ t₁ : Use, t₁.refs = dp ::ₘ ip ::ₘ ownRefs t₁.cwd → ip ∈ t₁.ready → Within strict 4 t₁ →
      Follows N strict (do
          iunlockput dp
          addNlink ip (-1)
          iunlockput ip
          endOp
          pure 0 : FsM Int) t₁ fun _ => Idle := by
    intro t₁ hrefs₁ hready₁ hwithin₁
    refine .seq (iunlockput_follows hrefs₁ (Finset.subset_insert dp _)
      (Or.inl (Finset.mem_insert_self dp _))) fun _ => Follows.op (.addNlink ip (-1)) ⟨hready₁, hne⟩ fun _ _ =>
      giveUp_follows rfl ?_
    have hdropped : Within strict 5 { t₁ with nodes := insert dp t₁.nodes } :=
      hwithin₁.log 0 subset_rfl le_rfl le_rfl
    exact hdropped.log 0 subset_rfl le_rfl (by decide)
  have hswap : t.refs = dp ::ₘ ip ::ₘ ownRefs t.cwd := hrefs.trans (Multiset.cons_swap ..)
  refine Follows.op (.writeDirent dp off ⟨0, []⟩) ⟨hdp, hoff, fun h => absurd rfl h⟩ fun b _ => ?_
  have hwrote : Within strict 3 (.next (.writeDirent dp off ⟨0, []⟩) t b) :=
    hwithin.log 2 subset_rfl le_rfl le_rfl
  cases b with
  | false => exact .panic
  | true =>
    by_cases htype : type = .dir
    · simp only [htype, if_true]
      exact .op (.addNlink dp (-1)) hdp fun _ _ =>
        hend _ hswap hip (hwrote.log 0 subset_rfl le_rfl le_rfl)
    · simp only [htype, if_false]
      exact hend _ hswap hip (hwrote.mono (by decide))

theorem sysUnlink_follows (hroot : rootino ∈ N.named) (hstart : t.Start) :
    Follows N strict (sysUnlink path) t fun _ => Idle := by
  refine beginOp_follows (.seq (namex_follows hroot hstart.cwd_mem hstart.loose) fun r => ?_)
  cases r with
  | none => exact endOp_follows hstart.idle (within_begun t)
  | some parent =>
    refine .seq_and (ilock_own rfl) fun _ _ => ?_
    split_ifs
    · exact abandon_follows hstart.idle
    refine .seq_and (dirlookup_follows (.inl rfl)) fun r hr => ?_
    cases r with
    | none => exact abandon_follows hstart.idle
    | some found =>
      have hrefs : found.1 ::ₘ parent.1 ::ₘ t.refs = found.1 ::ₘ parent.1 ::ₘ ownRefs t.cwd :=
        congrArg (found.1 ::ₘ parent.1 ::ₘ ·) hstart.idle
      refine .seq_and (ilock_own rfl) fun _ hnot =>
        Follows.fields fun f => ?_
      have hne : found.1 ≠ parent.1 := fun heq => hnot (Or.inl heq)
      split_ifs
      · exact .panic
      · refine .seq (isdirempty_follows (.inl rfl)) fun b => ?_
        cases b with
        | true =>
          exact unlinkEntry_follows hne hrefs (.inr (.inl rfl)) (.inl rfl) (within_begun t) (hr _ rfl)
        | false =>
          refine .seq (iunlockput_follows rfl (Finset.subset_insert found.1 _)
            (.inl (Finset.mem_insert_self ..))) fun _ => giveUp_follows
              (congrArg (parent.1 ::ₘ ·) hstart.idle) ?_
          exact (within_begun t).log 0 subset_rfl le_rfl le_rfl
      · exact unlinkEntry_follows hne hrefs (.inr (.inl rfl)) (.inl rfl) (within_begun t) (hr _ rfl)

/-! ### Other calls -/

theorem sysChdir_follows (hroot : rootino ∈ N.named) (hstart : t.Start) :
    Follows N strict (sysChdir path) t fun _ => Idle := by
  refine beginOp_follows (.seq (namei_follows hroot hstart.cwd_mem hstart.loose) fun r => ?_)
  cases r with
  | none => exact endOp_follows hstart.idle (within_begun t)
  | some ip =>
    refine .seq_and (ilock_own rfl) fun _ _ =>
      Follows.fields fun f => ?_
    split_ifs
    · exact abandon_follows hstart.idle
    refine .seq iunlock_follows fun _ => Follows.op .cwd trivial fun old hold => ?_
    have hrefs : ip ::ₘ t.refs = old ::ₘ {ip} := by
      rw [hstart.idle, show t.cwd = some old from hold]
      exact Multiset.cons_swap ip old 0
    have hwithin : Within strict 1 { t.begun with nodes := insert old ∅ } :=
      (within_begun t).log 0 subset_rfl le_rfl le_rfl
    refine .seq (iput_follows hrefs (Finset.subset_insert old _) (.inl (Finset.mem_insert_self ..)))
      fun _ => Follows.op .endOp (fun hs => Nat.lt_succ_of_le ((hwithin hs).trans (by decide))) fun _ _ =>
      Follows.op (.setCwd (some ip)) (fun i hi => ?_) fun _ _ _ h => h.idle rfl
    obtain rfl := Option.some.inj hi
    exact Multiset.mem_singleton_self ip

theorem execInode_follows (hroot : rootino ∈ N.named) (hstart : t.Start) :
    Follows N strict (execInode path) t fun _ => Idle := by
  refine beginOp_follows (.seq (namei_follows hroot hstart.cwd_mem hstart.loose) fun r => ?_)
  cases r with
  | none => exact endOp_follows hstart.idle (within_begun t)
  | some ip =>
    refine .seq_and (ilock_own rfl) fun _ _ =>
      Follows.op (.readProgram ip) (Or.inl rfl) fun b _ => ?_
    exact abandon_follows hstart.idle

theorem endOp_dropped (_ : strict) : (insert ip (∅ : Finset Inum)).card + 0 < maxOpBlocks :=
  (Finset.card_insert_le ip ∅).trans_lt (by decide)

theorem fileclose_follows {f : Nat} (hidle : t.Idle) : Follows N strict (fileclose f) t fun _ => Idle := by
  refine .op (.fileDrop f) trivial fun r _ => ?_
  cases r with
  | bad => exact .panic
  | kept => exact fun _ h => h.idle hidle
  | last ff =>
    dsimp only
    cases hip : ff.ip with
    | none =>
      refine fun _ h => h.idle ?_
      change ff.ip.elim t.refs (· ::ₘ t.refs) = ownRefs t.cwd
      rw [hip]
      exact hidle
    | some ip =>
      have hrefs : ff.ip.elim t.refs (· ::ₘ t.refs) = ip ::ₘ t.refs := by
        rw [hip]
        rfl
      exact .op .beginOp trivial fun _ _ => .seq (iput_follows hrefs (Finset.subset_insert ip _)
        (.inl (Finset.mem_insert_self ..))) fun _ =>
        Follows.last .endOp endOp_dropped fun _ _ _ h => h.idle hidle

theorem sysClose_follows {fd : Nat} (hidle : t.Idle) : Follows N strict (sysClose fd) t fun _ => Idle := by
  refine .op (.argfd fd) trivial fun r _ => ?_
  cases r with
  | none => exact fun _ h => h.idle hidle
  | some f =>
    exact .op (.clearFd fd) trivial fun _ _ =>
      .bind (fileclose_follows hidle) fun _ l hidle₁ _ h => h.idle hidle₁

/-- Each chunk is a transaction: the inode, four data blocks and the indirect block. -/
theorem filewriteLoop_follows {f : Nat} (fuel : Nat) (rest : List UInt8) (hidle : t.Idle)
    (hpin : ip ∈ t.pins) (hnondir : ip ∈ t.nondir) :
    Follows N strict (filewriteLoop f ip fuel rest) t fun _ => Idle := by
  induction fuel generalizing rest t with
  | zero => exact fun _ h => h.idle hidle
  | succ fuel ih =>
    unfold filewriteLoop
    by_cases hempty : rest.isEmpty
    · simp only [hempty, if_true]
      exact fun _ h => h.idle hidle
    simp only [hempty]
    have hlen : (rest.take filewriteMax).length ≤ filewriteMax := by
      rw [List.length_take]
      exact Nat.min_le_left ..
    refine .op .beginOp trivial fun _ _ => .seq_and (ilock_follows (.inr hpin)) fun _ _ =>
      Follows.op (.file f) trivial fun ff _ =>
      .op (.writei ip ff.off (rest.take filewriteMax)) ⟨.inl rfl, .inl hnondir, hlen⟩ fun r _ => ?_
    generalize hwrote : Use.next (.writei ip ff.off _) _ r = t₂
    have hwithin₂ : Within strict 6 t₂ := by
      subst hwrote
      exact (within_begun t).log 5 subset_rfl le_rfl le_rfl
    have hidle₂ : t₂.Idle := by
      subst hwrote
      exact hidle
    have hpin₂ : ip ∈ t₂.pins := by
      subst hwrote
      exact .inl hpin
    have hnondir₂ : ip ∈ t₂.nondir := by
      subst hwrote
      exact .inl hnondir
    -- the rest of the turn, whether or not the offset moves
    have hturn : Follows N strict (do
          iunlock ip
          endOp
          if r < 0 then
            pure false
          else if r ≠ (rest.take filewriteMax).length then
            panic .shortFilewrite
          else
            filewriteLoop f ip fuel (rest.drop filewriteMax) : FsM Bool) t₂ fun _ => Idle := by
      refine .seq iunlock_follows fun _ => Follows.op .endOp (fun hs =>
        Nat.lt_succ_of_le ((hwithin₂ hs).trans (by decide))) fun _ _ => ?_
      split_ifs
      · exact fun _ h => h.idle hidle₂
      · exact Follows.panic
      · exact ih _ hidle₂ hpin₂ hnondir₂
    by_cases hpos : 0 < r
    · simp only [hpos, if_true]
      exact .op (.addOff f r.toNat) trivial fun _ _ => hturn
    · simp only [hpos, if_false]
      exact hturn

theorem sysWrite_follows {fd : Nat} {src : List UInt8} (hidle : t.Idle) :
    Follows N strict (sysWrite fd src) t fun _ => Idle := by
  refine .op (.argfd fd) trivial fun r _ => ?_
  cases r with
  | none => exact fun _ h => h.idle hidle
  | some f =>
    refine .op (.file f) trivial fun ff _ => ?_
    split_ifs with hw
    · cases hip : ff.ip with
      | none => exact .panic
      | some ip =>
        refine .bind (filewriteLoop_follows _ _ hidle (.inr hip) (.inr ⟨hip, hw⟩)) fun b l hidle₁ => ?_
        cases b with
        | true | false => exact fun _ h => h.idle hidle₁
    · exact fun _ h => h.idle hidle

theorem exitFiles_follows (fds : List Nat) (hidle : t.Idle) :
    Follows N strict (exitFiles fds) t fun _ => Idle := by
  induction fds generalizing t with
  | nil => exact fun _ h => h.idle hidle
  | cons fd fds ih =>
    refine .op (.argfd fd) trivial fun r _ => ?_
    cases r with
    | none => exact ih hidle
    | some f =>
      exact .bind (fileclose_follows hidle) fun _ l hidle₁ =>
        .op (.clearFd fd) trivial fun _ _ => ih hidle₁

theorem exitInodes_follows (hidle : t.Idle) : Follows N strict exitInodes t fun _ => Idle := by
  refine .bind (exitFiles_follows _ hidle) fun _ t₁ hidle₁ =>
    .op .beginOp trivial fun _ _ => .op .cwd trivial fun ip hip => ?_
  have hrefs : t₁.refs = ip ::ₘ 0 := by
    rw [hidle₁, show t₁.cwd = some ip from hip]
    rfl
  exact .seq (iput_follows hrefs (Finset.subset_insert ip _) (.inl (Finset.mem_insert_self ..))) fun _ =>
    Follows.op .endOp endOp_dropped fun _ _ => Follows.op (.setCwd none) nofun fun _ _ _ h => h.idle rfl

/-- **Every call obeys the rules**, and ends with its one reference. -/
theorem prog_obeys {l : Use} (call : Call) (hroot : rootino ∈ N.named) (hstart : l.Start) :
    call.prog.Obeys (useProtocol N strict) l fun _ => Idle := by
  refine (?_ : Follows N strict call.prog l fun _ => Idle) l .refl
  cases call with
  | «open» path omode => exact sysOpen_follows hroot hstart
  | mkdir path | mknod path major minor => exact create_iunlockput_follows hroot hstart
  | link old new => exact sysLink_follows hroot hstart
  | unlink path => exact sysUnlink_follows hroot hstart
  | chdir path => exact sysChdir_follows hroot hstart
  | exec path => exact execInode_follows hroot hstart
  | close fd => exact sysClose_follows hstart.idle
  | write fd src => exact sysWrite_follows hstart.idle
  | exit => exact exitInodes_follows hstart.idle

end Calls

end Xv6.Disk
