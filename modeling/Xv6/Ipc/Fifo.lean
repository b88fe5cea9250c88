import Xv6.Ipc.Pipe
import Xv6.Lib.Mutex

/-!
# A pipe is a bounded queue

Every reachable state keeps the pipe's ring in step with the bytes that went in and came out. A
process stores a byte only after it has seen the pipe not full, and takes one only after it has seen it
not empty; in between it holds `p->lock`.
-/

namespace Xv6.Ipc

/-! ### The ring -/

namespace Pipe

variable {p : Pipe}

theorem count_eq : p.count = (2 ^ 32 - p.nread.toNat + p.nwrite.toNat) % 2 ^ 32 :=
  UInt32.toNat_sub _ _

theorem full_iff : p.Full ↔ p.count = pipesize := by
  have hadd : (p.nread + 512).toNat = (p.nread.toNat + 512) % 2 ^ 32 := UInt32.toNat_add _ _
  have hr := p.nread.toNat_lt
  have hw := p.nwrite.toNat_lt
  unfold Full pipesize
  rw [← UInt32.toNat_inj, hadd, count_eq]
  omega

theorem empty_iff : p.Empty ↔ p.count = 0 := by
  have hr := p.nread.toNat_lt
  have hw := p.nwrite.toNat_lt
  unfold Empty
  rw [← UInt32.toNat_inj, count_eq]
  omega

/-- The write end stands `count` places behind the read end, also after either counter has wrapped. -/
theorem nwrite_eq : p.nwrite.toNat = (p.nread.toNat + p.count) % 2 ^ 32 := by
  have hr := p.nread.toNat_lt
  have hw := p.nwrite.toNat_lt
  rw [count_eq]
  omega

variable {c : UInt8}

theorem count_put (hcount : p.count < pipesize) : (p.put c).count = p.count + 1 := by
  have hadd : (p.nwrite + 1).toNat = (p.nwrite.toNat + 1) % 2 ^ 32 := UInt32.toNat_add _ _
  have hr := p.nread.toNat_lt
  have hw := p.nwrite.toNat_lt
  simp only [pipesize] at hcount
  rw [count_eq] at hcount ⊢
  rw [count_eq]
  simp only [put, hadd]
  omega

theorem count_dropFront (hpos : 0 < p.count) : p.dropFront.count = p.count - 1 := by
  have hadd : (p.nread + 1).toNat = (p.nread.toNat + 1) % 2 ^ 32 := UInt32.toNat_add _ _
  have hr := p.nread.toNat_lt
  have hw := p.nwrite.toNat_lt
  rw [count_eq] at hpos ⊢
  rw [count_eq]
  simp only [dropFront, hadd]
  omega

theorem pipesize_dvd : pipesize ∣ 2 ^ 32 := by decide

theorem stored_put (hcount : p.count < pipesize) : (p.put c).stored = p.stored ++ [c] := by
  have hindex : p.nwrite.toNat % pipesize = (p.nread.toNat + p.count) % pipesize := by
    rw [nwrite_eq, Nat.mod_mod_of_dvd _ pipesize_dvd]
  unfold stored
  rw [count_put hcount]
  unfold put
  rw [hindex]
  exact Ring.contents_push c hcount

theorem stored_dropFront (hpos : 0 < p.count) : p.stored = p.front :: p.dropFront.stored := by
  have hadd : p.dropFront.nread.toNat = (p.nread.toNat + 1) % 2 ^ 32 := UInt32.toNat_add _ _
  obtain ⟨k, hk⟩ := Nat.exists_eq_succ_of_ne_zero (Nat.ne_of_gt hpos)
  unfold stored
  rw [count_dropFront hpos, hadd, Ring.contents_mod pipesize_dvd, hk]
  exact Ring.contents_pop

theorem shut_count (w : Bool) : (p.shut w).count = p.count := by
  cases w <;> rfl

theorem shut_stored (w : Bool) : (p.shut w).stored = p.stored := by
  cases w <;> rfl

end Pipe

/-! ### What a process knows before a statement -/

def Chan.Waits (p : Pipe) : Chan → Prop
  | .nread => p.Empty ∧ p.writeopen = true
  | .nwrite => p.Full ∧ p.readopen = true

def Stmt.At (p : Pipe) : Stmt → Prop
  | .writeTest .. => p.Full
  | .writeWakeup .. | .writeSleep .. => Chan.nwrite.Waits p
  | .writeStore .. => ¬ p.Full
  | .readTest .. | .readSleep .. => Chan.nread.Waits p
  | .readStore .. => ¬ p.Empty
  | _ => True

def Stmt.Free (st : Stmt) : Prop := ∀ p, st.At p

/-- What an effect relies on, and what the next statement may rely on. -/
def Effect.Sound (p : Pipe) : Effect → Prop
  | .goto next | .wakeup _ next => next.At p
  | .store next => ¬ p.Full ∧ next.Free
  | .take next => ¬ p.Empty ∧ next.Free
  | .shut _ next => next.Free
  | .sleep c next => c.Waits p ∧ next.Free
  | .leave _ | .leaveFree => True

theorem Call.entry_free (c : Call) : c.entry.Free := by
  intro p
  cases c <;> trivial

theorem Stmt.At.effect {p : Pipe} {st : Stmt} (hat : st.At p) (killed : Bool) :
    (st.effect p killed).Sound p := by
  cases st with
  | writeFor n i =>
    simp only [Stmt.effect, Effect.Sound]
    split <;> trivial
  | writeWhile n i =>
    simp only [Stmt.effect, Effect.Sound]
    split <;> assumption
  | writeTest n i =>
    simp only [Stmt.effect]
    split
    · trivial
    · rename_i hopen
      rw [not_or, Bool.not_eq_false] at hopen
      exact ⟨hat, hopen.1⟩
  | writeWakeup n i => exact hat
  | writeSleep n i | writeStore n i | readSleep n | readStore n i => exact ⟨hat, fun _ => trivial⟩
  | writeDone n | readDone i | closeWakeup w | ret r => trivial
  | readWhile n =>
    simp only [Stmt.effect, Effect.Sound]
    split
    · assumption
    · trivial
  | readTest n =>
    simp only [Stmt.effect]
    split
    · trivial
    · exact hat
  | readFor n i =>
    simp only [Stmt.effect, Effect.Sound]
    split
    · rename_i hmore
      exact hmore.2
    · trivial
  | closeSet w => exact fun _ => trivial
  | closeTest =>
    simp only [Stmt.effect]
    split <;> trivial

/-! ### The invariant -/

/-- Between `acquire(&p->lock)` and `release(&p->lock)`. -/
def Pc.Holds : Pc → Prop
  | .locked _ | .sleepRelease .. => True
  | _ => False

/-- Inside `sleep`, between `acquire(&ptable.lock)` and the switch. -/
def Pc.HoldsPtable : Pc → Prop
  | .sleepRelease .. | .sleepSwitch .. => True
  | _ => False

def Pc.At (p : Pipe) : Pc → Prop
  | .idle | .kfree => True
  | .acquire st | .sched st | .sleepSwitch _ st => st.Free
  | .locked st => st.At p
  | .sleepRelease c st => c.Waits p ∧ st.Free

theorem Pc.At.of_not_holds {p p' : Pipe} {pc : Pc} (hat : pc.At p) (hnot : ¬ pc.Holds) :
    pc.At p' := by
  cases pc with
  | locked st | sleepRelease c st => exact absurd trivial hnot
  | idle | kfree | acquire _ | sched _ | sleepSwitch _ _ => exact hat

variable {n : Nat} {s s' : State n} {p q : Fin n} {x : Proc}

namespace State

def Moves (s : State n) (p : Fin n) (x : Proc) (s' : State n) : Prop :=
  s'.proc = Function.update s.proc p x

theorem Moves.pc_self (hmoves : s.Moves p x s') : s'.pc p = x.pc := by
  unfold pc
  rw [hmoves, Function.update_self]

theorem Moves.pc_of_ne (hmoves : s.Moves p x s') (hq : q ≠ p) : s'.pc q = s.pc q := by
  unfold pc
  rw [hmoves, Function.update_of_ne hq]

@[simp]
theorem wakeup_pc (c : Chan) : (s.wakeup c).pc q = s.pc q := by
  unfold pc wakeup
  dsimp only
  split <;> rfl

structure Inv (s : State n) : Prop where
  lock : Mutex s.lock fun q => (s.pc q).Holds
  ptable : Mutex s.ptable fun q => (s.pc q).HoldsPtable
  at_pc : ∀ q, (s.pc q).At s.pipe
  count : s.pipe.count ≤ pipesize
  fifo : s.removed ++ s.pipe.stored = s.appended

theorem init_inv (data : Nat → UInt8) : (State.init data : State n).Inv := by
  have hcount : (State.init data : State n).pipe.count = 0 := Pipe.empty_iff.mp rfl
  refine ⟨fun _ => ⟨False.elim, nofun⟩, fun _ => ⟨False.elim, nofun⟩, fun _ => trivial, ?_, ?_⟩
  · rw [hcount]
    exact Nat.zero_le _
  · unfold Pipe.stored
    rw [hcount]
    rfl

section

variable (hinv : s.Inv)
include hinv

/-- Only the owner of `p->lock` changes the pipe, so what the others know stays true. -/
theorem Inv.move {pc : Pc} (hpc : s.pc p = pc) (hmoves : s.Moves p x s')
    (hlock : Mutex.Move s.lock p pc.Holds x.pc.Holds s'.lock)
    (hptable : Mutex.Move s.ptable p pc.HoldsPtable x.pc.HoldsPtable s'.ptable)
    (hpipe : s'.pipe = s.pipe ∨ pc.Holds) (hat : x.pc.At s'.pipe) (hcount : s'.pipe.count ≤ pipesize)
    (hfifo : s'.removed ++ s'.pipe.stored = s'.appended) : s'.Inv := by
  subst hpc
  have hlock' := hinv.lock.move (P := fun x : Proc => x.pc.Holds) (T := s.proc) hlock
  have hptable' := hinv.ptable.move (P := fun x : Proc => x.pc.HoldsPtable) (T := s.proc) hptable
  rw [← hmoves] at hlock' hptable'
  refine ⟨hlock', hptable', fun q => ?_, hcount, hfifo⟩
  by_cases hq : q = p
  · rw [hq, hmoves.pc_self]
    exact hat
  · rw [hmoves.pc_of_ne hq]
    obtain hsame | hholds := hpipe
    · rw [hsame]
      exact hinv.at_pc q
    · exact (hinv.at_pc q).of_not_holds fun hin => hq (hinv.lock.unique hholds hin)

theorem Inv.wakeup (c : Chan) : (s.wakeup c).Inv where
  lock := hinv.lock.keep fun q => by rw [wakeup_pc]
  ptable := hinv.ptable.keep fun q => by rw [wakeup_pc]
  at_pc q := by
    rw [wakeup_pc]
    exact hinv.at_pc q
  count := hinv.count
  fifo := hinv.fifo

theorem Inv.inside {st next : Stmt} (hpc : s.pc p = .locked st)
    (hmoves : s.Moves p { s.proc p with pc := .locked next } s') (hlock : s'.lock = s.lock)
    (hptable : s'.ptable = s.ptable) (hat : next.At s'.pipe) (hcount : s'.pipe.count ≤ pipesize)
    (hfifo : s'.removed ++ s'.pipe.stored = s'.appended) : s'.Inv :=
  hinv.move hpc hmoves (hlock ▸ .keep .rfl) (hptable ▸ .keep .rfl) (.inr trivial) hat hcount hfifo

theorem Inv.apply {st : Stmt} {e : Effect} {c : UInt8} (hpc : s.pc p = .locked st)
    (hsound : e.Sound s.pipe) (hstep : s.apply p c e = some s') : s'.Inv := by
  cases e with
  | goto next =>
    cases hstep
    exact hinv.inside hpc rfl rfl rfl hsound hinv.count hinv.fifo
  | store next =>
    cases hstep
    have hcount : s.pipe.count < pipesize :=
      Nat.lt_of_le_of_ne hinv.count fun heq => hsound.1 (Pipe.full_iff.mpr heq)
    refine hinv.inside hpc rfl rfl rfl (hsound.2 _) ?_ ?_
    · exact (Pipe.count_put hcount).trans_le hcount
    · change s.removed ++ (s.pipe.put c).stored = s.appended ++ [c]
      rw [Pipe.stored_put hcount, ← List.append_assoc, hinv.fifo]
  | take next =>
    cases hstep
    have hpos : 0 < s.pipe.count :=
      Nat.pos_of_ne_zero fun heq => hsound.1 (Pipe.empty_iff.mpr heq)
    refine hinv.inside hpc rfl rfl rfl (hsound.2 _) ?_ ?_
    · exact (Pipe.count_dropFront hpos).trans_le ((Nat.sub_le _ 1).trans hinv.count)
    · change (s.removed ++ [s.pipe.front]) ++ s.pipe.dropFront.stored = s.appended
      rw [List.append_assoc, List.singleton_append, ← Pipe.stored_dropFront hpos, hinv.fifo]
  | shut w next =>
    cases hstep
    refine hinv.inside hpc rfl rfl rfl (hsound _) ?_ ?_
    · exact (Pipe.shut_count w).trans_le hinv.count
    · exact (congrArg _ (Pipe.shut_stored w)).trans hinv.fifo
  | wakeup chan next =>
    simp only [State.apply] at hstep
    split at hstep
    · cases hstep
      have hpc' : (s.wakeup chan).pc p = .locked st := (wakeup_pc chan).trans hpc
      exact (hinv.wakeup chan).inside hpc' rfl rfl rfl hsound hinv.count hinv.fifo
    · cases hstep
  | sleep chan next =>
    simp only [State.apply] at hstep
    split at hstep
    · rename_i hfree
      cases hstep
      exact hinv.move hpc rfl (.keep .rfl) (.acquire hfree trivial) (.inl rfl) hsound hinv.count hinv.fifo
    · cases hstep
  | leave r | leaveFree =>
    cases hstep
    exact hinv.move hpc rfl (.release trivial id) (.keep .rfl) (.inl rfl) trivial hinv.count hinv.fifo

theorem Inv.next {c : UInt8} (hstep : s.next p c = some s') : s'.Inv := by
  have hat := hinv.at_pc p
  unfold State.next at hstep
  cases hpc : s.pc p <;> simp only [hpc] at hstep hat
  case idle => cases hstep
  case acquire st =>
    split at hstep
    · rename_i hfree
      cases hstep
      exact hinv.move hpc rfl (.acquire hfree trivial) (.keep .rfl) (.inl rfl) (hat _) hinv.count hinv.fifo
    · cases hstep
  case locked st =>
    exact hinv.apply hpc (hat.effect _) hstep
  case sleepRelease chan st =>
    cases hstep
    exact hinv.move hpc rfl (.release trivial id) (.keep .rfl) (.inl rfl) hat.2 hinv.count hinv.fifo
  case sleepSwitch chan st =>
    cases hstep
    exact hinv.move hpc rfl (.keep .rfl) (.release trivial id) (.inl rfl) hat hinv.count hinv.fifo
  case sched st =>
    split at hstep
    · cases hstep
      exact hinv.move hpc rfl (.keep .rfl) (.keep .rfl) (.inl rfl) hat hinv.count hinv.fifo
    · cases hstep
  case kfree =>
    cases hstep
    exact hinv.move hpc rfl (.keep .rfl) (.keep .rfl) (.inl rfl) trivial hinv.count hinv.fifo

theorem Inv.step {a : Act n} (hstep : step s a = some s') : s'.Inv := by
  cases a with
  | call p c =>
    simp only [Ipc.step] at hstep
    split at hstep
    · rename_i hidle
      cases hstep
      exact hinv.move hidle.1 rfl (.keep .rfl) (.keep .rfl) (.inl rfl) c.entry_free hinv.count hinv.fifo
    · cases hstep
  | step p c =>
    simp only [Ipc.step] at hstep
    split at hstep
    · exact hinv.next hstep
    · cases hstep
  | kill q =>
    simp only [Ipc.step] at hstep
    split at hstep
    · cases hstep
      exact hinv.move rfl rfl (.keep .rfl) (.keep .rfl) (.inl rfl) (hinv.at_pc q) hinv.count hinv.fifo
    · cases hstep

end

end State

/-- In every reachable state the pipe holds at most `PIPESIZE` bytes, and what readers have removed,
followed by what is stored, is what writers have appended. -/
theorem pipe_fifo {data : Nat → UInt8} {s : State n}
    (hrun : Reaches step (fun _ _ => True) (State.init data) s) :
    (s.pipe.nwrite - s.pipe.nread).toNat ≤ pipesize ∧ s.removed ++ s.pipe.stored = s.appended := by
  have hinv : s.Inv := hrun.invariant (State.init_inv data) fun _ _ _ hinv _ hstep => hinv.step hstep
  exact ⟨hinv.count, hinv.fifo⟩

/-- A reader that waits on the empty pipe gets the first of the two bytes that the writer appends. -/
theorem pipe_fifo_twoBytes : ∃ s : State 2, Reaches step (fun _ _ => True) (State.init fun _ => 0) s ∧
      (s.appended = [7, 8] ∧ s.removed = [7]) ∧ s.removed ++ s.pipe.stored = s.appended := by
  have hacts : (runActs step (fun _ _ => True) ([.call 0 (.piperead 1)] ++ List.replicate 6 (.step 0 0) ++
        [.call 1 (.pipewrite 2), .step 1 0, .step 1 0, .step 1 0, .step 1 7, .step 1 0, .step 1 0,
          .step 1 8, .step 1 0, .step 1 0, .step 1 0] ++ List.replicate 5 (.step 0 0))
      (.init fun _ => 0 : State 2)).map (fun s => (s.appended, s.removed)) = some ([7, 8], [7]) := by
    decide +kernel
  obtain ⟨s, hrun, hproj⟩ := Reaches.of_map hacts
  simp only [Prod.mk.injEq] at hproj
  exact ⟨s, hrun, hproj, (pipe_fifo hrun).2⟩

end Xv6.Ipc
