import Mathlib.Data.Fin.VecNotation
import Xv6.Ide.Model

/-!
# The driver with interrupts refines the one in memory

A completion is the moment at which a request takes effect: the step of `ideintr` is a whole call of
`iderw` in `memide.c` on the buffer at the head of the queue, and all other steps of the driver leave the
buffers and the disk as that driver sees them.
-/

namespace Xv6.Ide

open Function (update update_self update_of_ne)

variable {β δ : Type}

/-! ### One request -/

theorem lba_eq {sector : Nat} (h : sector < 2 ^ 28) : lba sector = sector := by
  unfold lba
  omega

structure Buf.Pending (x : Buf δ) : Prop where
  unsynced : x.synced = false
  dev : x.dev = 1
  blockno : x.blockno.toNat < fssize

variable {x : Buf δ}

theorem Buf.Pending.drive (h : x.Pending) : (command x).drive = 1 := by
  unfold command
  rw [h.dev]
  rfl

theorem Buf.Pending.sector (h : x.Pending) : (command x).sector = x.blockno.toNat := by
  have hlt := h.blockno
  have hone : x.blockno.toNat * (bsize / sectorSize) = x.blockno.toNat := Nat.mul_one _
  unfold command
  rw [hone]
  refine lba_eq ?_
  unfold fssize at hlt
  omega

theorem Buf.Pending.apply (h : x.Pending) (disk : Nat → δ) :
    (command x).apply disk = (Mem.transfer x disk).2 := by
  have hsector := h.sector
  unfold Cmd.apply Mem.transfer
  rw [hsector]
  cases hd : x.dirty <;> simp [command, hd]

theorem Buf.Pending.receive (h : x.Pending) {disk : Nat → δ} {port : δ}
    (hport : (command x).write = none → port = disk (command x).sector) :
    x.receive port = (Mem.transfer x disk).1 := by
  rw [h.sector] at hport
  unfold Buf.receive Mem.transfer
  cases hd : x.dirty with
  | true => simp
  | false =>
    have hdata : port = disk x.blockno.toNat := hport (by simp [command, hd])
    simp [hdata]

theorem Buf.receive_synced (x : Buf δ) (port : δ) : (x.receive port).synced = true := rfl

/-! ### The relation -/

namespace Device

def finished : Device δ → List (Cmd δ)
  | .done c _ => [c]
  | _ => []

def Serves (d : Device δ) (disk : Nat → Nat → δ) : Option (Cmd δ) → Prop
  | none => d = .ready
  | some c => d = .busy c ∨ ∃ port, d = .done c port ∧ (c.write = none → port = disk c.drive c.sector)

end Device

/-- How the state of `ide.c`, with the buffers of `q` in its queue, stands to one of `memide.c`. -/
structure State.Refines (s : State β δ) (q : List β) (m : Mem β δ) : Prop where
  /-- The queue holds each buffer of `q` once. -/
  holds : s.queue.Holds q
  /-- The command in progress is that of the head. -/
  serves : s.device.Serves s.disk (q.head?.map fun b => command (s.buf b))
  /-- The calls that `memide.c` has carried out and then the queue are the requests as they came. -/
  arrived : s.arrived.map Prod.fst = m.done.map Prod.fst ++ q
  /-- The disk has carried out the commands of the first requests, in their order. -/
  executed : s.executed = (s.arrived.map Prod.snd).take (m.done.length + s.device.finished.length)
  buf : m.buf = s.buf
  /-- The disks are the same, but for a write whose interrupt is pending. -/
  disk : s.disk 1 = s.device.finished.foldl (fun d c => c.apply d) m.memdisk
  /-- The request of a call that returns has been carried out, and its buffer is as it was left then. -/
  returned : ∀ p b i, s.call p = some (b, i) → (s.buf b).synced = true → m.done[i]? = some (b, s.buf b)

namespace State

variable {s s' : State β δ} {q : List β} {m : Mem β δ}

/-- `Refines`, with what holds of the buffers and calls in the driver. -/
structure Inv (s : State β δ) (q : List β) (m : Mem β δ) (past : List (β × Cmd δ)) : Prop where
  present : s.havedisk1 = true
  holds : s.queue.Holds q
  serves : s.device.Serves s.disk (q.head?.map fun b => command (s.buf b))
  arrived : s.arrived = past ++ q.map fun b => (b, command (s.buf b))
  names : past.map Prod.fst = m.done.map Prod.fst
  executed : s.executed = past.map Prod.snd ++ s.device.finished
  buf : m.buf = s.buf
  disk : s.disk 1 = s.device.finished.foldl (fun d c => c.apply d) m.memdisk
  pending : ∀ b ∈ q, (s.buf b).Pending
  waits : ∀ b ∈ q, ∃ p i, s.call p = some (b, i)
  held : ∀ p b i, s.call p = some (b, i) → s.holder b = some p
  calls : ∀ p b i, s.call p = some (b, i) → (m.done[i]? = some (b, s.buf b) ∧ (s.buf b).synced = true) ∨
      ∃ j, i = m.done.length + j ∧ q[j]? = some b

variable {past : List (β × Cmd δ)}

theorem Inv.length (h : s.Inv q m past) : past.length = m.done.length := by
  have hlen := congrArg List.length h.names
  rwa [List.length_map, List.length_map] at hlen

variable {b : β} {p : Nat}

theorem Inv.not_mem_of_synced (h : s.Inv q m past) (hsynced : (s.buf b).synced = true) : b ∉ q := by
  intro hmem
  rw [(h.pending b hmem).unsynced] at hsynced
  cases hsynced

theorem Inv.refines (h : s.Inv q m past) : s.Refines q m where
  holds := h.holds
  serves := h.serves
  arrived := by
    rw [h.arrived, List.map_append, List.map_map, h.names]
    exact congrArg _ (List.map_id q)
  executed := by
    rw [h.executed, h.arrived, ← h.length, List.map_append, List.map_map]
    have hserves := h.serves
    cases q with
    | nil =>
      have hready : s.device = .ready := hserves
      simp [hready, Device.finished]
    | cons b q =>
      obtain hbusy | ⟨port, hdone, -⟩ := hserves
      · simp [hbusy, Device.finished]
      · simp [hdone, Device.finished, List.take_append]
  buf := h.buf
  disk := h.disk
  returned := by
    intro p b i hcall hsynced
    obtain ⟨hdone, -⟩ | ⟨j, -, hj⟩ := h.calls p b i hcall
    · exact hdone
    · exact absurd (List.mem_of_getElem? hj) (h.not_mem_of_synced hsynced)

/-! ### Steps that both drivers leave alone -/

theorem Inv.init (buf : β → Buf δ) (disk : Nat → Nat → δ) :
    (State.init buf disk).Inv [] ⟨buf, disk 1, []⟩ [] where
  present := rfl
  holds := .empty _
  serves := rfl
  arrived := rfl
  names := rfl
  executed := rfl
  buf := rfl
  disk := rfl
  pending := nofun
  waits := nofun
  held := nofun
  calls := nofun

theorem Inv.call_ne_of_free (h : s.Inv q m past) (hfree : s.free b = true) (p i : Nat) :
    s.call p ≠ some (b, i) := by
  intro hcall
  unfold free at hfree
  rw [h.held p b i hcall, Option.all_some, hcall] at hfree
  cases hfree

theorem Inv.complete (h : s.Inv q m past) {junk : δ} (hstep : s.complete junk = some s') :
    s'.Inv q m past := by
  cases hdevice : s.device with
  | ready | done c port => simp [State.complete, hdevice] at hstep
  | busy c =>
    have hserves := h.serves
    rw [hdevice] at hserves
    cases q with
    | nil => cases hserves
    | cons b q =>
      obtain hbusy | ⟨port, hdone, -⟩ := hserves
      · cases hbusy
        have hdrive := (h.pending b List.mem_cons_self).drive
        have hdisk := h.disk
        have hexecuted := h.executed
        rw [hdevice] at hdisk hexecuted
        unfold State.complete at hstep
        rw [hdevice] at hstep
        cases hstep
        refine { h with serves := .inr ⟨_, rfl, fun hread => ?_⟩, executed := ?_, disk := ?_ }
        · dsimp only
          rw [hread, update_self]
          unfold Cmd.apply
          rw [hread]
        · exact congrArg (· ++ _) (hexecuted.trans (List.append_nil _))
        · dsimp only
          rw [hdrive, update_self, hdisk]
          rfl
      · cases hdone

theorem start_eq {x : Buf δ} (hx : s.buf b = x) (hlt : x.blockno.toNat < fssize)
    (hready : s.device = .ready) : s.start b = some { s with device := .busy (command x) } := by
  unfold State.start idestart
  rw [hready, hx]
  dsimp only
  rw [if_pos hlt]
  rfl

theorem Inv.not_mem_of_idle (h : s.Inv q m past) (hidle : s.call p = none)
    (hheld : s.holder b = some p) : b ∉ q := by
  intro hmem
  obtain ⟨p', i, hc⟩ := h.waits b hmem
  have hp := h.held p' b i hc
  rw [hheld] at hp
  cases hp
  rw [hidle] at hc
  cases hc

variable [DecidableEq β]

theorem Inv.acquiresleep (h : s.Inv q m past) (hnone : s.holder b = none) :
    Inv { s with holder := update s.holder b (some p) } q m past :=
  { h with
    held := by
      intro p' b' i hcall
      have hheld := h.held p' b' i hcall
      have hne : b' ≠ b := by
        rintro rfl
        rw [hnone] at hheld
        cases hheld
      exact (update_of_ne hne ..).trans hheld }

theorem Inv.releasesleep (h : s.Inv q m past) (hheld : s.holder b = some p)
    (hidle : s.call p = none) : Inv { s with holder := update s.holder b none } q m past :=
  { h with
    held := by
      intro p' b' i hcall
      have hheld' := h.held p' b' i hcall
      have hne : b' ≠ b := by
        rintro rfl
        rw [hheld] at hheld'
        cases hheld'
        rw [hidle] at hcall
        cases hcall
      exact (update_of_ne hne ..).trans hheld' }

omit [DecidableEq β] in
theorem Inv.wake (h : s.Inv q m past) (hstep : s.wake p = some s') : s'.Inv q m past := by
  obtain ⟨⟨b, i⟩, hcall, rfl⟩ := Option.map_eq_some_iff.mp hstep
  dsimp only
  split_ifs with hsynced
  · -- the process leaves; its buffer is not in the queue
    have hout := h.not_mem_of_synced hsynced
    have hother : ∀ p' c, update s.call p none p' = some c → s.call p' = some c := by
      intro p' c hc
      have hne : p' ≠ p := by
        rintro rfl
        rw [update_self] at hc
        cases hc
      rwa [update_of_ne hne] at hc
    refine { h with
      waits := fun b' hmem => ?_
      held := fun p' b' i' hc => h.held p' b' i' (hother p' _ hc)
      calls := fun p' b' i' hc => h.calls p' b' i' (hother p' _ hc) }
    obtain ⟨p', i', hc⟩ := h.waits b' hmem
    have hne : p' ≠ p := by
      rintro rfl
      rw [hcall] at hc
      cases hc
      exact hout hmem
    exact ⟨p', i', (update_of_ne hne ..).trans hc⟩
  · exact h

theorem Inv.set (h : s.Inv q m past) (hfree : s.free b = true) (x : Buf δ) :
    Inv { s with buf := update s.buf b x } q { m with buf := update m.buf b x } past := by
  have hcall : ∀ p b' i, s.call p = some (b', i) → update s.buf b x b' = s.buf b' := by
    intro p b' i hc
    have hne : b' ≠ b := by
      rintro rfl
      exact h.call_ne_of_free hfree p i hc
    exact update_of_ne hne ..
  have hqueue : ∀ b' ∈ q, update s.buf b x b' = s.buf b' := by
    intro b' hmem
    obtain ⟨p, i, hc⟩ := h.waits b' hmem
    exact hcall p b' i hc
  refine { h with
    serves := ?_
    arrived := ?_
    buf := congrArg (update · b x) h.buf
    pending := fun b' hmem => ?_
    calls := fun p b' i hc => ?_ }
  · have hserves := h.serves
    cases q with
    | nil => exact hserves
    | cons b' q =>
      dsimp only
      rwa [List.head?_cons, Option.map_some, hqueue b' List.mem_cons_self]
  · dsimp only
    rw [h.arrived]
    refine congrArg _ (List.map_congr_left fun b' hmem => ?_)
    rw [hqueue b' hmem]
  · dsimp only
    rw [hqueue b' hmem]
    exact h.pending b' hmem
  · dsimp only
    rw [hcall p b' i hc]
    exact h.calls p b' i hc

/-! ### Requests -/

theorem getElem?_append_of_some {α : Type} {l₁ l₂ : List α} {i : Nat} {x : α} (h : l₁[i]? = some x) :
    (l₁ ++ l₂)[i]? = some x :=
  (List.getElem?_append_left (List.getElem?_eq_some_iff.mp h).1).trans h

omit [DecidableEq β] in
theorem Inv.append (h : s.Inv q m past) {k : LinkedQueue β} {d : Device δ}
    (hidle : s.call p = none) (hheld : s.holder b = some p) (hx : (s.buf b).Pending)
    (hk : k.Holds (q ++ [b])) (hd : d.Serves s.disk ((q ++ [b]).head?.map fun b => command (s.buf b)))
    (hfinished : d.finished = s.device.finished) : Inv { s with
      queue := k
      call := update s.call p (some (b, s.arrived.length))
      arrived := s.arrived ++ [(b, command (s.buf b))]
      device := d } (q ++ [b]) m past := by
  have hlen : s.arrived.length = m.done.length + q.length := by
    rw [h.arrived, List.length_append, List.length_map, h.length]
  have hother : ∀ {p' c}, s.call p' = some c →
      update s.call p (some (b, s.arrived.length)) p' = some c := by
    intro p' c hc
    have hne : p' ≠ p := by
      rintro rfl
      rw [hidle] at hc
      cases hc
    exact (update_of_ne hne ..).trans hc
  -- a call is the new one or one of those before
  have hcases : ∀ p' b' i, update s.call p (some (b, s.arrived.length)) p' = some (b', i) →
      (p' = p ∧ b' = b ∧ i = m.done.length + q.length) ∨ s.call p' = some (b', i) := by
    intro p' b' i hc
    by_cases hp : p' = p
    · subst hp
      rw [update_self] at hc
      cases hc
      exact .inl ⟨rfl, rfl, hlen⟩
    · rw [update_of_ne hp] at hc
      exact .inr hc
  refine { h with
    holds := hk
    serves := hd
    arrived := ?_
    executed := ?_
    disk := ?_
    pending := fun b' hmem => ?_
    waits := fun b' hmem => ?_
    held := fun p' b' i hc => ?_
    calls := fun p' b' i hc => ?_ }
  · dsimp only
    rw [h.arrived, List.append_assoc, List.map_append]
    rfl
  · exact h.executed.trans (congrArg _ hfinished.symm)
  · dsimp only
    rw [hfinished]
    exact h.disk
  · obtain hmem | hmem := List.mem_append.mp hmem
    · exact h.pending b' hmem
    · obtain rfl := List.mem_singleton.mp hmem
      exact hx
  · obtain hmem | hmem := List.mem_append.mp hmem
    · obtain ⟨p', i, hc⟩ := h.waits b' hmem
      exact ⟨p', i, hother hc⟩
    · obtain rfl := List.mem_singleton.mp hmem
      exact ⟨p, s.arrived.length, update_self ..⟩
  · obtain ⟨rfl, rfl, -⟩ | hc := hcases p' b' i hc
    · exact hheld
    · exact h.held p' b' i hc
  · obtain ⟨-, rfl, rfl⟩ | hc := hcases p' b' i hc
    · exact .inr ⟨q.length, rfl, List.getElem?_concat_length⟩
    · refine (h.calls p' b' i hc).imp_right ?_
      rintro ⟨j, hi, hj⟩
      exact ⟨j, hi, getElem?_append_of_some hj⟩

theorem Inv.iderw [Fintype β] (h : s.Inv q m past) (hidle : s.call p = none)
    (hheld : s.holder b = some p) (hx : (s.buf b).Pending) :
    ∃ s', s.iderw p b = some s' ∧ s'.Inv (q ++ [b]) m past := by
  have hb := h.not_mem_of_idle hidle hheld
  have hroom : q.length < Fintype.card β :=
    (List.nodup_cons.mpr ⟨hb, h.holds.nodup⟩).length_le_card
  obtain ⟨k, hpush, hk⟩ := h.holds.push hb hroom
  have hdisk : ¬((s.buf b).dev ≠ 0 ∧ (!s.havedisk1) = true) := by
    rw [h.present]
    exact fun hno => nomatch hno.2
  have hun : ¬(s.buf b).synced = true := by
    rw [hx.unsynced]
    exact Bool.false_ne_true
  unfold State.iderw
  dsimp only
  rw [if_neg (not_not_intro hheld), if_neg hun, if_neg hdisk, hpush, Option.bind_some, hk.head_eq]
  have hserves := h.serves
  cases q with
  | nil =>
    -- the disk is started
    have hready : s.device = .ready := hserves
    have hhead : ([] ++ [b]).head? = some b := rfl
    rw [if_pos hhead]
    exact ⟨_, start_eq rfl hx.blockno hready, h.append hidle hheld hx hk (.inl rfl) (by rw [hready]; rfl)⟩
  | cons b' q =>
    have hne : ¬(b' :: q ++ [b]).head? = some b := by
      intro heq
      cases heq
      exact hb List.mem_cons_self
    rw [if_neg hne]
    exact ⟨_, rfl, h.append hidle hheld hx hk hserves rfl⟩

theorem iderw_some [Fintype β] (hstep : s.iderw p b = some s') :
    s.holder b = some p ∧ (s.buf b).synced = false := by
  unfold State.iderw at hstep
  obtain ⟨hheld, hstep⟩ := Option.ite_none_left_eq_some.mp hstep
  obtain ⟨hun, -⟩ := Option.ite_none_left_eq_some.mp hstep
  exact ⟨not_not.mp hheld, Bool.not_eq_true _ ▸ hun⟩

/-! ### Completions -/

theorem Inv.remove {port : δ} {c : Cmd δ} {d : Device δ} (h : s.Inv (b :: q) m past)
    (hdevice : s.device = .done c port)
    (hd : d.Serves s.disk (q.head?.map fun b => command (s.buf b))) (hfinished : d.finished = []) :
    ∃ m', m.iderw b = some m' ∧ Inv { s with
        device := d
        queue := s.queue.pop b
        buf := update s.buf b ((s.buf b).receive port) } q m' (past ++ [(b, command (s.buf b))]) := by
  have hx := h.pending b List.mem_cons_self
  have hbq : b ∉ q := (List.nodup_cons.mp h.holds.nodup).1
  have hserves := h.serves
  have hdisk := h.disk
  have hexecuted := h.executed
  rw [hdevice] at hserves hdisk hexecuted
  obtain hbusy | ⟨port', hdone, hport⟩ := hserves
  · cases hbusy
  cases hdone
  have happly : s.disk 1 = (Mem.transfer (s.buf b) m.memdisk).2 := hdisk.trans (hx.apply m.memdisk)
  -- a read finds the block that `memide.c` copies: the command has written nothing
  have hreceive : (s.buf b).receive port = (Mem.transfer (s.buf b) m.memdisk).1 := by
    refine hx.receive fun hread => ?_
    rw [hport hread, hx.drive, hdisk]
    change (command (s.buf b)).apply m.memdisk _ = _
    unfold Cmd.apply
    rw [hread]
  have hqueue : ∀ b' ∈ q, update s.buf b ((s.buf b).receive port) b' = s.buf b' := by
    intro b' hmem
    have hne : b' ≠ b := fun heq => hbq (heq ▸ hmem)
    exact update_of_ne hne ..
  have hmem : m.iderw b = some
      { buf := update s.buf b ((s.buf b).receive port)
        memdisk := (Mem.transfer (s.buf b) m.memdisk).2
        done := m.done ++ [(b, (s.buf b).receive port)] } := by
    unfold Mem.iderw
    dsimp only
    rw [h.buf, hreceive, if_neg (by rw [hx.unsynced]; exact Bool.false_ne_true),
      if_neg (not_not_intro hx.dev), if_neg (Nat.not_le.mpr hx.blockno)]
  refine ⟨_, hmem, { h with
    holds := h.holds.pop
    serves := ?_
    arrived := ?_
    names := ?_
    executed := ?_
    buf := rfl
    disk := ?_
    pending := fun b' hmem => ?_
    waits := fun b' hmem => h.waits b' (List.mem_cons_of_mem b hmem)
    calls := fun p b' i hc => ?_ }⟩
  · cases q with
    | nil => exact hd
    | cons b' q =>
      dsimp only
      rwa [List.head?_cons, Option.map_some, hqueue b' List.mem_cons_self]
  · dsimp only
    rw [h.arrived, List.append_assoc, List.map_cons]
    refine congrArg _ (congrArg _ (List.map_congr_left fun b' hmem => ?_))
    rw [hqueue b' hmem]
  · rw [List.map_append, List.map_append, h.names]
    rfl
  · dsimp only
    rw [hexecuted, hfinished, List.append_nil, List.map_append]
    rfl
  · dsimp only
    rw [hfinished]
    exact happly
  · dsimp only
    rw [hqueue b' hmem]
    exact h.pending b' (List.mem_cons_of_mem b hmem)
  · dsimp only
    obtain ⟨hdone, hsynced⟩ | ⟨j, rfl, hj⟩ := h.calls p b' i hc
    · have hne : b' ≠ b := by
        rintro rfl
        exact h.not_mem_of_synced hsynced List.mem_cons_self
      rw [update_of_ne hne]
      exact .inl ⟨getElem?_append_of_some hdone, hsynced⟩
    · cases j with
      | zero =>
        -- the request of the head
        cases hj
        rw [update_self]
        exact .inl ⟨List.getElem?_concat_length, Buf.receive_synced _ port⟩
      | succ j =>
        refine .inr ⟨j, ?_, hj⟩
        rw [List.length_append, List.length_singleton]
        omega

theorem Inv.ideintr (h : s.Inv q m past) {c : Cmd δ} {port : δ} (hdevice : s.device = .done c port) :
    ∃ s' b q' m' past', s.ideintr = some s' ∧ m.iderw b = some m' ∧ s'.Inv q' m' past' := by
  have hserves := h.serves
  rw [hdevice] at hserves
  cases q with
  | nil => cases hserves
  | cons b q =>
    have hhead : s.queue.head = some b := h.holds.head_eq
    have hnext : (s.queue.pop b).head = q.head? := h.holds.pop.head_eq
    unfold State.ideintr handle
    rw [hdevice]
    dsimp only
    rw [hhead]
    dsimp only
    rw [hnext]
    cases q with
    | nil =>
      obtain ⟨m', hm, hinv⟩ := h.remove (d := .ready) hdevice rfl rfl
      exact ⟨_, b, _, m', _, rfl, hm, hinv⟩
    | cons b' q =>
      have hne : b' ≠ b := by
        rintro rfl
        exact (List.nodup_cons.mp h.holds.nodup).1 List.mem_cons_self
      have hx := h.pending b' (List.mem_cons_of_mem b List.mem_cons_self)
      obtain ⟨m', hm, hinv⟩ :=
        h.remove (d := .busy (command (s.buf b'))) hdevice (.inl rfl) rfl
      have hbuf : update s.buf b ((s.buf b).receive port) b' = s.buf b' :=
        update_of_ne hne ..
      exact ⟨_, b, _, m', _, start_eq hbuf hx.blockno rfl, hm, hinv⟩

/-! ### Runs -/

def Simulates (buf : β → Buf δ) (disk : Nat → Nat → δ) (s : State β δ) : Prop :=
  ∃ q m past, Reaches Mem.step (fun _ _ => True) ⟨buf, disk 1, []⟩ m ∧ s.Inv q m past

theorem Simulates.step [Fintype β] {buf : β → Buf δ} {disk : Nat → Nat → δ}
    (hs : s.Simulates buf disk) {a : Act β δ} (ha : s.Proper a) (hstep : s.step a = some s') :
    s'.Simulates buf disk := by
  obtain ⟨q, m, past, hm, h⟩ := hs
  cases a with
  | acquiresleep p b =>
    obtain ⟨hcond, ⟨⟩⟩ := Option.ite_none_right_eq_some.mp hstep
    exact ⟨q, m, past, hm, h.acquiresleep hcond.1⟩
  | releasesleep p b =>
    obtain ⟨hcond, ⟨⟩⟩ := Option.ite_none_right_eq_some.mp hstep
    exact ⟨q, m, past, hm, h.releasesleep hcond.1 hcond.2⟩
  | set b x =>
    obtain ⟨hfree, ⟨⟩⟩ := Option.ite_none_right_eq_some.mp hstep
    exact ⟨q, _, past, hm.step (.set b x) trivial rfl, h.set hfree x⟩
  | iderw p b =>
    obtain ⟨hidle, hcall⟩ := Option.ite_none_right_eq_some.mp hstep
    obtain ⟨hheld, hun⟩ := iderw_some hcall
    obtain ⟨s₁, hs₁, hinv⟩ := h.iderw hidle hheld ⟨hun, ha.1, ha.2⟩
    cases hcall.symm.trans hs₁
    exact ⟨_, m, past, hm, hinv⟩
  | complete junk => exact ⟨q, m, past, hm, h.complete hstep⟩
  | ideintr =>
    cases hdevice : s.device with
    | done c port =>
      obtain ⟨s₁, b, q', m', past', hs₁, hm', hinv⟩ := h.ideintr hdevice
      cases hs₁.symm.trans hstep
      exact ⟨q', m', past', hm.step (.iderw b) trivial hm', hinv⟩
    | ready | busy c => simp [State.step, State.ideintr, hdevice] at hstep
  | wake p => exact ⟨q, m, past, hm, h.wake hstep⟩

end State

/-- **The driver with interrupts refines the one in memory.** In every state that calls for device 1 and
completions reach, in any order, `memide.c` has run to a state of the same buffers and disk by one call
for each completion, so that a call that returns leaves its buffer as that driver did; the queue holds
no buffer twice, and the disk is at work on its head; and neither a call with something to do nor a
completion makes the driver panic. -/
theorem ide_refines_memide [DecidableEq β] [Fintype β] {buf : β → Buf δ} {disk : Nat → Nat → δ}
    {s : State β δ} (hrun : Reaches State.step State.Proper (.init buf disk) s) :
    (∃ q m, Reaches Mem.step (fun _ _ => True) ⟨buf, disk 1, []⟩ m ∧ s.Refines q m) ∧
    (∀ c port, s.device = .done c port → (s.step .ideintr).isSome) ∧
    (∀ p b, s.Proper (.iderw p b) → s.call p = none → s.holder b = some p →
      (s.buf b).synced = false → (s.step (.iderw p b)).isSome) := by
  have hinit : (State.init buf disk).Simulates buf disk := ⟨[], _, [], .refl, State.Inv.init buf disk⟩
  obtain ⟨q, m, past, hm, h⟩ : s.Simulates buf disk :=
    hrun.invariant hinit fun _ _ _ hs hG hstep => hs.step hG hstep
  refine ⟨⟨q, m, hm, h.refines⟩, fun c port hdevice => ?_, fun p b hproper hidle hheld hun => ?_⟩
  · obtain ⟨s', -, -, -, -, hs', -⟩ := h.ideintr hdevice
    exact Option.isSome_iff_exists.mpr ⟨s', hs'⟩
  · obtain ⟨s', hs', -⟩ := h.iderw hidle hheld ⟨hun, hproper.1, hproper.2⟩
    exact Option.isSome_iff_exists.mpr ⟨s', (if_pos hidle).trans hs'⟩

/-- Two processes ask for the block 7, one to write 5 to it and then one to read it: the second finds 5,
and goes on first. -/
theorem ide_refines_memide_two : ∃ s : State (Fin 2) Nat, Reaches State.step State.Proper
      (.init ![⟨true, true, 1, 7, 5⟩, ⟨false, false, 1, 7, 0⟩] fun _ _ => 3) s ∧
    s.buf 1 = ⟨true, false, 1, 7, 5⟩ ∧ s.disk 1 7 = 5 ∧ s.call 2 = none ∧ s.call 1 = some (0, 0) ∧
    ∃ q m, s.Refines q m := by
  have hrun : ((runActs State.step State.Proper
      [.acquiresleep 1 0, .acquiresleep 2 1, .iderw 1 0, .iderw 2 1, .complete 0, .ideintr,
        .complete 0, .ideintr, .wake 2]
      (.init ![⟨true, true, 1, 7, 5⟩, ⟨false, false, 1, 7, 0⟩] fun _ _ => 3)).map
        fun s => (s.buf 1, s.disk 1 7, s.call 2, s.call 1)) =
      some (⟨true, false, 1, 7, 5⟩, 5, none, some (0, 0)) := by
    decide +kernel
  obtain ⟨s, hreach, heq⟩ := Reaches.of_map hrun
  obtain ⟨hbuf, hdisk, hout, hin⟩ : s.buf 1 = _ ∧ s.disk 1 7 = _ ∧ s.call 2 = _ ∧ s.call 1 = _ := by
    simpa only [Prod.mk.injEq] using heq
  obtain ⟨q, m, -, hrefines⟩ := (ide_refines_memide hreach).1
  exact ⟨s, hreach, hbuf, hdisk, hout, hin, q, m, hrefines⟩

end Xv6.Ide
