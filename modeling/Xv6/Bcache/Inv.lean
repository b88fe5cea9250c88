import Xv6.Bcache.Model
import Xv6.Lib.Count

/-!
# What the buffer cache keeps

The invariant speaks of the ring, of each buffer and of each process. An action concerns one process
and one buffer: it changes what the process holds exclusively, or only the count of references, or it
gives a buffer that nobody refers to another block.
-/

namespace Xv6.Bcache

open Function (update update_self update_of_ne)

variable {n : Nat} {δ : Type} {s s' : State n δ} {p q : Fin n} {b b' : BufId}

def State.content (s : State n δ) (dev : Dev) (blockno : Blockno) : δ :=
  (s.left dev blockno).getD (s.disk dev blockno)

def Pc.refs (b : BufId) : Pc → Nat
  | .acquiring b' _ _ | .dropping b' => if b' = b then 1 else 0
  | _ => 0

def State.refs (s : State n δ) (b : BufId) (p : Fin n) : Nat := (s.holds p b).toNat + (s.pc p).refs b

/-- In `bread`, before the buffer is known to be valid. -/
def Pc.Reads (pc : Pc) (b : BufId) : Prop := ∃ dev blockno, pc = .reading b dev blockno

structure ProcInv (s : State n δ) (q : Fin n) : Prop where
  acquiring : ∀ b dev blockno, s.pc q = .acquiring b dev blockno →
    (s.buf b).dev = dev ∧ (s.buf b).blockno = blockno
  reading : ∀ b dev blockno, s.pc q = .reading b dev blockno →
    s.holds q b = true ∧ (s.buf b).dev = dev ∧ (s.buf b).blockno = blockno
  writing : ∀ b, s.pc q = .writing b → s.holds q b = true ∧ (s.buf b).dirty = true
  filled : ∀ b, s.holds q b = true → ¬(s.pc q).Reads b → (s.buf b).valid = true

structure BufInv (s : State n δ) (b : BufId) : Prop where
  assigned : 0 < (s.buf b).refcnt → (s.buf b).dev ≠ 0
  dirty : (s.buf b).dirty = true → (s.buf b).valid = true
  data : (s.buf b).valid = true → (s.buf b).data = s.content (s.buf b).dev (s.buf b).blockno
  touched : s.touched b = true → ∃ p, s.holds p b = true ∧ ¬(s.pc p).Reads b

def OneRing (k : Links Node) : Prop := ∃ l : List BufId, k.Ring .head (l.map .buf) ∧ ∀ b, b ∈ l

structure Inv (s : State n δ) : Prop where
  ring : OneRing s.links
  unique : ∀ b b', (s.buf b).dev ≠ 0 → (s.buf b).dev = (s.buf b').dev →
    (s.buf b).blockno = (s.buf b').blockno → b = b'
  refcnt : ∀ b, (s.buf b).refcnt = ∑ p, s.refs b p
  lock : ∀ b, (s.buf b).locked.toNat = ∑ p, (s.holds p b).toNat
  left : ∀ dev blockno d, s.left dev blockno = some d → ∃ b, (s.buf b).dev = dev ∧
    (s.buf b).blockno = blockno ∧ dev ≠ 0 ∧ ((s.buf b).dirty = true ∨ s.touched b = true)
  proc : ∀ q, ProcInv s q
  bufs : ∀ b, BufInv s b

namespace Inv

theorem alone (hinv : Inv s) (hp : s.holds p b = true) (hq : s.holds q b = true) : q = p := by
  by_contra hne
  have hle := add_le_sum (fun r => (s.holds r b).toNat) hne
  have hlock := hinv.lock b
  have hone := Bool.toNat_le (s.buf b).locked
  simp only [hp, hq, Bool.toNat_true] at hle
  omega

theorem held (hinv : Inv s) (hp : s.holds p b = true) : 0 < (s.buf b).refcnt := by
  have hle := le_sum (s.refs b) p
  have hterm : 1 ≤ s.refs b p := by
    unfold State.refs
    rw [hp]
    exact Nat.le_add_right _ _
  rw [hinv.refcnt b]
  omega

theorem free (hinv : Inv s) (hzero : (s.buf b).refcnt = 0) (q : Fin n) :
    s.holds q b = false ∧ (s.pc q).refs b = 0 := by
  have hle := le_sum (s.refs b) q
  have href := hinv.refcnt b
  have hterm : s.refs b q = 0 := by omega
  unfold State.refs at hterm
  refine ⟨?_, by omega⟩
  cases hq : s.holds q b with
  | false => rfl
  | true =>
    rw [hq, Bool.toNat_true] at hterm
    omega

theorem not_left (hinv : Inv s) (hzero : (s.buf b).refcnt = 0) (hclean : (s.buf b).dirty = false) :
    s.left (s.buf b).dev (s.buf b).blockno = none := by
  cases hleft : s.left (s.buf b).dev (s.buf b).blockno with
  | none => rfl
  | some d =>
    obtain ⟨b', hdev, hbn, hne, hor⟩ := hinv.left _ _ d hleft
    have heq : b' = b := hinv.unique b' b (hdev ▸ hne) hdev hbn
    subst heq
    obtain hdirty | htouched := hor
    · rw [hclean] at hdirty
      cases hdirty
    · obtain ⟨p, hp, -⟩ := (hinv.bufs b').touched htouched
      rw [(hinv.free hzero p).1] at hp
      cases hp

end Inv

structure Frame (s s' : State n δ) (p : Fin n) (b : BufId) : Prop where
  buf : ∀ b', b' ≠ b → s'.buf b' = s.buf b'
  pc : ∀ q, q ≠ p → s'.pc q = s.pc q
  holds : ∀ q b', (q ≠ p ∨ b' ≠ b) → s'.holds q b' = s.holds q b'
  touched : ∀ b', b' ≠ b → s'.touched b' = s.touched b'

namespace Frame

section

variable (hframe : Frame s s' p b) (hinv : Inv s)
include hframe hinv

theorem refcnt (hself : (s'.buf b).refcnt + s.refs b p = (s.buf b).refcnt + s'.refs b p)
    (hother : ∀ b', b' ≠ b → s'.refs b' p = s.refs b' p) (b' : BufId) :
    (s'.buf b').refcnt = ∑ q, s'.refs b' q := by
  have hne : ∀ q, q ≠ p → s'.refs b' q = s.refs b' q := by
    intro q hq
    unfold State.refs
    rw [hframe.pc q hq, hframe.holds q b' (.inl hq)]
  have hsum := sum_add_of_eq_except hne
  rw [← hinv.refcnt b'] at hsum
  by_cases hb : b' = b
  · subst hb
    omega
  · rw [hother b' hb] at hsum
    rw [hframe.buf b' hb]
    omega

theorem lock (hself : (s'.buf b).locked.toNat + (s.holds p b).toNat
      = (s.buf b).locked.toNat + (s'.holds p b).toNat) (b' : BufId) :
    (s'.buf b').locked.toNat = ∑ q, (s'.holds q b').toNat := by
  have hne : ∀ q, q ≠ p → (s'.holds q b').toNat = (s.holds q b').toNat := by
    intro q hq
    rw [hframe.holds q b' (.inl hq)]
  have hsum := sum_add_of_eq_except hne
  rw [← hinv.lock b'] at hsum
  by_cases hb : b' = b
  · subst hb
    omega
  · rw [hframe.holds p b' (.inr hb)] at hsum
    rw [hframe.buf b' hb]
    omega

/-- Another process does not notice, unless it refers to `b`. -/
theorem proc (hq : q ≠ p) (hblock : (s.pc q).refs b ≠ 0 ∨ s.holds q b = true →
      (s'.buf b).dev = (s.buf b).dev ∧ (s'.buf b).blockno = (s.buf b).blockno)
    (hheld : s.holds q b = true → ((s.buf b).dirty = true → (s'.buf b).dirty = true) ∧
      ((s.buf b).valid = true → (s'.buf b).valid = true)) : ProcInv s' q := by
  have hold := hinv.proc q
  have hpc := hframe.pc q hq
  have hholds : s'.holds q = s.holds q := by
    funext b'
    exact hframe.holds q b' (.inl hq)
  constructor
  · intro b' dev blockno hacq
    rw [hpc] at hacq
    have hb := hold.acquiring b' dev blockno hacq
    by_cases hb' : b' = b
    · subst hb'
      have href : (s.pc q).refs b' ≠ 0 := by
        rw [hacq]
        simp [Pc.refs]
      obtain ⟨hdev, hbn⟩ := hblock (.inl href)
      rw [hdev, hbn]
      exact hb
    · rw [hframe.buf b' hb']
      exact hb
  · intro b' dev blockno hread
    rw [hpc] at hread
    obtain ⟨hh, hb⟩ := hold.reading b' dev blockno hread
    rw [hholds]
    refine ⟨hh, ?_⟩
    by_cases hb' : b' = b
    · subst hb'
      obtain ⟨hdev, hbn⟩ := hblock (.inr hh)
      rw [hdev, hbn]
      exact hb
    · rw [hframe.buf b' hb']
      exact hb
  · intro b' hwrite
    rw [hpc] at hwrite
    obtain ⟨hh, hdirty⟩ := hold.writing b' hwrite
    rw [hholds]
    refine ⟨hh, ?_⟩
    by_cases hb' : b' = b
    · subst hb'
      exact (hheld hh).1 hdirty
    · rw [hframe.buf b' hb']
      exact hdirty
  · intro b' hh hnot
    rw [hholds] at hh
    rw [hpc] at hnot
    have hvalid := hold.filled b' hh hnot
    by_cases hb' : b' = b
    · subst hb'
      exact (hheld hh).2 hvalid
    · rw [hframe.buf b' hb']
      exact hvalid

/-- Another buffer does not notice, if its block keeps its content. -/
theorem bufs (hb : b' ≠ b)
    (hcontent : s'.content (s.buf b').dev (s.buf b').blockno = s.content (s.buf b').dev (s.buf b').blockno)
    (hreads : (s'.pc p).Reads b' → (s.pc p).Reads b') : BufInv s' b' := by
  have hold := hinv.bufs b'
  have hbuf := hframe.buf b' hb
  constructor
  · rw [hbuf]
    exact hold.assigned
  · rw [hbuf]
    exact hold.dirty
  · rw [hbuf, hcontent]
    exact hold.data
  · intro ht
    rw [hframe.touched b' hb] at ht
    obtain ⟨q, hq, hnot⟩ := hold.touched ht
    refine ⟨q, (hframe.holds q b' (.inr hb)).trans hq, ?_⟩
    by_cases hqp : q = p
    · subst hqp
      exact fun hr => hnot (hreads hr)
    · rw [hframe.pc q hqp]
      exact hnot

end

end Frame

end Xv6.Bcache
