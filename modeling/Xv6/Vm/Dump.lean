import Xv6.Lib.Bytes
import Xv6.Vm.Copyout

/-!
# Dumping the memory of a process

`sys_dump` in `sysproc.c`, `dump` and `mycopybuffer` in `proc.c`. The kernel copies page by page, from the
physical pages of one process to the addresses of the one that runs, whose pages are all writable. It
copies each page from its start, and panics where it should fail.
-/

namespace Xv6.Vm

inductive DumpStop where
  | argsError
  | failToGetPid
  | failToWalkpgdir
  /-- The kernel writes to an address that is not mapped. -/
  | pageFault
  /-- The offset has wrapped. -/
  | forever
  deriving DecidableEq

/-- An entry of the process table. -/
structure Entry where
  pid : Int
  /-- What `walkpgdir` finds from `p->pgdir` on. If the entry is not in use, `p->pgdir` is 0 or a page that
  has been given back, and this is whatever the memory holds there. -/
  walkpgdir : Kmem → Nat → Except DumpStop (Option (Option Pte))

def Entry.live (pid : Int) (d : Pgdir) : Entry := ⟨pid, fun _ va => .ok (d.walk va)⟩

def Pgdir.place (d : Pgdir) (a : Nat) : Option (Frame × Nat) :=
  (d.entry (a / pgsize % npages)).map fun e => (e.frame, a % pgsize)

def Pgdir.byteAt (d : Pgdir) (k : Kmem) (a : Nat) : Option UInt8 :=
  (d.place a).map fun x => k.mem x.1 x.2

/-- The bytes from the `i`th on of a `memmove` to user addresses. Its source is above them, so it copies
forwards. -/
def memmoveFrom (cur : Pgdir) (dst : Nat) (src : Kmem → Nat → UInt8) : Nat → Nat → Kmem →
    Except DumpStop Kmem
  | 0, _, k => .ok k
  | n + 1, i, k =>
    match cur.place (u32 (dst + i)) with
    | none => .error .pageFault
    | some (f, off) => memmoveFrom cur dst src n (i + 1) (k.put f off 1 (src k) i)

/-- The offset of the first page without `PTE_U` goes behind the buffer. -/
def writeGuard (cur : Pgdir) (buffer buffersize i : Nat) (guardFlag user : Bool) (k : Kmem) :
    Except DumpStop Kmem :=
  if guardFlag = false ∧ user = false then
    memmoveFrom cur (u32 (buffer + buffersize)) (fun _ => Bytes.leByte i) 4 0 k
  else
    .ok k

/-- `mycopybuffer` from offset `i` on. An entry that is not present has the physical address 0. -/
def mycopybuffer (cur : Pgdir) (walkpgdir : Kmem → Nat → Except DumpStop (Option (Option Pte)))
    (addr buffer buffersize : Nat) : Nat → Nat → Bool → Kmem → Except DumpStop Kmem
  | 0, _, _, _ => .error .forever
  | fuel + 1, i, guardFlag, k =>
    if i < buffersize then do
      match ← walkpgdir k (u32 (addr + i)) with
      | none => .error .failToWalkpgdir
      | some pte =>
          let pa := pte.elim 0 Pte.frame
          let user := pte.any fun e => e.perm.user
          let n := if buffersize - i < pgsize then buffersize - i else pgsize
          let k ← writeGuard cur buffer buffersize i guardFlag user k
          let k ← memmoveFrom cur (u32 (buffer + i)) (fun k => k.mem pa) n 0 k
          mycopybuffer cur walkpgdir addr buffer buffersize fuel (u32 (i + pgsize)) (guardFlag || !user) k
    else
      .ok k

/-- The loop stops behind the table if no entry has the pid; `past` is what it finds there. -/
def dump (ptable : List Entry) (past : Entry) (cur : Pgdir) (pid : Int) (addr buffer buffersize : Nat)
    (k : Kmem) : Except DumpStop (Int × Kmem) :=
  let p := (ptable.find? fun p => p.pid = pid).getD past
  if p.pid ≠ pid then
    .error .failToGetPid
  else do
    let k ← mycopybuffer cur p.walkpgdir addr buffer buffersize (2 ^ 20) 0 false k
    .ok (0, k)

/-- `argptr` with the size of a pointer, in a process of `sz` bytes. -/
def argptr (sz i : Nat) : Bool := decide (i < sz ∧ u32 (i + 4) ≤ sz)

def sysDump (ptable : List Entry) (past : Entry) (cur : Pgdir) (sz : Nat) (pid : Int)
    (addr buffer buffersize : Nat) (k : Kmem) : Except DumpStop (Int × Kmem) :=
  if argptr sz addr ∧ argptr sz buffer then
    dump ptable past cur pid addr buffer buffersize k
  else
    .error .argsError

/-! ### The copy -/

/-- The range of a process and the buffer of the caller: both in memory, and no byte of the buffer is
another one's or one of the range. -/
structure Dumpable (cur d : Pgdir) (addr buffer n : Nat) : Prop where
  low : addr + n ≤ kernbase
  memory : ∀ i < n, d.place (addr + i) ≠ none
  bufferLow : buffer + n + 4 ≤ kernbase
  room : ∀ j < n + 4, cur.place (buffer + j) ≠ none
  distinct : ∀ i < n + 4, ∀ j < n + 4, cur.place (buffer + i) = cur.place (buffer + j) → i = j
  apart : ∀ i < n, ∀ j < n + 4, cur.place (buffer + j) ≠ d.place (addr + i)

/-- The first `m` bytes are in the buffer, and nothing but the buffer and the word behind it differs. -/
structure Dumped (cur d : Pgdir) (addr buffer n m : Nat) (k k' : Kmem) : Prop where
  byte : ∀ j < m, cur.byteAt k' (buffer + j) = d.byteAt k (addr + j)
  rest : ∀ f off, (∀ j < n + 4, cur.place (buffer + j) ≠ some (f, off)) → k'.mem f off = k.mem f off

variable {cur d : Pgdir} {addr buffer n m : Nat} {k k' : Kmem}

theorem byteAt_eq {a : Nat} {x : Frame × Nat} (hplace : d.place a = some x) :
    d.byteAt k a = some (k.mem x.1 x.2) := by
  rw [Pgdir.byteAt, hplace]
  rfl

/-- A loop rule for `memmove`: each byte goes to a place there is and takes `I i` to `I (i + 1)`. -/
theorem memmoveFrom_ok {dst : Nat} {src : Kmem → Nat → UInt8} (I : Nat → Kmem → Prop) (c i : Nat)
    (hstep : ∀ j < i + c, i ≤ j → ∃ x, cur.place (u32 (dst + j)) = some x ∧
      ∀ k, I j k → I (j + 1) (k.put x.1 x.2 1 (src k) j)) (hI : I i k) :
    ∃ k', memmoveFrom cur dst src c i k = .ok k' ∧ I (i + c) k' := by
  induction c generalizing i k with
  | zero => exact ⟨k, rfl, hI⟩
  | succ c ih =>
    obtain ⟨x, hplace, hput⟩ := hstep i (by omega) le_rfl
    rw [memmoveFrom, hplace]
    obtain ⟨k', hrun, hI'⟩ := ih (i + 1) (fun j hj hij => hstep j (by omega) (by omega)) (hput k hI)
    exact ⟨k', hrun, by rwa [show i + (c + 1) = i + 1 + c by omega]⟩

namespace Dumped

/-- A byte of the buffer, or of the word behind it, that has not been copied yet is written. -/
theorem put (h : Dumped cur d addr buffer n m k k') (hd : Dumpable cur d addr buffer n) {j : Nat}
    (hm : m ≤ j) (hj : j < n + 4) {x : Frame × Nat} (hplace : cur.place (buffer + j) = some x)
    (src : Nat → UInt8) (b : Nat) : Dumped cur d addr buffer n m k (k'.put x.1 x.2 1 src b) where
  byte i hi := by
    rw [← h.byte i hi]
    cases hi' : cur.place (buffer + i) with
    | none => exact absurd hi' (hd.room i (by omega))
    | some y =>
      rw [byteAt_eq hi', byteAt_eq hi', Kmem.mem_put_of_notMem]
      rintro ⟨hf, hlow, hhigh⟩
      have hxy : y = x := Prod.ext hf (by omega)
      have hij := hd.distinct i (by omega) j hj (by rw [hi', hplace, hxy])
      omega
  rest f off hout := by
    rw [Kmem.mem_put_of_notMem, h.rest f off hout]
    rintro ⟨hf, hlow, hhigh⟩
    refine hout j hj ?_
    rw [hplace, hf, show off = x.2 by omega]

theorem next (h : Dumped cur d addr buffer n m k k') (hd : Dumpable cur d addr buffer n) (hm : m < n)
    {x y : Frame × Nat} (hplace : cur.place (buffer + m) = some x) (hfrom : d.place (addr + m) = some y) :
    Dumped cur d addr buffer n (m + 1) k (k'.put x.1 x.2 1 (k'.mem y.1) y.2) where
  byte i hi := by
    rcases Nat.lt_succ_iff_lt_or_eq.mp hi with hi | rfl
    · exact (h.put hd le_rfl (by omega) hplace _ _).byte i hi
    · have hsource := h.rest y.1 y.2 fun j hj => hfrom ▸ hd.apart i hm j hj
      rw [byteAt_eq hplace, byteAt_eq hfrom, Kmem.mem_put_of_mem ⟨le_rfl, Nat.lt_succ_self _⟩,
        Nat.sub_self, Nat.add_zero, hsource]
  rest := (h.put hd le_rfl (by omega) hplace _ _).rest

end Dumped

theorem u32_low {a : Nat} (ha : a < kernbase) : u32 a = a := Nat.mod_eq_of_lt (Nat.lt_trans ha (by decide))

/-- What is true of the memory when `m` bytes have been copied. Byte `i + j` comes from offset `j` of its
page, wherever `addr + i` is in that page. -/
structure Kept (cur d : Pgdir) (addr buffer n : Nat) (I : Nat → Kmem → Prop) : Prop where
  guard : ∀ i < n, ∀ j < 4, ∀ x, cur.place (buffer + (n + j)) = some x → ∀ k, I i k →
    I i (k.put x.1 x.2 1 (Bytes.leByte i) j)
  byte : ∀ i j, i + j < n → j < pgsize → i % pgsize = 0 → ∀ x, cur.place (buffer + (i + j)) = some x →
    ∀ e, d.entry ((addr + i) / pgsize % npages) = some e → ∀ k, I (i + j) k →
      I (i + j + 1) (k.put x.1 x.2 1 (k.mem e.frame) j)

theorem mycopybuffer_ok {I : Nat → Kmem → Prop} (hd : Dumpable cur d addr buffer n)
    (hkept : Kept cur d addr buffer n I) (fuel i : Nat) (guardFlag : Bool)
    (hfuel : n + pgsize ≤ i + pgsize * fuel) (hi : i % pgsize = 0) (hin : i < n + pgsize) (hI : I (min i n) k) :
    ∃ k', mycopybuffer cur (fun _ va => .ok (d.walk va)) addr buffer n fuel i guardFlag k = .ok k' ∧
      I n k' := by
  induction fuel generalizing i guardFlag k with
  | zero => omega
  | succ fuel ih =>
    have hlow := hd.low
    have hlow' := hd.bufferLow
    by_cases hlt : i < n
    · obtain ⟨x, hplace⟩ := Option.ne_none_iff_exists'.mp (hd.memory i hlt)
      obtain ⟨e, he, -⟩ := Option.map_eq_some_iff.mp hplace
      have hwalk : d.walk (u32 (addr + i)) = some (some e) := by
        rw [u32_low (by omega), Pgdir.walk_page]
        exact walk_of_entry he
      rw [Nat.min_eq_left hlt.le] at hI
      obtain ⟨k₁, hguarded, hI₁⟩ : ∃ k₁, writeGuard cur buffer n i guardFlag e.perm.user k = .ok k₁ ∧
          I i k₁ := by
        unfold writeGuard
        split_ifs
        swap
        · exact ⟨k, rfl, hI⟩
        refine memmoveFrom_ok (fun _ => I i) 4 0 (fun j hj _ => ?_) hI
        rw [u32_low (a := buffer + n) (by omega), u32_low (by omega), Nat.add_assoc]
        obtain ⟨x, hplace⟩ := Option.ne_none_iff_exists'.mp (hd.room (n + j) (by omega))
        exact ⟨x, hplace, hkept.guard i hlt j (by omega) x hplace⟩
      set c := if n - i < pgsize then n - i else pgsize with hc
      have hcount : c ≤ pgsize ∧ i + c = min (i + pgsize) n := by
        rw [hc]
        split_ifs <;> omega
      obtain ⟨k₂, hpage, hI₂⟩ : ∃ k₂, memmoveFrom cur (u32 (buffer + i)) (fun k => k.mem e.frame) c 0 k₁
          = .ok k₂ ∧ I (i + (0 + c)) k₂ := by
        refine memmoveFrom_ok (fun j => I (i + j)) c 0 (fun j hj _ => ?_) hI₁
        rw [u32_low (a := buffer + i) (by omega), u32_low (by omega), Nat.add_assoc]
        obtain ⟨x, hplace⟩ := Option.ne_none_iff_exists'.mp (hd.room (i + j) (by omega))
        exact ⟨x, hplace, hkept.byte i j (by omega) (by omega) hi x hplace e he⟩
      have hnext : u32 (i + pgsize) = i + pgsize := by
        simp only [kernbase] at hlow
        simp only [u32, pgsize]
        omega
      rw [Nat.zero_add, hcount.2] at hI₂
      obtain ⟨k₃, hrun, hI₃⟩ := ih (i + pgsize) (guardFlag || !e.perm.user)
        (by rw [Nat.mul_succ] at hfuel; omega) (by rw [Nat.add_mod_right, hi]) (by omega) hI₂
      refine ⟨k₃, ?_, hI₃⟩
      rw [mycopybuffer, if_pos hlt, hwalk, hnext]
      change (do
        let k ← writeGuard cur buffer n i guardFlag e.perm.user k
        let k ← memmoveFrom cur (u32 (buffer + i)) (fun k => k.mem e.frame) c 0 k
        mycopybuffer cur _ addr buffer n fuel (i + pgsize) (guardFlag || !e.perm.user) k) = _
      rw [hguarded]
      change (memmoveFrom cur _ _ c 0 k₁ >>= _) = _
      rw [hpage]
      exact hrun
    · rw [mycopybuffer, if_neg hlt]
      exact ⟨k, rfl, by rwa [Nat.min_eq_right (by omega)] at hI⟩

section Dump

variable {ptable : List Entry} (past : Entry) {pid : Int} {sz : Nat}

theorem sysDump_live (hpid : ptable.find? (fun p => p.pid = pid) = some (.live pid d))
    (hptr : argptr sz addr ∧ argptr sz buffer) (hd : Dumpable cur d addr buffer n)
    {I : Nat → Kmem → Prop} (hkept : Kept cur d addr buffer n I) (hI : I 0 k) :
    ∃ k', sysDump ptable past cur sz pid addr buffer n k = .ok (0, k') ∧ I n k' := by
  have hlow := hd.low
  obtain ⟨k', hrun, hI'⟩ := mycopybuffer_ok hd hkept (2 ^ 20) 0 false
    (by simp only [kernbase, pgsize] at *; omega) rfl (by simp only [pgsize]; omega) (by rwa [Nat.zero_min])
  refine ⟨k', ?_, hI'⟩
  rw [sysDump, if_pos hptr, dump, hpid]
  dsimp only [Option.getD_some]
  rw [if_neg (by simp [Entry.live]), Entry.live, hrun]
  rfl

/-- From the middle of a page the first byte is not the one asked for: it is the first of the page. -/
theorem sysDump_unaligned (hpid : ptable.find? (fun p => p.pid = pid) = some (.live pid d))
    (hptr : argptr sz addr ∧ argptr sz buffer) (hd : Dumpable cur d addr buffer n) (hn : 0 < n)
    (hodd : addr % pgsize ≠ 0) : ∃ k k', sysDump ptable past cur sz pid addr buffer n k = .ok (0, k') ∧
      cur.byteAt k' buffer = some 0 ∧ d.byteAt k addr = some 1 := by
  obtain ⟨x, hfrom⟩ := Option.ne_none_iff_exists'.mp (hd.memory 0 hn)
  obtain ⟨e₀, he₀, rfl⟩ := Option.map_eq_some_iff.mp hfrom
  obtain ⟨y, hfirst⟩ := Option.ne_none_iff_exists'.mp (hd.room 0 (by omega))
  rw [Nat.add_zero] at hfrom he₀ hfirst
  have hkeeps : ∀ j < n + 4, j ≠ 0 → ∀ x, cur.place (buffer + j) = some x → ∀ k src b,
      cur.byteAt (k.put x.1 x.2 1 src b) buffer = cur.byteAt k buffer := by
    intro j hj hne x hplace k src b
    rw [byteAt_eq hfirst, byteAt_eq hfirst, Kmem.mem_put_of_notMem]
    rintro ⟨hf, hlow, hhigh⟩
    have hxy : y = x := Prod.ext hf (by omega)
    exact hne (hd.distinct j hj 0 (by omega) (by rw [hplace, ← hxy, Nat.add_zero, hfirst]))
  -- the guard word of the first turn is 0, so it does not matter if it is in the page
  have hkept : Kept cur d addr buffer n
      fun m k => if m = 0 then k.mem e₀.frame 0 = 0 else cur.byteAt k buffer = some 0 := by
    refine ⟨fun i hi j hj x hplace k hI => ?_, fun i j hj hpage hi x hplace e he k hI => ?_⟩
    · split_ifs at hI ⊢ with h0
      · subst h0
        by_cases hin : e₀.frame = x.1 ∧ x.2 ≤ 0 ∧ 0 < x.2 + 1
        · rw [hin.1, Kmem.mem_put_of_mem hin.2]
          simp [Bytes.leByte]
        · rw [Kmem.mem_put_of_notMem hin, hI]
      · rw [hkeeps (n + j) (by omega) (by omega) x hplace, hI]
    · rw [if_neg (by omega)]
      split_ifs at hI with h0
      · obtain ⟨rfl, rfl⟩ : i = 0 ∧ j = 0 := by omega
        cases he.symm.trans he₀
        rw [Nat.add_zero] at hplace
        rw [byteAt_eq hplace, Kmem.mem_put_of_mem ⟨le_rfl, Nat.lt_succ_self _⟩, Nat.sub_self, hI]
      · rw [hkeeps (i + j) (by omega) h0 x hplace, hI]
  -- only the byte at `addr` is not 0
  refine ⟨⟨[], fun f off => if f = e₀.frame ∧ off = addr % pgsize then 1 else 0, [], []⟩, ?_⟩
  obtain ⟨k', hrun, hzero⟩ := sysDump_live past
    (k := ⟨[], fun f off => if f = e₀.frame ∧ off = addr % pgsize then 1 else 0, [], []⟩) hpid hptr hd hkept
    (if_neg fun h => hodd h.2.symm)
  refine ⟨k', hrun, by rwa [if_neg (by omega)] at hzero, ?_⟩
  rw [byteAt_eq hfrom]
  exact congrArg some (if_pos ⟨rfl, rfl⟩)

/-- `dump` with the pid of a process copies the bytes asked for and writes to nothing but the buffer,
whatever they are, iff it starts at the start of a page and that address is below the caller's size. With
the pid of no process it stops the kernel. -/
theorem dump_copies (hpid : ptable.find? (fun p => p.pid = pid) = some (.live pid d)) (hsz : sz ≤ kernbase)
    (hbuffer : buffer + n + 4 ≤ sz) (hd : Dumpable cur d addr buffer n) :
    ((∀ k, ∃ k', sysDump ptable past cur sz pid addr buffer n k = .ok (0, k') ∧
      Dumped cur d addr buffer n n k k') ↔ (0 < n → addr % pgsize = 0) ∧ addr + 4 ≤ sz) ∧
    ∀ pid' k, (∀ p ∈ ptable, p.pid ≠ pid') → past.pid ≠ pid' →
      ∃ e, sysDump ptable past cur sz pid' addr buffer n k = .error e := by
  have hlow := hd.low
  have hptr : ∀ i, i ≤ kernbase → (argptr sz i = true ↔ i + 4 ≤ sz) := by
    intro i hi
    simp only [kernbase] at hsz hi
    rw [argptr, u32, decide_eq_true_iff]
    omega
  have hbuf := (hptr buffer (by omega)).mpr (by omega)
  refine ⟨⟨fun hall => ?_, fun ⟨haligned, haddr⟩ k => ?_⟩, fun pid' k hnone hpast => ?_⟩
  · have haddr : addr + 4 ≤ sz := by
      by_contra hout
      obtain ⟨k', hrun, -⟩ := hall ⟨[], fun _ _ => 0, [], []⟩
      rw [sysDump, if_neg fun h => hout ((hptr addr (by omega)).mp h.1)] at hrun
      cases hrun
    refine ⟨fun hn => ?_, haddr⟩
    by_contra hodd
    obtain ⟨k, k', hrun, hzero, hone⟩ :=
      sysDump_unaligned past hpid ⟨(hptr addr (by omega)).mpr haddr, hbuf⟩ hd hn hodd
    obtain ⟨k₁, hrun₁, hdumped⟩ := hall k
    cases hrun.symm.trans hrun₁
    have hbyte := hdumped.byte 0 hn
    rw [Nat.add_zero, Nat.add_zero, hzero, hone] at hbyte
    exact absurd hbyte (by decide)
  · refine sysDump_live past hpid ⟨(hptr addr (by omega)).mpr haddr, hbuf⟩ hd
      (I := fun m => Dumped cur d addr buffer n m k)
      ⟨fun i hi j hj x hplace k' h => ?_, fun i j hj hpage hi x hplace e he k' h => ?_⟩
      ⟨fun j hj => by omega, fun _ _ _ => rfl⟩
    · exact h.put hd (by omega) (by omega) hplace _ _
    · have hstart := haligned (by omega)
      have hsame : (addr + (i + j)) / pgsize % npages = (addr + i) / pgsize % npages ∧
          (addr + (i + j)) % pgsize = j := by
        simp only [pgsize, npages] at hstart hi hpage ⊢
        omega
      refine h.next hd hj hplace (y := (e.frame, j)) ?_
      rw [Pgdir.place, hsame.1, he, hsame.2]
      rfl
  · rw [sysDump]
    split_ifs
    · have hfind : ptable.find? (fun p => p.pid = pid') = none :=
        List.find?_eq_none.mpr fun p hp => by simpa using hnone p hp
      refine ⟨.failToGetPid, ?_⟩
      rw [dump, hfind]
      exact if_pos hpast
    · exact ⟨_, rfl⟩

end Dump

/-- The process that runs has a page that is not among `twoPages`. -/
def bufferPage : Pgdir where
  frame := 20
  pde i := if i = 0 then some { frame := 21, pte := fun j => if j = 0 then some ⟨22, userPerm⟩ else none }
    else none

def twoPageProc : Entry := .live 1 twoPages

def noProc : Entry := ⟨0, fun _ _ => .ok none⟩

theorem dump_copies_twoPages : ∃ k', sysDump [twoPageProc] noProc bufferPage pgsize 1 0 100 3 eightFree =
    .ok (0, k') ∧ Dumped bufferPage twoPages 0 100 3 3 eightFree k' :=
  (dump_copies noProc rfl (by decide) (by decide)
    ⟨by decide, by decide, by decide, by decide, by decide, by decide⟩).1.mpr
      ⟨fun _ => rfl, by decide⟩ eightFree

/-- `eightFree` with a page whose bytes are all different. -/
def numbered : Kmem := { eightFree with mem := fun _ i => i.toUInt8 }

/-- From the middle of a page the bytes are those of its start; with the pid of no process, and with an
address of the other process that the caller does not have, the kernel panics. -/
theorem dump_wrong : (match sysDump [twoPageProc] noProc bufferPage pgsize 1 5 100 3 numbered with
      | .ok (r, k') => r = 0 ∧ bufferPage.byteAt k' 100 = some 0 ∧ twoPages.byteAt numbered 5 = some 5
      | .error _ => False) ∧
    sysDump [twoPageProc] noProc bufferPage pgsize 7 0 100 3 eightFree = .error .failToGetPid ∧
    sysDump [twoPageProc] noProc bufferPage pgsize 1 pgsize 100 3 eightFree = .error .argsError := by
  refine ⟨⟨rfl, by decide, by decide⟩, rfl, rfl⟩

end Xv6.Vm
