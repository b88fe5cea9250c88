import Mathlib.Logic.Function.Basic
import Mathlib.Tactic.Common
import Mathlib.Algebra.Order.Ring.Int

/-!
# Physical pages and page tables

`kalloc.c` and `vm.c`. A page directory is the tree that the processor walks: its entries hold the
page tables, which own the pages they live in. The functions return the directory that they change in
place, and the allocator. Addresses and sizes are 32-bit words. An allocation fails if the free list is
empty, or when it is told to; a panic is an error.
-/

namespace Xv6.Vm

open Function (update)

abbrev Frame := Nat

def pgsize : Nat := 4096

def npdentries : Nat := 1024

def kernbase : Nat := 0x80000000

/-- All page numbers of 32-bit addresses, and those of user addresses. -/
def npages : Nat := 2 ^ 20

def userPages : Nat := kernbase / pgsize

def u32 (x : Nat) : Nat := x % 2 ^ 32

def pgrounddown (a : Nat) : Nat := pgsize * (a / pgsize)

def pgroundup (sz : Nat) : Nat := pgrounddown (u32 (sz + pgsize - 1))

def pdx (va : Nat) : Nat := va / 2 ^ 22 % npdentries

def ptx (va : Nat) : Nat := va / 2 ^ 12 % 1024

/-! ### The allocator -/

inductive Call where
  | alloc (f : Frame)
  | free (f : Frame)
  deriving DecidableEq

structure Kmem where
  freelist : List Frame
  mem : Frame → Nat → UInt8
  /-- Whether the calls of `kalloc` to come fail, as they may while other processes hold the pages. -/
  fails : List Bool
  /-- History, which the program does not keep: the calls so far, the last first. -/
  calls : List Call

namespace Kmem

def kalloc (k : Kmem) : Option (Frame × Kmem) :=
  match k.fails.headD false, k.freelist with
  | false, f :: rest =>
    some (f, { k with freelist := rest, fails := k.fails.tail, calls := .alloc f :: k.calls })
  | _, _ => none

def refused (k : Kmem) : Kmem := { k with fails := k.fails.tail }

def memset (k : Kmem) (f : Frame) (c : UInt8) : Kmem :=
  { k with mem := update k.mem f fun _ => c }

def memmove (k : Kmem) (dst src : Frame) : Kmem :=
  { k with mem := update k.mem dst (k.mem src) }

/-- The page is filled with junk first. -/
def kfree (k : Kmem) (f : Frame) : Kmem :=
  { k.memset f 1 with freelist := f :: k.freelist, calls := .free f :: k.calls }

end Kmem

/-! ### Page tables -/

structure Perm where
  writable : Bool
  user : Bool

structure Pte where
  frame : Frame
  perm : Perm

structure PageTable where
  frame : Frame
  pte : Nat → Option Pte

structure Pgdir where
  frame : Frame
  pde : Nat → Option PageTable

inductive Panic where
  | remap
  | kfree
  | clearpteu
  | copyuvmPte
  | copyuvmPage
  | inituvmNull
  deriving DecidableEq

theorem exists_ok {ε α : Type} {r : Except ε α} {P : α → Bool} (h : r.toOption.any P = true) :
    ∃ x, r = .ok x ∧ P x = true := by
  cases r with
  | error e => cases h
  | ok x => exact ⟨x, rfl, h⟩

namespace Pgdir

/-- `walkpgdir` without `alloc`: the entry, if its page table exists. -/
def walk (d : Pgdir) (va : Nat) : Option (Option Pte) :=
  (d.pde (pdx va)).map fun t => t.pte (ptx va)

def setPde (d : Pgdir) (i : Nat) (t : PageTable) : Pgdir :=
  { d with pde := update d.pde i (some t) }

/-- Store an entry whose page table exists. -/
def setPte (d : Pgdir) (va : Nat) (e : Option Pte) : Pgdir :=
  match d.pde (pdx va) with
  | none => d
  | some t => d.setPde (pdx va) { t with pte := update t.pte (ptx va) e }

/-- `walkpgdir` with `alloc`: `none` when the page table could not be allocated. -/
def walkAlloc (d : Pgdir) (va : Nat) (k : Kmem) : Option (Pgdir × Kmem) :=
  match d.pde (pdx va) with
  | some _ => some (d, k)
  | none =>
    match k.kalloc with
    | none => none
    | some (f, k) =>
      some (d.setPde (pdx va) { frame := f, pte := fun _ => none }, k.memset f 0)

def Present (d : Pgdir) (vpn : Nat) : Prop := ∃ e, d.walk (pgsize * vpn) = some (some e)

end Pgdir

/-- The loop of `mappages`. It comes to `last` within `npages` turns. -/
def mapLoop (perm : Perm) (last : Nat) : Nat → Nat → Frame → Pgdir → Kmem →
    Except Panic (Bool × Pgdir × Kmem)
  | 0, _, _, d, k => .ok (false, d, k)
  | turns + 1, a, pa, d, k =>
    match d.walkAlloc a k with
    | none => .ok (false, d, k.refused)
    | some (d, k) =>
      match d.walk a with
      | some (some _) => .error .remap
      | _ =>
        let d := d.setPte a (some ⟨pa, perm⟩)
        if a = last then .ok (true, d, k) else mapLoop perm last turns (u32 (a + pgsize)) (pa + 1) d k

/-- Create entries for the pages from `va` on; `false` stands for `-1`. -/
def mappages (d : Pgdir) (va size : Nat) (pa : Frame) (perm : Perm) (k : Kmem) :
    Except Panic (Bool × Pgdir × Kmem) :=
  let a := pgrounddown va
  let last := pgrounddown (u32 (va + size - 1))
  mapLoop perm last npages a pa d k

/-- The loop of `deallocuvm`. A turn that finds no page table goes on with the next one. -/
def deallocLoop (oldsz : Nat) : Nat → Nat → Pgdir → Kmem → Except Panic (Pgdir × Kmem)
  | 0, _, d, k => .ok (d, k)
  | fuel + 1, a, d, k =>
    if a < oldsz then
      match d.walk a with
      | none => deallocLoop oldsz fuel (u32 (2 ^ 22 * (pdx a + 1))) d k
      | some none => deallocLoop oldsz fuel (u32 (a + pgsize)) d k
      | some (some e) =>
        if e.frame = 0 then
          .error .kfree
        else
          deallocLoop oldsz fuel (u32 (a + pgsize)) (d.setPte a none) (k.kfree e.frame)
    else
      .ok (d, k)

def turns (a : Nat) (sz : Nat) : Nat := (sz - a + pgsize - 1) / pgsize

def deallocuvm (d : Pgdir) (oldsz newsz : Nat) (k : Kmem) : Except Panic (Nat × Pgdir × Kmem) :=
  if oldsz ≤ newsz then
    .ok (oldsz, d, k)
  else do
    let a := pgroundup newsz
    let (d, k) ← deallocLoop oldsz (turns a oldsz) a d k
    .ok (newsz, d, k)

def userPerm : Perm := { writable := true, user := true }

def allocLoop (oldsz newsz : Nat) : Nat → Nat → Pgdir → Kmem → Except Panic (Nat × Pgdir × Kmem)
  | 0, _, d, k => .ok (newsz, d, k)
  | fuel + 1, a, d, k =>
    if a < newsz then
      match k.kalloc with
      | none => do
          let (_, d, k) ← deallocuvm d newsz oldsz k.refused
          .ok (0, d, k)
      | some (f, k) => do
          let (mapped, d, k) ← mappages d a pgsize f userPerm (k.memset f 0)
          if mapped then
            allocLoop oldsz newsz fuel (u32 (a + pgsize)) d k
          else
            let (_, d, k) ← deallocuvm d newsz oldsz k
            .ok (0, d, k.kfree f)
    else
      .ok (newsz, d, k)

/-- Returns the new size, or 0 on error. -/
@[irreducible] def allocuvm (d : Pgdir) (oldsz newsz : Nat) (k : Kmem) : Except Panic (Nat × Pgdir × Kmem) :=
  if kernbase ≤ newsz then
    .ok (0, d, k)
  else if newsz < oldsz then
    .ok (oldsz, d, k)
  else
    let a := pgroundup oldsz
    allocLoop oldsz newsz (turns a newsz) a d k

def freevm (d : Pgdir) (k : Kmem) : Except Panic Kmem := do
  let (_, d, k) ← deallocuvm d kernbase 0 k
  let k := (List.range npdentries).foldl (fun k i => match d.pde i with
      | none => k
      | some t => k.kfree t.frame) k
  .ok (k.kfree d.frame)

def clearpteu (d : Pgdir) (uva : Nat) : Except Panic Pgdir :=
  match d.walk uva with
  | none => .error .clearpteu
  | some e => .ok (d.setPte uva (e.map fun e => { e with perm := { e.perm with user := false } }))

/-! ### The kernel's part of a page table -/

structure KmapEntry where
  virt : Nat
  physStart : Nat
  physEnd : Nat
  writable : Bool

namespace KmapEntry

def size (e : KmapEntry) : Nat := u32 (e.physEnd + 2 ^ 32 - e.physStart)

def first (e : KmapEntry) : Nat := e.virt / pgsize

def last (e : KmapEntry) : Nat := u32 (e.virt + e.size - 1) / pgsize

end KmapEntry

/-- A table that leaves the user addresses alone and maps no page twice. -/
structure Kmap where
  entries : List KmapEntry
  high : ∀ e ∈ entries, userPages ≤ e.first ∧ e.first ≤ e.last
  disjoint : entries.Pairwise fun e e' => e.last < e'.first ∨ e'.last < e.first

def extmem : Nat := 0x100000
def phystop : Nat := 0xE000000
def devspace : Nat := 0xFE000000
def kernlink : Nat := kernbase + extmem

/-- The table of the source. `data` is where the linker puts the kernel's data, at a page boundary. -/
def kmap (data : Nat) (halign : data % pgsize = 0) (hlow : kernlink < data)
    (hhigh : data < kernbase + phystop) : Kmap where
  entries :=
    [{ virt := kernbase, physStart := 0, physEnd := extmem, writable := true },
      { virt := kernlink, physStart := kernlink - kernbase, physEnd := data - kernbase,
        writable := false },
      { virt := data, physStart := data - kernbase, physEnd := phystop, writable := true },
      { virt := devspace, physStart := devspace, physEnd := 0, writable := true }]
  high := by
    simp only [kernlink, kernbase, extmem, phystop, pgsize] at halign hlow hhigh
    simp only [List.forall_mem_cons, KmapEntry.first, KmapEntry.last, KmapEntry.size, u32, userPages,
      kernlink, kernbase, extmem, phystop, devspace, pgsize]
    refine ⟨by omega, by omega, by omega, by omega, nofun⟩
  disjoint := by
    simp only [kernlink, kernbase, extmem, phystop, pgsize] at halign hlow hhigh
    simp only [List.pairwise_cons, List.forall_mem_cons, KmapEntry.first, KmapEntry.last,
      KmapEntry.size, u32, kernlink, kernbase, extmem, phystop, devspace, pgsize]
    refine ⟨⟨by omega, by omega, by omega, nofun⟩, ⟨by omega, by omega, nofun⟩, ⟨by omega, nofun⟩,
      nofun, .nil⟩

def Kmap.onePage : Kmap where
  entries := [{ virt := kernbase, physStart := 0, physEnd := pgsize, writable := true }]
  high := by decide
  disjoint := List.pairwise_singleton _ _

def mapKmap : List KmapEntry → Pgdir → Kmem → Except Panic (Option Pgdir × Kmem)
  | [], d, k => .ok (some d, k)
  | e :: rest, d, k => do
      let (mapped, d, k) ← mappages d e.virt e.size (e.physStart / pgsize)
        { writable := e.writable, user := false } k
      if mapped then
        mapKmap rest d k
      else
        let k ← freevm d k
        .ok (none, k)

def setupkvm (kmap : Kmap) (k : Kmem) : Except Panic (Option Pgdir × Kmem) :=
  match k.kalloc with
  | none => .ok (none, k.refused)
  | some (f, k) => mapKmap kmap.entries { frame := f, pde := fun _ => none } (k.memset f 0)

/-- The loop of `copyuvm`; `src` is the parent's directory. -/
def copyLoop (src : Pgdir) (sz : Nat) : Nat → Nat → Pgdir → Kmem → Except Panic (Option Pgdir × Kmem)
  | 0, _, d, k => .ok (some d, k)
  | fuel + 1, i, d, k =>
    if i < sz then
      match src.walk i with
      | none => .error .copyuvmPte
      | some none => .error .copyuvmPage
      | some (some e) =>
        match k.kalloc with
        | none => do
            let k ← freevm d k.refused
            .ok (none, k)
        | some (f, k) => do
            let (mapped, d, k) ← mappages d i pgsize f e.perm (k.memmove f e.frame)
            if mapped then
              copyLoop src sz fuel (u32 (i + pgsize)) d k
            else
              let k ← freevm d k
              .ok (none, k)
    else
      .ok (some d, k)

def copyuvm (kmap : Kmap) (src : Pgdir) (sz : Nat) (k : Kmem) : Except Panic (Option Pgdir × Kmem) := do
  match ← setupkvm kmap k with
  | (none, k) => .ok (none, k)
  | (some d, k) => copyLoop src sz (turns 0 sz) 0 d k

/-- The first page of the first process. The result of `kalloc` is not checked. -/
def inituvm (d : Pgdir) (init : Nat → UInt8) (k : Kmem) : Except Panic (Pgdir × Kmem) :=
  match k.kalloc with
  | none => .error .inituvmNull
  | some (f, k) => do
      let (_, d, k) ← mappages d 0 pgsize f userPerm (k.memset f 0)
      .ok (d, { k with mem := update k.mem f init })

/-! ### The address space of `exec` -/

inductive Proghdr where
  /-- `readi` was short. -/
  | short
  /-- The type is not `ELF_PROG_LOAD`. -/
  | other
  /-- `loads` is whether `loaduvm` could read the segment. -/
  | load (filesz memsz vaddr : Nat) (loads : Bool)

/-- The loop over the program headers; no size stands for `goto bad`. -/
def execLoad : List Proghdr → Nat → Pgdir → Kmem → Except Panic (Option Nat × Pgdir × Kmem)
  | [], sz, d, k => .ok (some sz, d, k)
  | .short :: _, _, d, k => .ok (none, d, k)
  | .other :: rest, sz, d, k => execLoad rest sz d k
  | .load filesz memsz vaddr loads :: rest, sz, d, k =>
    if memsz < filesz ∨ u32 (vaddr + memsz) < vaddr then
      .ok (none, d, k)
    else do
      let (sz, d, k) ← allocuvm d sz (u32 (vaddr + memsz)) k
      if sz = 0 ∨ vaddr % pgsize ≠ 0 ∨ loads = false then
        .ok (none, d, k)
      else
        execLoad rest sz d k

/-- The stack pages; `args` is whether the arguments could be copied there. -/
def execStack (args : Bool) (sz : Nat) (d : Pgdir) (k : Kmem) :
    Except Panic (Option Nat × Pgdir × Kmem) := do
  let sz := pgroundup sz
  let (sz, d, k) ← allocuvm d sz (u32 (sz + 2 * pgsize)) k
  if sz = 0 then
    .ok (none, d, k)
  else
    let d ← clearpteu d (sz - 2 * pgsize)
    if args then .ok (some sz, d, k) else .ok (none, d, k)

/-- A new address space and its size, or none and what was allocated is free again. -/
def execImage (kmap : Kmap) (phdrs : List Proghdr) (args : Bool) (k : Kmem) :
    Except Panic (Option (Pgdir × Nat) × Kmem) := do
  match ← setupkvm kmap k with
  | (none, k) => .ok (none, k)
  | (some d, k) =>
    match ← execLoad phdrs 0 d k with
    | (none, d, k) =>
      let k ← freevm d k
      .ok (none, k)
    | (some sz, d, k) =>
      match ← execStack args sz d k with
      | (none, d, k) =>
        let k ← freevm d k
        .ok (none, k)
      | (some sz, d, k) => .ok (some (d, sz), k)

end Xv6.Vm
