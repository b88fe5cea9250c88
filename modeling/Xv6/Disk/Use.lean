import Xv6.Lib.Pool
import Xv6.Disk.State
import Xv6.Fs.Syscall
import Mathlib.Data.Multiset.AddSub
import Mathlib.Data.Finset.Insert

/-!
# What a call knows

A call that runs alone knows which inodes it has references to, which it has locked and loaded, and
what it has seen of them; it also counts the blocks its transaction may have logged. Each operation
needs some of this and changes it. The programs of the calls are checked against these rules alone,
without a disk.
-/

namespace Xv6.Disk

open Fs (Inum Op)

/-- The number of inodes, and those that a call may come to: every one that the root, a directory entry
or a reference leads to, and those that are free. -/
structure Nodes where
  count : Nat
  named : Set Inum
  lt : ∀ i ∈ named, i < count
  /-- An entry has 16 bits for the number. -/
  short : ∀ i ∈ named, i % 2 ^ 16 ∈ named

structure Use where
  /-- References held, the current directory's included. -/
  refs : Multiset Inum
  held : Set Inum
  /-- Referenced inodes that `ilock` has loaded. -/
  ready : Set Inum
  /-- Inodes seen to be directories. -/
  dirs : Set Inum
  /-- Inodes seen not to be directories. -/
  nondir : Set Inum
  /-- Inodes seen allocated. -/
  live : Set Inum
  /-- The inode just seen loaded and without links. -/
  dead : Set Inum
  /-- The inode just seen with one reference. -/
  last : Set Inum
  /-- Inodes that an open file refers to. -/
  pins : Set Inum
  /-- Inodes whose links have changed in this call, or whose other references it has taken over. -/
  loose : Set Inum
  cwd : Option Inum
  /-- Open files allocated and not yet set up. -/
  files : Set Nat
  /-- Inodes whose block this transaction may have logged. -/
  nodes : Finset Inum
  /-- Data and indirect blocks that it may have logged. -/
  extra : Nat

namespace Use

/-- `ip` cannot leave the inode cache. -/
def Refers (l : Use) (ip : Inum) : Prop := ip ∈ l.refs ∨ ip ∈ l.pins

section Rules

variable (N : Nodes) (strict : Prop)

def pre : Op → Use → Prop
  | .endOp, l => strict → l.nodes.card + l.extra < maxOpBlocks
  | .setCwd ip, l => ∀ i, ip = some i → i ∈ l.refs
  | .igetEntry inum, _ => inum ∈ N.named
  | .idup ip, l => ip ∈ l.refs
  | .load ip, l => l.Refers ip
  | .decRef ip, l => ip ∈ l.refs
  | .ifree ip, l => ip ∈ l.refs ∧ ip ∈ l.dead ∧ ip ∈ l.last
  | .initInode ip _ _, l => ip ∈ l.ready
  | .addNlink ip _, l => ip ∈ l.ready
  | .readDirent ip _, l => ip ∈ l.ready
  | .readProgram ip, l => ip ∈ l.ready
  | .writeDirent dp off de, l =>
    dp ∈ l.ready ∧ direntSize ∣ off ∧ (de.inum ≠ 0 → de.inum ∈ l.refs)
  | .writei ip _ src, l => ip ∈ l.ready ∧ ip ∈ l.nondir ∧ src.length ≤ Fs.filewriteMax
  | .fileInit f ip _ writable, l =>
    f ∈ l.files ∧ ip ∈ l.refs ∧ ip ∈ l.live ∧ (writable = true → ip ∈ l.nondir)
  | _, _ => True

def res : (o : Op) → Use → o.Res → Prop
  | .cwd, l, ip => l.cwd = some ip
  | .tryLock _ ip, l, r => r = true → ip ∉ l.held
  | .waitLock ip, l, _ => ip ∉ l.held
  -- an inode without links that is not loose is in use elsewhere
  | .ref ip, l, r => l.refs.count ip ≤ r ∧
      (strict → ip ∈ l.refs → ip ∈ l.dead → ip ∉ l.loose → l.refs.count ip + 1 ≤ r)
  | .iallocEntry _, _, r => ∀ i, r = some i → i ∈ N.named
  | .readDirent dp off, l, r =>
    dp ∈ l.dirs → direntSize ∣ off → ∀ de, r = some de → de.inum ≠ 0 → de.inum ∈ N.named
  | .fileDrop f, l, .last ff => f ∈ l.files → ff.ip = none
  | _, _, _ => True

def next : (o : Op) → Use → o.Res → Use
  | .beginOp, l, _ => { l with nodes := ∅, extra := 0 }
  | .setCwd ip, l, _ => { l with cwd := ip }
  | .igetEntry ip, l, r =>
    if r then { l with refs := ip ::ₘ l.refs, last := ∅, dead := ∅ } else l
  | .idup ip, l, _ => { l with refs := ip ::ₘ l.refs, last := ∅ }
  | .tryLock _ ip, l, r => if r then { l with held := insert ip l.held } else l
  | .waitLock ip, l, _ => { l with held := insert ip l.held }
  | .unlock ip, l, _ => { l with held := l.held \ {ip} }
  | .load ip, l, type =>
    { l with
      ready := l.ready ∪ { x | x = ip ∧ type ≠ .free }
      live := l.live ∪ { x | x = ip ∧ type ≠ .free }
      dead := ∅ }
  | .fields ip, l, f =>
    { l with
      dirs := l.dirs ∪ { x | x = ip ∧ x ∈ l.ready ∧ f.type = .dir }
      nondir := l.nondir ∪ { x | x = ip ∧ x ∈ l.ready ∧ f.type ≠ .dir }
      dead := { x | x = ip ∧ f.valid = true ∧ f.nlink = 0 } }
  | .ref ip, l, r => { l with last := { x | x = ip ∧ r = 1 } }
  | .decRef ip, l, _ => { l with refs := l.refs.erase ip, ready := l.ready \ {ip}, last := ∅ }
  | .ifree ip, l, _ =>
    { l with
      ready := l.ready \ {ip}
      dirs := l.dirs \ {ip}
      live := l.live \ {ip}
      dead := ∅
      nodes := insert ip l.nodes }
  | .iallocEntry _, l, none => l
  | .iallocEntry type, l, some i =>
    { l with
      nondir := if type = .dir then l.nondir \ {i} else l.nondir ∪ {i}
      loose := l.loose ∪ {i}
      dead := ∅
      nodes := insert i l.nodes }
  | .initInode ip _ _, l, _ =>
    { l with loose := l.loose ∪ {ip}, dead := ∅, nodes := insert ip l.nodes }
  | .addNlink ip _, l, _ =>
    { l with loose := l.loose ∪ {ip}, dead := ∅, nodes := insert ip l.nodes }
  -- one data block and the indirect block
  | .writeDirent dp _ _, l, _ =>
    { l with dead := ∅, nodes := insert dp l.nodes, extra := l.extra + 2 }
  -- four data blocks and the indirect block
  | .writei ip _ _, l, _ =>
    { l with dead := ∅, nodes := insert ip l.nodes, extra := l.extra + 5 }
  | .filealloc, l, r => { l with files := l.files ∪ { f | r = some f } }
  | .file _, l, ff =>
    { l with
      pins := l.pins ∪ { i | ff.ip = some i }
      nondir := l.nondir ∪ { i | ff.ip = some i ∧ ff.writable = true } }
  | .fileInit f ip _ _, l, _ =>
    { l with refs := l.refs.erase ip, ready := l.ready \ {ip}, files := l.files \ {f} }
  -- the file's reference becomes the call's
  | .fileDrop f, l, .last ff =>
    { l with
      refs := ff.ip.elim l.refs (· ::ₘ l.refs)
      ready := ∅
      pins := ∅
      loose := l.loose ∪ { i | ff.ip = some i }
      files := l.files \ {f} }
  | _, l, _ => l

end Rules

end Use

/-- The rules that every modelled call follows, `strict` when nothing it walks over gets freed. -/
def useProtocol (N : Nodes) (strict : Prop) : Protocol Op Op.Res Use where
  pre := Use.pre N strict
  res := Use.res N strict
  next := Use.next

end Xv6.Disk
