import Xv6.Lib.Pool
import Xv6.Fs.OneCopy
import Mathlib.Data.Multiset.AddSub
import Mathlib.Algebra.BigOperators.Group.Finset.Basic
import Mathlib.Data.Fintype.BigOperators

/-!
# The order of inode locks

What one process knows while it runs a file-system call, and how each operation changes it. The
knowledge is local: locks it holds keep directories from changing, references it holds keep inodes
from being freed. A process that holds a directory's lock may ask for the lock of an inode that the
directory names by an entry other than `.` and `..`, or that it has just allocated; this is the only
nesting of `ilock`, and it always goes from an older directory to a younger inode.
-/

namespace Xv6.Fs

structure Hold where
  /-- References held, the current directory's and those given to open files included. -/
  refs : Multiset Inum
  /-- Inode locks held, the last taken first. -/
  held : List Inum
  /-- Locked inodes that `ilock` found allocated. -/
  live : Set Inum
  /-- Locked inodes known to be directories. -/
  dirs : Set Inum
  /-- Referenced inodes seen, under their lock, not to be directories. -/
  nondir : Set Inum
  /-- Pairs of a locked directory and an inode it names, or allocated while it was locked. -/
  below : Set (Inum × Inum)
  /-- Locked inodes to which no one else had a reference. -/
  last : Set Inum
  cwd : Option Inum
  /-- Open files allocated and not yet set up. -/
  files : Set Nat

namespace Hold

/-- Every lock held is a directory's above `ip`. -/
def MayWait (l : Hold) (ip : Inum) : Prop :=
  ∀ d ∈ l.held, d ∈ l.dirs ∧ (d, ip) ∈ l.below

def pre : Op → Hold → Prop
  | .tryLock .ilock ip, l => l.MayWait ip
  | .waitLock ip, l => l.MayWait ip
  | .unlock ip, l => ip ∈ l.held
  | .decRef ip, l => ip ∈ l.refs
  | .ifree ip, l => ip ∈ l.last
  | .writeDirent dp _ de, l =>
    dp ∈ l.dirs ∧ (de.inum ≠ 0 → IsDot de.name ∨ (dp, de.inum) ∈ l.below ∨ de.inum ∈ l.nondir)
  | .fileInit f _ _ _, l => f ∈ l.files
  | .fileDrop f, l => f ∈ l.files
  | .writei _ _ _, _ => False
  | .addOff _ _, _ => False
  | _, _ => True

def res : (o : Op) → Hold → o.Res → Prop
  | .cwd, l, ip => l.cwd = some ip
  | .tryLock _ ip, l, r => r = true → ip ∉ l.held
  | .waitLock ip, l, _ => ip ∉ l.held
  | .fields ip, l, f => ip ∈ l.live → f.type ≠ .free
  | .ref ip, l, r => l.refs.count ip ≤ r
  | .fileDrop _, _, .last ff => ff.ip = none
  | _, _, _ => True

def next : (o : Op) → Hold → o.Res → Hold
  | .setCwd ip, l, _ => { l with cwd := ip }
  | .igetEntry ip, l, r => if r then { l with refs := ip ::ₘ l.refs } else l
  | .idup ip, l, _ => { l with refs := ip ::ₘ l.refs }
  | .tryLock _ ip, l, true => { l with held := ip :: l.held }
  | .tryLock .ilock _, l, false => l
  -- `iput` with locks held: in the order only below all of them
  | .tryLock .iput ip, l, false =>
    { l with
      dirs := l.dirs ∪ { d | d ∈ l.held }
      below := l.below ∪ { x | x.1 ∈ l.held ∧ x.2 = ip } }
  | .waitLock ip, l, _ => { l with held := ip :: l.held }
  | .unlock ip, l, _ =>
    { l with
      held := l.held.erase ip
      live := l.live \ {ip}
      dirs := l.dirs \ {ip}
      below := { x | x ∈ l.below ∧ x.1 ≠ ip }
      last := l.last \ {ip} }
  | .load ip, l, type =>
    { l with live := l.live ∪ { x | x = ip ∧ ip ∈ l.held ∧ type ≠ .free } }
  | .fields ip, l, f =>
    { l with
      dirs := l.dirs ∪ { x | x = ip ∧ ip ∈ l.held ∧ f.type = .dir }
      nondir := l.nondir ∪ { x | x = ip ∧ ip ∈ l.held ∧ ip ∈ l.refs ∧ f.type ≠ .dir ∧ f.type ≠ .free } }
  | .ref ip, l, r =>
    { l with last := l.last ∪ { x | x = ip ∧ ip ∈ l.held ∧ ip ∈ l.refs ∧ r = 1 } }
  | .decRef ip, l, _ =>
    { l with
      refs := l.refs.erase ip
      nondir := { x | x ∈ l.nondir ∧ x ∈ l.refs.erase ip } }
  | .ifree ip, l, _ =>
    { l with
      live := l.live \ {ip}
      dirs := l.dirs \ {ip}
      nondir := l.nondir \ {ip}
      below := { x | x ∈ l.below ∧ x.1 ≠ ip } }
  | .iallocEntry _, l, r => { l with below := l.below ∪ { x | x.1 ∈ l.dirs ∧ r = some x.2 } }
  | .readDirent dp _, l, r =>
    { l with
      below := l.below ∪ { x | x.1 = dp ∧ dp ∈ l.dirs ∧
        ∃ de, r = some de ∧ de.inum = x.2 ∧ de.inum ≠ 0 ∧ ¬ IsDot de.name } }
  | .filealloc, l, r => { l with files := l.files ∪ { f | r = some f } }
  | .fileInit f _ _ _, l, _ => { l with files := l.files \ {f} }
  | .fileDrop f, l, _ => { l with files := l.files \ {f} }
  | _, l, _ => l

end Hold

def lockProtocol : Protocol Op Op.Res Hold where
  pre := Hold.pre
  res := Hold.res
  next := Hold.next

end Xv6.Fs
