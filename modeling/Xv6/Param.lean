import Mathlib.Algebra.Order.Ring.Int

/-!
# Kernel parameters

The constants of `param.h` and of the stock `fs.h`, which the repository includes but does not
carry.
-/

namespace Xv6

def nproc : Nat := 64

def nofile : Nat := 16

def nfile : Nat := 100

def ninode : Nat := 50

def maxOpBlocks : Nat := 10

def logSize : Nat := maxOpBlocks * 3

def nbuf : Nat := maxOpBlocks * 3

def rootdev : Nat := 1

def rootino : Nat := 1

def bsize : Nat := 512

def ndirect : Nat := 12

instance (priority := 2000) : NeZero (ndirect + 1) := ⟨Nat.succ_ne_zero _⟩

def nindirect : Nat := bsize / 4

def maxfile : Nat := ndirect + nindirect

def dirsiz : Nat := 14

def direntSize : Nat := 16

def dinodeSize : Nat := 64

def ipb : Nat := bsize / dinodeSize

def bpb : Nat := bsize * 8

def fssize : Nat := 1000

def console : Int := 1

end Xv6
