import Xv6.Lib.Machine
import Xv6.Lib.Ring

/-!
# The console

`consoleintr` and `consoleread` in `console.c`. Both hold `cons.lock` while they work on `input`;
`consoleread` lets it go only in `sleep`, so that each of its sections is one step, up to the next
`sleep` or the return. What the console echoes is left out.
-/

namespace Xv6.Console

def inputBuf : Nat := 128

def newline : Nat := 10

def ctrlD : Nat := 4

structure Input where
  buf : Nat → UInt8
  r : UInt32
  w : UInt32
  e : UInt32

namespace Input

/-- `input.buf[i % INPUT_BUF]`. -/
def byteAt (x : Input) (i : UInt32) : UInt8 := x.buf (i.toNat % inputBuf)

def pending (x : Input) : List UInt8 := Ring.contents inputBuf x.buf x.r.toNat (x.w - x.r).toNat

/-! ### `consoleintr` -/

/-- `case C('U')`: the loop, which comes to an end at `w` at the latest. -/
def killLine : Nat → Input → Input
  | 0, x => x
  | fuel + 1, x =>
    if x.e ≠ x.w ∧ x.byteAt (x.e - 1) ≠ 10 then killLine fuel { x with e := x.e - 1 } else x

def backspace (x : Input) : Input := if x.e ≠ x.w then { x with e := x.e - 1 } else x

def enter (x : Input) (c : Nat) : Input :=
  if c ≠ 0 ∧ (x.e - x.r).toNat < inputBuf then
    let c := if c = 13 then newline else c
    let x := { x with buf := Function.update x.buf (x.e.toNat % inputBuf) (UInt8.ofNat c), e := x.e + 1 }
    if c = newline ∨ c = ctrlD ∨ x.e = x.r + 128 then { x with w := x.e } else x
  else x

def key (x : Input) (c : Nat) : Input :=
  if c = 16 then x
  else if c = 21 then killLine (x.e - x.w).toNat x
  else if c = 8 ∨ c = 127 then x.backspace
  else x.enter c

end Input

/-! ### `consoleread` -/

inductive Stop where
  | full
  | newline
  /-- At a ^D that it has taken. -/
  | eof
  /-- At a ^D that it has put back. -/
  | saved
  | killed
  deriving DecidableEq

/-- The loop of a call for `target` bytes, of which `n` are to be read and `got` are at `dst`. It stops
with a result, or goes to sleep. -/
def readLoop (killed : Bool) (target : Nat) :
    Nat → Input → List UInt8 → Input × List UInt8 × Option (Stop × Int)
  | 0, x, got => (x, got, some (.full, target))
  | n + 1, x, got =>
    if x.r = x.w then (x, got, if killed then some (.killed, -1) else none)
    else
      let c := x.byteAt x.r
      let x := { x with r := x.r + 1 }
      if c = 4 then
        if n + 1 < target then ({ x with r := x.r - 1 }, got, some (.saved, target - (n + 1)))
        else (x, got, some (.eof, target - (n + 1)))
      else if c = 10 then (x, got ++ [c], some (.newline, target - n))
      else readLoop killed target n x (got ++ [c])

structure Call where
  n : Int
  got : List UInt8

structure Done where
  n : Int
  got : List UInt8
  stop : Stop
  result : Int

structure State where
  input : Input
  /-- The processes that sleep in `consoleread`. -/
  call : Nat → Option Call
  /-- History: the bytes committed, what was taken from them by which process, with none for a ^D, and
  the calls that have returned, the last at the end. -/
  committed : List UInt8
  delivered : List (Nat × Option UInt8)
  finished : List (Nat × Done)

inductive Act where
  /-- An interrupt, with the characters up to the first negative result of `getc`. -/
  | intr (cs : List Nat)
  | read (p : Nat) (n : Int) (killed : Bool)
  /-- A process goes on after `sleep`. -/
  | wake (p : Nat) (killed : Bool)

namespace State

def init : State where
  input := { buf := fun _ => 0, r := 0, w := 0, e := 0 }
  call _ := none
  committed := []
  delivered := []
  finished := []

def key (s : State) (c : Nat) : State :=
  let x := s.input.key c
  { s with
    input := x
    committed := s.committed ++ Ring.contents inputBuf x.buf s.input.w.toNat (x.w - s.input.w).toNat }

def give (s : State) (p : Nat) (c : Call) (bs : List UInt8) (x : Input) : State :=
  { s with
    input := x
    call := Function.update s.call p (some { c with got := c.got ++ bs })
    delivered := s.delivered ++ bs.map fun b => (p, some b) }

def finish (s : State) (p : Nat) (d : Done) : State :=
  { s with
    call := Function.update s.call p none
    delivered := s.delivered ++ if d.stop = .eof then [(p, none)] else []
    finished := s.finished ++ [(p, d)] }

def run (s : State) (p : Nat) (c : Call) (killed : Bool) : State :=
  let (x, got, stop) := readLoop killed c.n.toNat (c.n.toNat - c.got.length) s.input c.got
  let s := s.give p c (got.drop c.got.length) x
  match stop with
  | none => s
  | some (stop, result) => s.finish p { n := c.n, got := got, stop := stop, result := result }

def step (s : State) : Act → Option State
  | .intr cs => some (cs.foldl key s)
  | .read p n killed => if s.call p = none then some (s.run p { n := n, got := [] } killed) else none
  | .wake p killed => (s.call p).map fun c => s.run p c killed

end State

end Xv6.Console
