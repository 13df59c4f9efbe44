import Lockstep.Text.Offset
import Lockstep.Text.Bytes

set_option autoImplicit false

/-!
Line and column coordinates. A line ends with a line feed, a carriage return, or the two together
in this order, which count once. `LineTable` keeps the offset at which each line starts; the line
of an offset is found by halving.
-/

namespace Lockstep

/-- A zero-based line and a zero-based column within it, the column in bytes. -/
structure LineCol where
  line : Nat
  column : Nat
  deriving DecidableEq, Repr, Inhabited

namespace LineCol

instance : LE LineCol where
  le a b := a.line < b.line ∨ a.line = b.line ∧ a.column ≤ b.column

instance (a b : LineCol) : Decidable (a ≤ b) :=
  inferInstanceAs (Decidable (a.line < b.line ∨ a.line = b.line ∧ a.column ≤ b.column))

instance : Min LineCol := minOfLe

instance : Max LineCol := maxOfLe

def shifted (p : LineCol) (n : Nat) : LineCol := ⟨p.line, Offset.advance p.column n⟩

/-- Readers count lines and columns from one. -/
def render (p : LineCol) : String := s!"{p.line + 1}:{p.column + 1}"

end LineCol

structure LineTable where
  starts : Array Nat
  size : Nat
  deriving DecidableEq, Repr

namespace LineTable

/-- The line starts after `o` in a text of which `cs` is what follows `o`. -/
def startsAfter : Nat → List Char → List Nat
  | _, [] => []
  | o, '\r' :: '\n' :: cs => (o + 2) :: startsAfter (o + 2) cs
  | o, c :: cs =>
    if c = '\n' ∨ c = '\r' then (o + 1) :: startsAfter (o + 1) cs
    else startsAfter (o + c.utf8Size) cs

def ofText (cs : List Char) : LineTable :=
  ⟨(0 :: startsAfter 0 cs).toArray, Bytes.length cs⟩

/-- The last index from `lo` on and below `hi` whose entry is at most `o`, given that the entry at
`lo` is. -/
def search (starts : Array Nat) (o : Nat) (lo hi : Nat) (bound : hi ≤ starts.size) : Nat :=
  if more : lo + 1 < hi then
    if starts[(lo + hi) / 2] ≤ o then search starts o ((lo + hi) / 2) hi bound
    else search starts o lo ((lo + hi) / 2) (by omega)
  else lo
termination_by hi - lo

def lineOf (t : LineTable) (o : Nat) : Nat :=
  search t.starts o 0 t.starts.size (Nat.le_refl _)

/-- Coordinates of `o`; an offset past the end counts as the end. -/
def lineCol (t : LineTable) (o : Nat) : LineCol :=
  let o := min o t.size
  let line := t.lineOf o
  ⟨line, o - t.starts.getD line 0⟩

/-- How many lines there are, or the greatest line number if there are more. -/
def lineCount (t : LineTable) : Nat := Offset.clip t.starts.size

def lineStart? (t : LineTable) (line : Nat) : Option Nat := t.starts[line]?

def isTerminator (c : Char) : Bool := c == '\n' || c == '\r'

def chomp (cs : List Char) : List Char := (cs.reverse.dropWhile isTerminator).reverse

/-- The line below `line`. No number comes after the greatest one. -/
def lineBelow? (line : Nat) : Option Nat := if line < Offset.limit then some (line + 1) else none

/-- Where `line` of the text `cs` starts, and its characters without the terminator. It ends where
the line below starts, so there has to be a number for that one, also if it does not exist. -/
def line? (t : LineTable) (cs : List Char) (line : Nat) : Option (Nat × List Char) :=
  (t.lineStart? line).bind fun start => (lineBelow? line).bind fun below =>
    (Bytes.slice? start ((t.lineStart? below).getD t.size) cs).map fun body => (start, chomp body)

def lineBounds? (t : LineTable) (cs : List Char) (line : Nat) : Option Span :=
  (t.line? cs line).map fun (start, body) => ⟨start, start + Bytes.length body⟩

end LineTable

end Lockstep
