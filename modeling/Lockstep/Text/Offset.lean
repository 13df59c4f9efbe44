set_option autoImplicit false

/-!
Byte offsets and spans. An offset is a distance from the start of a text, in bytes of its UTF-8
form. Offsets are bounded: arithmetic on them stops at `Offset.limit` and never wraps around. A span
may be reversed; it is then empty.
-/

namespace Lockstep

namespace Offset

def limit : Nat := 4294967295

def clip (n : Nat) : Nat := min n limit

def advance (o : Nat) (n : Nat) : Nat := clip (o + n)

theorem clip_le (n : Nat) : clip n ≤ limit := Nat.min_le_right n limit

theorem clip_of_le {n : Nat} (h : n ≤ limit) : clip n = n := Nat.min_eq_left h

theorem advance_le (o : Nat) (n : Nat) : advance o n ≤ limit := clip_le (o + n)

end Offset

/-- The bytes from `start` up to, but not including, `stop`. -/
structure Span where
  start : Nat
  stop : Nat
  deriving DecidableEq, Repr, Inhabited

namespace Span

def ofLength (start : Nat) (length : Nat) : Span := ⟨start, Offset.advance start length⟩

def point (o : Nat) : Span := ⟨o, o⟩

def length (s : Span) : Nat := s.stop - s.start

def isEmpty (s : Span) : Bool := s.stop ≤ s.start

def contains (s : Span) (o : Nat) : Bool := s.start ≤ o && o < s.stop

def containsSpan (s t : Span) : Bool := s.start ≤ t.start && t.stop ≤ s.stop

def cover (s t : Span) : Span := ⟨min s.start t.start, max s.stop t.stop⟩

def render (s : Span) : String := s!"{s.start}..{s.stop}"

theorem cover_comm (s t : Span) : s.cover t = t.cover s := by
  simp only [cover, Nat.min_comm, Nat.max_comm]

theorem cover_assoc (s t u : Span) : (s.cover t).cover u = s.cover (t.cover u) := by
  simp only [cover, Nat.min_assoc, Nat.max_assoc]

theorem cover_self (s : Span) : s.cover s = s := by
  simp only [cover, Nat.min_self, Nat.max_self]

end Span

end Lockstep
