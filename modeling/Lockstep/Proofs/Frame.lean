import Lockstep.Store.Basic

set_option autoImplicit false

/-!
Frames: the sequences that a derivation is inside, each with the captures of its first parts. A list
of frames has the innermost one first. It says in full what a node of a store says by its links, and
a capture that completes a sequence is combined at once and handed to the frame around it.
-/

namespace Lockstep

structure Frame where
  sequence : Sequence
  captured : List Capture

inductive Spot where
  | next (matcher : Matcher) (frames : List Frame)
  /-- All sequences are finished; the innermost of `frames` holds the last capture. -/
  | done (frames : List Frame)

namespace Frame

def next? (f : Frame) : Option Matcher := f.sequence.parts[f.captured.length]?

def add (f : Frame) (c : Capture) : Frame := { f with captured := f.captured ++ [c] }

def capture (f : Frame) : Capture := f.sequence.build f.captured

def afterNext (f : Frame) : List Matcher := f.sequence.parts.drop (f.captured.length + 1)

/-- The capture of the outermost of `frames` when `c` is the last part of the innermost one, and
each frame the last part of the one around it. -/
def enclose (c : Capture) (frames : List Frame) : Capture :=
  frames.foldl (fun c f => (f.add c).capture) c

def outermost : List Frame → Capture
  | [] => Combiner.fallback []
  | f :: fs => enclose f.capture fs

def trail (frames : List Frame) : Trail := frames.flatMap fun f => f.sequence.name?.toList

/-- Hands `c` to the innermost of `frames`, and on from every frame that it finishes. Gives nothing
when it finishes them all. -/
def climb (c : Capture) : List Frame → Option Spot
  | [] => none
  | f :: fs =>
    match (f.add c).next? with
    | some m => some (.next m (f.add c :: fs))
    | none => climb (f.add c).capture fs

def settle : List Frame → Spot
  | [] => .done []
  | f :: fs =>
    match f.next? with
    | some m => .next m (f :: fs)
    | none => (climb f.capture fs).getD (.done (f :: fs))

def advance (c : Capture) : List Frame → Spot
  | [] => .done []
  | f :: fs => settle (f.add c :: fs)

/-- How many nodes a store makes to settle at `frames`: one if a sequence further out goes on. -/
def resumed : List Frame → Nat
  | [] => 0
  | f :: fs => if f.next?.isNone && (climb f.capture fs).isSome then 1 else 0

def advanced (c : Capture) : List Frame → Nat
  | [] => 0
  | f :: fs => 1 + resumed (f.add c :: fs)

theorem next?_add_eq_none_iff (f : Frame) (c : Capture) :
    (f.add c).next? = none ↔ f.sequence.parts.length ≤ f.captured.length + 1 := by
  simp only [next?, add, List.length_append, List.length_singleton, List.getElem?_eq_none_iff]

theorem climb_of_next {f : Frame} {c : Capture} {m : Matcher} (fs : List Frame)
    (h : (f.add c).next? = some m) : climb c (f :: fs) = some (.next m (f.add c :: fs)) := by
  simp only [climb, h]

theorem climb_of_finished {f : Frame} {c : Capture} (fs : List Frame)
    (h : (f.add c).next? = none) : climb c (f :: fs) = climb (f.add c).capture fs := by
  simp only [climb, h]

end Frame

namespace Spot

def frames : Spot → List Frame
  | .next _ frames => frames
  | .done frames => frames

end Spot

end Lockstep
