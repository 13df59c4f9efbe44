import Lockstep.Matcher.Basic

set_option autoImplicit false

/-!
The store of progress through sequences. Adding a capture to a sequence makes a new node that
points back at the node it extends, so derivations that part share all that they have in common,
and going on from a node never changes it. Links go to older nodes.

A finished sequence is not combined at once: the nearest enclosing sequence with parts left is
extended by a deferred slot, which is built when it is read. Nobody looks at the inner sequence
before that, so its place may be one that holds no node as yet.
-/

namespace Lockstep

structure Sequence where
  name? : Option String
  parts : List Matcher
  build : Combiner

inductive Slot where
  | built (capture : Capture)
  /-- The capture of the finished sequence `inner`, and of those that it finishes in turn. -/
  | deferred (inner : Nat)

inductive Progress where
  | entered
  /-- One more part has been captured than at `previous`. -/
  | extended (previous : Nat) (slot : Slot)

/-- A sequence with its first `count` parts captured. -/
structure Node where
  parent? : Option Nat
  sequence : Sequence
  progress : Progress
  count : Nat
  /-- The nearest enclosing node that has parts left when this sequence is finished. -/
  resume? : Option Nat

namespace Node

def nextPart? (n : Node) : Option Matcher := n.sequence.parts[n.count]?

/-- Parts are left after the next one. -/
def continues (n : Node) : Bool := n.count + 1 < n.sequence.parts.length

end Node

structure Store where
  nodes : Array Node := #[]
  /-- How many nodes were made since the store was last cleared. -/
  allocated : Nat := 0

namespace Store

def empty : Store := {}

instance : Inhabited Store := ⟨empty⟩

def size (s : Store) : Nat := s.nodes.size

def push (s : Store) (n : Node) : Nat × Store :=
  (s.nodes.size, ⟨s.nodes.push n, s.allocated + 1⟩)

/-- Where matching goes on when a sequence entered inside `parent` is finished. -/
def resumeInside (s : Store) (parent : Nat) : Option Nat :=
  s.nodes[parent]?.bind fun n => if n.continues then some parent else n.resume?

def enter (s : Store) (parent? : Option Nat) (sequence : Sequence) : Nat × Store :=
  let resume? := parent?.bind s.resumeInside
  s.push ⟨parent?, sequence, .entered, 0, resume?⟩

def extend (s : Store) (id : Nat) (slot : Slot) : Nat × Store :=
  match s.nodes[id]? with
  | some n => s.push ⟨n.parent?, n.sequence, .extended id slot, n.count + 1, n.resume?⟩
  | none => (id, s)

def addCapture (s : Store) (id : Nat) (capture : Capture) : Nat × Store :=
  s.extend id (.built capture)

def addFinished (s : Store) (id inner : Nat) : Nat × Store := s.extend id (.deferred inner)

def nextPart? (s : Store) (id : Nat) : Option Matcher := s.nodes[id]?.bind Node.nextPart?

def isFinished (s : Store) (id : Nat) : Bool := (s.nextPart? id).isNone

def parent? (s : Store) (id : Nat) : Option Nat := s.nodes[id]?.bind Node.parent?

def resume? (s : Store) (id : Nat) : Option Nat := s.nodes[id]?.bind Node.resume?

def trail (s : Store) (id : Nat) : Trail :=
  match s.nodes[id]? with
  | none => []
  | some n =>
    n.sequence.name?.toList ++
      match n.parent? with
      | some parent => if parent < id then s.trail parent else []
      | none => []
termination_by id

end Store

end Lockstep
