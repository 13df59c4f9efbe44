import Lockstep.Capture.Basic

set_option autoImplicit false

/-!
How lists of captures are kept. A list is a chunk with its first items and, but for lists that are
made whole, the chunk of the list that it was put in front of. That chunk is shared by all lists
grown from there. The items along the chunks are gathered when a list is read for the first time,
and stay with its chunk.
-/

namespace Lockstep

structure Handle where
  position : Position
  place : Nat

inductive Shared where
  | token (token : Token)
  | empty (position : Position)
  | list (handle : Handle)
  | node (tag : String) (position : Position) (parts : List Shared)

namespace Shared

def position : Shared → Position
  | .token t => t.position
  | .empty p => p
  | .list h => h.position
  | .node _ p _ => p

def span? : List Shared → Option Position
  | [] => none
  | c :: cs => some (c.position.upTo ((c :: cs).getLast (List.cons_ne_nil c cs)).position)

mutual

def places : Shared → List Nat
  | .token _ => []
  | .empty _ => []
  | .list h => [h.place]
  | .node _ _ parts => placesOfAll parts

def placesOfAll : List Shared → List Nat
  | [] => []
  | c :: cs => places c ++ placesOfAll cs

end

mutual

/-- The capture with the items that `lists` tells in the place of its lists. -/
def plain (lists : Nat → List Capture) : Shared → Capture
  | .token t => .token t
  | .empty p => .empty p
  | .list h => .list h.position (lists h.place)
  | .node tag p parts => .node tag p (plainAll lists parts)

def plainAll (lists : Nat → List Capture) : List Shared → List Capture
  | [] => []
  | c :: cs => plain lists c :: plainAll lists cs

end

end Shared

/-- Items of a list: `items`, and those of the chunk at `rest?`. -/
structure Chunk where
  items : List Shared
  rest? : Option Nat
  length : Nat
  /-- All items, those of the rest included, once they have been gathered. -/
  flat? : Option (List Shared)

/-- All chunks made so far, oldest first. -/
structure Pool where
  chunks : Array Chunk := #[]

namespace Pool

def empty : Pool := {}

def size (p : Pool) : Nat := p.chunks.size

def lengthAt (p : Pool) (place : Nat) : Nat := p.chunks[place]?.elim 0 Chunk.length

def push (p : Pool) (items : List Shared) (rest? : Option Nat) : Nat × Pool :=
  let length := items.length + rest?.elim 0 p.lengthAt
  (p.size, ⟨p.chunks.push ⟨items, rest?, length, none⟩⟩)

def ofItems? (p : Pool) (items : List Shared) : Option (Handle × Pool) :=
  (Shared.span? items).map fun position =>
    let (place, p) := p.push items none
    (⟨position, place⟩, p)

def emptyList (p : Pool) (anchor : Position) : Handle × Pool :=
  let (place, p) := p.push [] none
  (⟨Position.ofSpan anchor.source (Span.point anchor.span.start), place⟩, p)

def length (p : Pool) (list : Handle) : Nat := p.lengthAt list.place

def prepend (p : Pool) (head : Shared) (tail : Handle) : Handle × Pool :=
  if p.length tail = 0 then
    let (place, p) := p.push [head] none
    (⟨head.position, place⟩, p)
  else
    let (place, p) := p.push [head] (some tail.place)
    (⟨head.position.upTo tail.position, place⟩, p)

/-- The items from the chunk at `place` on, up to a chunk where they have been gathered before. -/
def gather (p : Pool) (place : Nat) : List Shared :=
  match p.chunks[place]? with
  | none => []
  | some c =>
    match c.flat? with
    | some flat => flat
    | none => c.items ++ c.rest?.elim [] fun rest => if rest < place then p.gather rest else []
termination_by place

def remember (p : Pool) (place : Nat) (all : List Shared) : Pool :=
  ⟨p.chunks.modify place fun c => { c with flat? := some all }⟩

/-- The items of `list`, gathered on the first reading unless the chunk has all of them. -/
def read (p : Pool) (list : Handle) : List Shared × Pool :=
  match p.chunks[list.place]? with
  | none => ([], p)
  | some c =>
    match c.rest?, c.flat? with
    | none, _ => (c.items, p)
    | some _, some flat => (flat, p)
    | some rest, none =>
      let all := c.items ++ p.gather rest
      (all, p.remember list.place all)

/-- Puts `items` in front of `start` one at a time, the last one first. -/
def prependAll (p : Pool) (items : List Shared) (start : Handle) : Handle × Pool :=
  items.foldr (fun head grown => grown.2.prepend head grown.1) (start, p)

/-- The captures that the list at `place` stands for, whatever has been gathered. -/
def plainItems (p : Pool) (place : Nat) : List Capture :=
  match p.chunks[place]? with
  | none => []
  | some c =>
    let lists older := if older < place then p.plainItems older else []
    Shared.plainAll lists c.items ++ c.rest?.elim [] lists
termination_by place

def plain (p : Pool) (c : Shared) : Capture := c.plain p.plainItems

inductive Command where
  | ofItems (items : List Shared)
  | emptyList (anchor : Position)
  | prepend (head : Shared) (tail : Handle)
  | length (list : Handle)
  | read (list : Handle)

inductive Reply where
  | list (list? : Option Handle)
  | length (length : Nat)
  | items (items : List Shared)

def Command.uses : Command → List Nat
  | .ofItems items => Shared.placesOfAll items
  | .emptyList _ => []
  | .prepend head tail => tail.place :: head.places
  | .length list => [list.place]
  | .read list => [list.place]

def perform (p : Pool) : Command → Reply × Pool
  | .ofItems items =>
    match p.ofItems? items with
    | some (list, p) => (.list (some list), p)
    | none => (.list none, p)
  | .emptyList anchor =>
    let (list, p) := p.emptyList anchor
    (.list (some list), p)
  | .prepend head tail =>
    let (list, p) := p.prepend head tail
    (.list (some list), p)
  | .length list => (.length (p.length list), p)
  | .read list =>
    let (items, p) := p.read list
    (.items items, p)

def run? (p : Pool) (c : Command) : Option (Reply × Pool) :=
  if c.uses.all (· < p.size) then some (p.perform c) else none

def after? (p : Pool) (commands : List Command) : Option Pool :=
  commands.foldlM (fun p c => (p.run? c).map Prod.snd) p

end Pool

end Lockstep
