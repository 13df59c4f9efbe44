import Lockstep.Capture.Basic

set_option autoImplicit false

namespace Lockstep

abbrev Combiner := List Capture → Capture

namespace Combiner

/-- The marker for parts that do not fit. -/
def fallback : Combiner
  | [] => .empty Position.detached
  | c :: _ => .empty c.position.endPoint

def nth (index : Nat) : Combiner := fun parts => parts[index]?.getD (fallback parts)

def listOf : Combiner := fun parts => (Capture.ofItems? parts).getD (fallback parts)

def cons (head tail : Nat) : Combiner := fun parts =>
  match parts[head]?, parts[tail]? with
  | some first, some (.list position items) => first.prepend position items
  | some first, _ => (Capture.ofItems? [first]).getD (fallback parts)
  | none, _ => fallback parts

def emptyList : Combiner
  | [] => fallback []
  | c :: _ => Capture.emptyList c.position

def node (tag : String) : Combiner := fun parts =>
  match Capture.span? parts with
  | some position => .node tag position parts
  | none => fallback parts

def relabel (kind : Kind) (value : String) : Combiner := fun parts =>
  match parts with
  | [] => fallback parts
  | c :: _ => .token ⟨kind, value, c.position⟩

def joinedSymbol (text : String) : Combiner := fun parts =>
  match Capture.span? parts with
  | some position => .token ⟨.symbol, text, position⟩
  | none => fallback parts

end Combiner

end Lockstep
