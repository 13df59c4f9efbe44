import Lockstep.Capture.Combiner
import Lockstep.Predicate

set_option autoImplicit false

/-!
Patterns: what a grammar's rules say. Every pattern carries guards, the predicates that are to hold
for the first token after the pattern is entered. Recursion goes through references to names, so a
pattern itself is finite.
-/

namespace Lockstep

inductive Pattern where
  | token (spec : Spec) (guards : List Predicate)
  | nothing (guards : List Predicate)
  /-- All parts in order. The mark tells apart sequences that were made apart; the name shows in
  the trails of failures. -/
  | sequence (mark : Nat) (name? : Option String) (parts : List Pattern) (build : Combiner)
      (guards : List Predicate)
  | branch (options : List Pattern) (guards : List Predicate)
  | reference (name : String) (guards : List Predicate)
  /-- `inner` or nothing; `absent?` combines the marker of the absent case. -/
  | optional (inner : Pattern) (absent? : Option Combiner) (guards : List Predicate)
  /-- Any number of items, or at least one item with separators between them. -/
  | list (item : Pattern) (separator? : Option Pattern) (guards : List Predicate)

namespace Pattern

def guards : Pattern → List Predicate
  | .token _ guards => guards
  | .nothing guards => guards
  | .sequence _ _ _ _ guards => guards
  | .branch _ guards => guards
  | .reference _ guards => guards
  | .optional _ _ guards => guards
  | .list _ _ guards => guards

/-- The same pattern under one more guard; a sequence becomes the one marked `mark`. -/
def guarded (mark : Nat) (guard : Predicate) : Pattern → Pattern
  | .token spec guards => .token spec (guards ++ [guard])
  | .nothing guards => .nothing (guards ++ [guard])
  | .sequence _ name? parts build guards => .sequence mark name? parts build (guards ++ [guard])
  | .branch options guards => .branch options (guards ++ [guard])
  | .reference name guards => .reference name (guards ++ [guard])
  | .optional inner absent? guards => .optional inner absent? (guards ++ [guard])
  | .list item separator? guards => .list item separator? (guards ++ [guard])

def name? : Pattern → Option String
  | .sequence _ name? _ _ _ => name?
  | _ => none

def mark? : Pattern → Option Nat
  | .sequence mark _ _ _ _ => some mark
  | _ => none

end Pattern

end Lockstep
