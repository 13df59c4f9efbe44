import Lockstep.Grammar.Basic

set_option autoImplicit false

/-!
Matchers: patterns in the form in which they are matched. Optional patterns are branches. Rules and
lists are deferred: they stand for a matcher that `Grammar.unfold` gives when a derivation reaches
them, so lowering a recursive grammar ends.
-/

namespace Lockstep

inductive Matcher where
  | token (spec : Spec) (guards : List Predicate)
  | nothing (guards : List Predicate)
  | sequence (name? : Option String) (parts : List Matcher) (build : Combiner)
      (guards : List Predicate)
  | branch (options : List Matcher) (guards : List Predicate)
  | rule (name : String) (guards : List Predicate)
  /-- Stands for any number of items, or for at least one with separators between them. -/
  | list (item : Matcher) (separator? : Option Matcher) (guards : List Predicate)
  /-- Stands for what follows the first item of a list with separators. -/
  | tail (item : Matcher) (separator? : Option Matcher) (guards : List Predicate)

namespace Matcher

def guards : Matcher → List Predicate
  | .token _ guards => guards
  | .nothing guards => guards
  | .sequence _ _ _ guards => guards
  | .branch _ guards => guards
  | .rule _ guards => guards
  | .list _ _ guards => guards
  | .tail _ _ guards => guards

def absent : Option Combiner → Matcher
  | none => .nothing []
  | some build => .sequence none [.nothing []] build []

mutual

def lower : Pattern → Matcher
  | .token spec guards => .token spec guards
  | .nothing guards => .nothing guards
  | .sequence _ name? parts build guards => .sequence name? (lowerAll parts) build guards
  | .branch options guards => .branch (lowerAll options) guards
  | .reference name guards => .rule name guards
  | .optional inner absent? guards => .branch [lower inner, absent absent?] guards
  | .list item separator? guards => .list (lower item) (lowerSome separator?) guards

def lowerSome : Option Pattern → Option Matcher
  | none => none
  | some p => some (lower p)

def lowerAll : List Pattern → List Matcher
  | [] => []
  | p :: ps => lower p :: lowerAll ps

end

def noItems : Matcher := .sequence none [.nothing []] .emptyList []

def anyItems (item : Matcher) : Matcher :=
  .branch [.sequence none [item, .list item none []] (.cons 0 1) [], noItems] []

def someItems (item : Matcher) (separator? : Option Matcher) : Matcher :=
  .sequence none [item, .tail item separator? []] (.cons 0 1) []

def moreItems (item separator : Matcher) : Matcher :=
  .branch [.sequence none [separator, item, .tail item (some separator) []] (.cons 1 2) [], noItems] []

end Matcher

namespace Grammar

/-- The matcher that a deferred one stands for; any other stands for itself. Fails on the name of
no rule. -/
def unfold (g : Grammar) : Matcher → Except String Matcher
  | .rule name _ =>
    match g.lookup? name with
    | some pattern => .ok (.lower pattern)
    | none => .error name
  | .list item none _ => .ok (.anyItems item)
  | .list item (some separator) _ => .ok (.someItems item (some separator))
  | .tail item (some separator) _ => .ok (.moreItems item separator)
  | .tail _ none _ => .ok .noItems
  | m => .ok m

end Grammar

end Lockstep
