import Lockstep.Token.Basic

set_option autoImplicit false

namespace Lockstep

inductive Capture where
  | token (token : Token)
  /-- Marks a part that is absent. -/
  | empty (position : Position)
  | list (position : Position) (items : List Capture)
  | node (tag : String) (position : Position) (parts : List Capture)
  deriving Inhabited

namespace Capture

def position : Capture → Position
  | .token t => t.position
  | .empty p => p
  | .list p _ => p
  | .node _ p _ => p

def token? : Capture → Option Token
  | .token t => some t
  | _ => none

def items? : Capture → Option (List Capture)
  | .list _ items => some items
  | _ => none

def tag? : Capture → Option String
  | .node tag _ _ => some tag
  | _ => none

def isEmptyMarker : Capture → Bool
  | .empty _ => true
  | _ => false

def span? : List Capture → Option Position
  | [] => none
  | c :: cs => some (c.position.upTo ((c :: cs).getLast (List.cons_ne_nil c cs)).position)

/-- The list of `items`, from the first to the last; an empty list needs an anchor instead. -/
def ofItems? (items : List Capture) : Option Capture :=
  (span? items).map fun position => .list position items

def emptyList (anchor : Position) : Capture :=
  .list (Position.ofSpan anchor.source (Span.point anchor.span.start)) []

def prepend (head : Capture) (position : Position) (items : List Capture) : Capture :=
  .list (if items.isEmpty then head.position else head.position.upTo position) (head :: items)

mutual

def decEq : (a b : Capture) → Decidable (a = b)
  | .token s, .token t => decidable_of_iff (s = t) (by simp)
  | .empty p, .empty q => decidable_of_iff (p = q) (by simp)
  | .list p xs, .list q ys =>
    match decEqAll xs ys with
    | isTrue same => decidable_of_iff (p = q) (by simp [same])
    | isFalse differ => isFalse (by simp [differ])
  | .node s p xs, .node t q ys =>
    match decEqAll xs ys with
    | isTrue same => decidable_of_iff (s = t ∧ p = q) (by simp [same])
    | isFalse differ => isFalse (by simp [differ])
  | .token _, .empty _ => isFalse (by simp)
  | .token _, .list _ _ => isFalse (by simp)
  | .token _, .node _ _ _ => isFalse (by simp)
  | .empty _, .token _ => isFalse (by simp)
  | .empty _, .list _ _ => isFalse (by simp)
  | .empty _, .node _ _ _ => isFalse (by simp)
  | .list _ _, .token _ => isFalse (by simp)
  | .list _ _, .empty _ => isFalse (by simp)
  | .list _ _, .node _ _ _ => isFalse (by simp)
  | .node _ _ _, .token _ => isFalse (by simp)
  | .node _ _ _, .empty _ => isFalse (by simp)
  | .node _ _ _, .list _ _ => isFalse (by simp)

def decEqAll : (xs ys : List Capture) → Decidable (xs = ys)
  | [], [] => isTrue rfl
  | [], _ :: _ => isFalse (by simp)
  | _ :: _, [] => isFalse (by simp)
  | x :: xs, y :: ys =>
    match decEq x y with
    | isTrue same =>
      match decEqAll xs ys with
      | isTrue rest => isTrue (by simp [same, rest])
      | isFalse differ => isFalse (by simp [differ])
    | isFalse differ => isFalse (by simp [differ])

end

instance : DecidableEq Capture := decEq

end Capture

end Lockstep
