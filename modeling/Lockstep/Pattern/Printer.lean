import Lockstep.Pattern.Basic

set_option autoImplicit false

namespace Lockstep

namespace Pattern

def describeGuarded (kind : String) : List Predicate → String
  | [] => kind
  | guards =>
    "Pattern \x7b kind: " ++ kind ++ ", predicates: [" ++
      ", ".intercalate (guards.map Predicate.label) ++ "] \x7d"

mutual

def describe (rank : String → Nat) : Pattern → String
  | .token spec guards => describeGuarded ("Token(" ++ spec.render ++ ")") guards
  | .nothing guards => describeGuarded "Nothing" guards
  | .sequence _ name? parts _ guards =>
    describeGuarded
      ("SequencePattern \x7b name: " ++ Quoted.describeOption name? ++ ", parts: [" ++
        ", ".intercalate (describeAll rank parts) ++ "], .. \x7d") guards
  | .branch options guards =>
    describeGuarded ("Branch([" ++ ", ".intercalate (describeAll rank options) ++ "])") guards
  | .reference name guards => describeGuarded ("Ref(Spur(" ++ toString (rank name) ++ "))") guards
  | .optional inner _ guards => describeGuarded ("Optional(" ++ inner.describe rank ++ ")") guards
  | .list item separator? guards =>
    describeGuarded
      ("List \x7b item: " ++ item.describe rank ++ ", separator: " ++
        describeSome rank separator? ++ " \x7d") guards

def describeSome (rank : String → Nat) : Option Pattern → String
  | none => "None"
  | some p => "Some(" ++ p.describe rank ++ ")"

def describeAll (rank : String → Nat) : List Pattern → List String
  | [] => []
  | p :: ps => p.describe rank :: describeAll rank ps

end

end Pattern

end Lockstep
