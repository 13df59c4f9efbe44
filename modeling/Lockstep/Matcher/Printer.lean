import Lockstep.Matcher.Basic
import Lockstep.Pattern.Printer

set_option autoImplicit false

namespace Lockstep.Matcher

def describeWith (guards : List Predicate) (kind : String) : String :=
  "Matcher \x7b kind: " ++ kind ++ ", predicates: [" ++
    ", ".intercalate (guards.map Predicate.label) ++ "] \x7d"

mutual

def describe (rank : String → Nat) : Matcher → String
  | .token spec guards => describeWith guards ("Token(" ++ spec.describe ++ ")")
  | .nothing guards => describeWith guards "Nothing"
  | .sequence name? parts _ guards =>
    describeWith guards
      ("Sequence(SequenceMatcher \x7b name: " ++ Quoted.describeOption name? ++ ", parts: " ++
        toString parts.length ++ ", .. \x7d)")
  | .branch options guards =>
    describeWith guards ("Branch([" ++ ", ".intercalate (describeAll rank options) ++ "])")
  | .rule name guards =>
    describeWith guards ("Generator(Rule(Spur(" ++ toString (rank name) ++ ")))")
  | .list item separator? guards =>
    describeWith guards
      ("Generator(List(ListMatcher \x7b item: " ++ item.describe rank ++ ", separator: " ++
        describeSome rank separator? ++ " \x7d))")
  | .tail item separator? guards =>
    describeWith guards
      ("Generator(DelimTail(ListMatcher \x7b item: " ++ item.describe rank ++ ", separator: " ++
        describeSome rank separator? ++ " \x7d))")

def describeSome (rank : String → Nat) : Option Matcher → String
  | none => "None"
  | some m => "Some(" ++ m.describe rank ++ ")"

def describeAll (rank : String → Nat) : List Matcher → List String
  | [] => []
  | m :: ms => m.describe rank :: describeAll rank ms

end

end Lockstep.Matcher
