import Lockstep.Pattern.Basic

set_option autoImplicit false

namespace Lockstep

structure Grammar where
  /-- All names, defined or only mentioned, in the order in which they first came up. -/
  names : List String
  rules : List (String × Pattern)
  keywords : List String
  main? : Option String

namespace Grammar

def lookup? (g : Grammar) (name : String) : Option Pattern := g.rules.lookup name

def mainPattern? (g : Grammar) : Option Pattern := g.main?.bind g.lookup?

def rank (g : Grammar) (name : String) : Nat := g.names.idxOf name + 1

def size (g : Grammar) : Nat := g.rules.length

end Grammar

inductive GrammarError where
  | undefinedRule (name : String)
  | redefinition (name : String)
  | emptySequence (name? : Option String)
  | emptyChoice
  | unknownMain (name : String)
  deriving DecidableEq, Repr

namespace GrammarError

def message : GrammarError → String
  | .undefinedRule name => "Reference to undefined pattern '" ++ name ++ "'"
  | .redefinition name => "Pattern '" ++ name ++ "' is defined more than once"
  | .emptySequence (some name) => "Sequence '" ++ name ++ "' has no parts"
  | .emptySequence none => "Sequence has no parts"
  | .emptyChoice => "Choice has no alternatives"
  | .unknownMain name => "Main pattern '" ++ name ++ "' is not defined"

end GrammarError

end Lockstep
