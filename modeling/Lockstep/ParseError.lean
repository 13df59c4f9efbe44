import Lockstep.Capture.Basic
import Lockstep.Diagnostic
import Lockstep.Token.Tokenizer

set_option autoImplicit false

namespace Lockstep

inductive ParseError where
  | rejected (diagnostics : List Diagnostic)
  | lexical (error : LexError)
  /-- More derivations wait for a token at once than `limit`. -/
  | threadLimit (limit : Nat) (position : Position)
  /-- More than `limit` steps were made without taking a token. -/
  | expansionLimit (limit : Nat) (position : Position)
  | ambiguous (results : List Capture)
  | unknownPattern (name : String)
  | noEntryPattern

namespace ParseError

def message : ParseError → String
  | .rejected diagnostics => Diagnostic.joinMessages diagnostics
  | .lexical e => e.message
  | .threadLimit limit position => s!"more than {limit} live derivations at {position.render}"
  | .expansionLimit limit position =>
    s!"more than {limit} expansion steps at {position.render}; is the grammar left-recursive?"
  | .ambiguous results => s!"Ambiguous parse: {results.length} derivations succeeded"
  | .unknownPattern name => "No pattern named '" ++ name ++ "'"
  | .noEntryPattern => "Grammar has no main pattern"

def diagnostics : ParseError → List Diagnostic
  | .rejected diagnostics => diagnostics
  | _ => []

def position? : ParseError → Option Position
  | .rejected diagnostics => diagnostics.head?.map Diagnostic.position
  | .lexical e => some e.position
  | .threadLimit _ position => some position
  | .expansionLimit _ position => some position
  | .ambiguous _ => none
  | .unknownPattern _ => none
  | .noEntryPattern => none

end ParseError

end Lockstep
