import Lockstep.Text.Position

set_option autoImplicit false

namespace Lockstep

structure Diagnostic where
  position : Position
  message : String
  deriving DecidableEq

namespace Diagnostic

/-- Source name and message, then the line in question with carets under the span. -/
def render (d : Diagnostic) : String :=
  d.position.source.name ++ ": " ++ d.message ++ "\n" ++ d.position.excerpt

def joinMessages (ds : List Diagnostic) : String :=
  "\n".intercalate (ds.map message)

def combine : List Diagnostic → Option Diagnostic
  | [] => none
  | [d] => some d
  | d :: ds => some ⟨d.position, joinMessages (d :: ds)⟩

end Diagnostic

end Lockstep
