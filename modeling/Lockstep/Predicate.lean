import Lockstep.Failure

set_option autoImplicit false

namespace Lockstep

structure Predicate where
  test : Token → Position → Bool
  failure : Token → Position → Cause
  label : String

namespace Predicate

def noSpace : Predicate where
  test next last := next.position.isAdjacentTo last
  failure next _ := .refused ("Unexpected space before " ++ next.render)
  label := "NoSpace"

def sameLine : Predicate where
  test next last := next.position.first.line == last.last.line
  failure next _ := .refused ("Unexpected newline before " ++ next.render)
  label := "SameLine"

/-- The next token starts on a later line, or the input ends. -/
def nextLine : Predicate where
  test next last := next.isEof || next.position.first.line > last.last.line
  failure next _ := .refused ("Expected newline before " ++ next.render)
  label := "NextLine"

def lookahead (spec : Spec) : Predicate where
  test next _ := spec.accepts next
  failure _ _ := .expected spec.render
  label := "Lookahead(" ++ spec.describe ++ ")"

def short (n : Nat) : Predicate where
  test next _ := next.value.utf8ByteSize ≤ n
  failure next _ := .refused (next.render ++ " is too long")
  label := s!"Short({n})"

def notValue (value : String) : Predicate where
  test next _ := next.value != value
  failure _ _ := .refused "failed predicate"
  label := "NotValue(" ++ Quoted.quote Quoted.described value ++ ")"

end Predicate

end Lockstep
