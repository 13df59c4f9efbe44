import Lockstep.Text.Position
import Lockstep.Text.Quoted

set_option autoImplicit false

namespace Lockstep

inductive Kind where
  | word
  | keyword
  | string
  | integer
  | float
  | symbol
  | eof
  deriving DecidableEq, Repr, Inhabited

namespace Kind

def all : List Kind := [.word, .keyword, .string, .integer, .float, .symbol, .eof]

def name : Kind → String
  | .word => "Word"
  | .keyword => "Keyword"
  | .string => "String"
  | .integer => "Integer"
  | .float => "Float"
  | .symbol => "Symbol"
  | .eof => "EOF"

def tag : Kind → String
  | .eof => "Eof"
  | kind => kind.name

/-- A token of kind `given` may stand where one of kind `wanted` is asked for. -/
def castsTo (given wanted : Kind) : Bool :=
  given == wanted || (given == .integer && wanted == .float)

end Kind

/-- A piece of input with its kind; the value of a string is its unescaped content. -/
structure Token where
  kind : Kind
  value : String
  position : Position
  deriving DecidableEq, Inhabited

namespace Token

def eof (position : Position) : Token := ⟨.eof, "", position⟩

def isEof (t : Token) : Bool := t.kind == .eof

def render (t : Token) : String :=
  if t.isEof then "<EOF>" else t.kind.name ++ " " ++ Quoted.quote Quoted.literal t.value

def describe (t : Token) : String :=
  "Token \x7b kind: " ++ t.kind.tag ++ ", value: " ++ Quoted.quote Quoted.described t.value ++
    ", position: " ++ t.position.describe ++ " \x7d"

end Token

structure Spec where
  kind : Kind
  value? : Option String := none
  deriving DecidableEq, Repr, Inhabited

namespace Spec

def accepts (s : Spec) (t : Token) : Bool :=
  t.kind.castsTo s.kind && s.value?.all (· == t.value)

def render (s : Spec) : String :=
  match s.value? with
  | some value => s.kind.name ++ " \"" ++ value ++ "\""
  | none => s.kind.name

def describe (s : Spec) : String :=
  "TokenSpec \x7b kind: " ++ s.kind.tag ++ ", value: " ++ Quoted.describeOption s.value? ++ " \x7d"

end Spec

end Lockstep
