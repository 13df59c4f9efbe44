import Lockstep.Token.Basic

set_option autoImplicit false

namespace Lockstep

inductive Datum where
  | null
  | bool (b : Bool)
  | integer (n : Int)
  | fractional
  | text (s : String)
  | array (items : List Datum)
  | object (fields : List (String × Datum))
  deriving Inhabited

namespace Datum

def offset? : Datum → Option Nat
  | .integer (.ofNat n) => if n ≤ Offset.limit then some n else none
  | _ => none

def pair? (first second : String) : Datum → Option (Nat × Nat)
  | .array [a, b] => a.offset?.bind fun a => b.offset?.map fun b => (a, b)
  | .object fields =>
    ((fields.lookup first).bind offset?).bind fun a =>
      ((fields.lookup second).bind offset?).map fun b => (a, b)
  | _ => none

def kind? : Datum → Option Kind
  | .text tag => Kind.all.find? fun kind => kind.tag == tag
  | .object [(tag, .null)] => Kind.all.find? fun kind => kind.tag == tag
  | _ => none

def span? (d : Datum) : Option Span := (d.pair? "start" "end").map fun (start, stop) => ⟨start, stop⟩

def lineCol? (d : Datum) : Option LineCol :=
  (d.pair? "line" "column").map fun (line, column) => ⟨line, column⟩

def ofOffset (n : Nat) : Datum := .integer n

def ofKind (kind : Kind) : Datum := .text kind.tag

def ofSpan (s : Span) : Datum := .object [("start", ofOffset s.start), ("end", ofOffset s.stop)]

def ofLineCol (p : LineCol) : Datum :=
  .object [("line", ofOffset p.line), ("column", ofOffset p.column)]

theorem kind?_ofKind (kind : Kind) : (ofKind kind).kind? = some kind := by
  cases kind <;> rfl

end Datum

end Lockstep
