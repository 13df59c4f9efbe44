import Lockstep.Text.LineTable

set_option autoImplicit false

namespace Lockstep

structure Source where
  name : String
  text : String
  table : LineTable
  table_eq : table = LineTable.ofText text.toList

namespace Source

def ofText (name text : String) : Source := ⟨name, text, LineTable.ofText text.toList, rfl⟩

def blank : Source := ofText "" ""

instance : Inhabited Source := ⟨blank⟩

theorem ext {a b : Source} (name : a.name = b.name) (text : a.text = b.text) : a = b := by
  cases a with | mk aName aText aTable aEq =>
  cases b with | mk bName bText bTable bEq =>
  simp only at name text
  subst name text aEq bEq
  rfl

instance : DecidableEq Source := fun a b =>
  if same : a.name = b.name ∧ a.text = b.text then isTrue (ext same.1 same.2)
  else isFalse fun h => same ⟨congrArg name h, congrArg text h⟩

def chars (s : Source) : List Char := s.text.toList

def lineCol (s : Source) (o : Nat) : LineCol := s.table.lineCol o

def lineBounds? (s : Source) (line : Nat) : Option Span := s.table.lineBounds? s.chars line

def line (s : Source) (line : Nat) : List Char := ((s.table.line? s.chars line).map Prod.snd).getD []

/-- The bounds of `line`, if there is such a line. The call fails where `line` starts and cannot be
taken all the same: its end is looked for below a line that has no number below. -/
def checkedBounds? (s : Source) (line : Nat) : Option (Option Span) :=
  if (s.table.lineStart? line).isNone then some none else (s.lineBounds? line).map some

/-- The characters of `line`, none past the last line. The call fails where taking the bounds does,
and where one of them lies inside a character. -/
def checkedLine? (s : Source) (line : Nat) : Option (List Char) :=
  if (s.table.lineStart? line).isNone then some [] else (s.table.line? s.chars line).map Prod.snd

def describe (s : Source) : String := s!"<source {s.name}>"

end Source

end Lockstep
