import Lockstep.Text.Source

set_option autoImplicit false

namespace Lockstep

structure Position where
  source : Source
  span : Span
  first : LineCol
  last : LineCol
  deriving DecidableEq, Inhabited

namespace Position

def ofSpan (source : Source) (span : Span) : Position :=
  ⟨source, span, source.lineCol span.start, source.lineCol span.stop⟩

def startOf (source : Source) : Position := ofSpan source (Span.point 0)

def detached : Position := startOf Source.blank

def upTo (p q : Position) : Position :=
  ⟨p.source, p.span.cover q.span, min p.first q.first, max p.last q.last⟩

def endPoint (p : Position) : Position := ⟨p.source, Span.point p.span.stop, p.last, p.last⟩

/-- The next `width` columns after `p`, which may lie past the end of the text. -/
def after (p : Position) (width : Nat) : Position :=
  ⟨p.source, Span.ofLength p.span.stop width, p.last, p.last.shifted width⟩

def isAdjacentTo (p previous : Position) : Bool := p.first == previous.last

/-- The column of the start, moved back to the end of its line if it lies beyond. -/
def caretColumn (p : Position) (line : List Char) : Nat := min p.first.column (Bytes.length line)

def caretLead (p : Position) (line : List Char) : List Char :=
  ((Bytes.take? (p.caretColumn line) line).getD line).map fun c => if c = '\t' then '\t' else ' '

/-- How many carets mark the span: its characters when it ends on the line where it starts, else
the bytes left on that line. -/
def caretWidth (p : Position) (line : List Char) : Nat :=
  let column := p.caretColumn line
  if p.last.line = p.first.line then
    let stop := max column (min p.last.column (Bytes.length line))
    ((Bytes.slice? column stop line).map List.length).getD 0
  else Bytes.length line - column

def excerpt (p : Position) : String :=
  let line := p.source.line p.first.line
  let carets := List.replicate (max (p.caretWidth line) 1) '^'
  String.ofList (line ++ '\n' :: p.caretLead line ++ carets)

def render (p : Position) : String := s!"{p.source.name}:{p.first.render}"

def describe (p : Position) : String := s!"{p.source.name}:{p.first.render}-{p.last.render}"

end Position

end Lockstep
