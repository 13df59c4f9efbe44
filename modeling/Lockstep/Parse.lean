import Lockstep.Engine.Parser

set_option autoImplicit false

namespace Lockstep

namespace Grammar

/-- The pattern called `name?`, or the one to start from. -/
def entry (g : Grammar) : Option String → Except ParseError Pattern
  | some name =>
    match g.lookup? name with
    | some pattern => .ok pattern
    | none => .error (.unknownPattern name)
  | none =>
    match g.mainPattern? with
    | some pattern => .ok pattern
    | none => .error .noEntryPattern

def parse {σ : Type} [TokenSource σ] (g : Grammar) (name? : Option String) (tokens : σ)
    (limits : Limits) : Except ParseError (List Capture) :=
  match g.entry name? with
  | .error e => .error e
  | .ok pattern =>
    let parser := (Parser.ofGrammar g limits).setup pattern (TokenSource.start tokens)
    match parser.parse tokens with
    | (some e, _, _) => .error e
    | (none, parser, _) =>
      if parser.hasError then .error (.rejected parser.diagnostics) else .ok parser.results.toList

def single : List Capture → Except ParseError Capture
  | [] => .error (.rejected [])
  | [result] => .ok result
  | results => .error (.ambiguous results)

def parseSingle {σ : Type} [TokenSource σ] (g : Grammar) (name? : Option String) (tokens : σ)
    (limits : Limits) : Except ParseError Capture :=
  (g.parse name? tokens limits).bind single

def parseSource (g : Grammar) (source : Source) (limits : Limits) :
    Except ParseError (List Capture) :=
  g.parse none (Tokenizer.ofSource source g.keywords) limits

def parseSourceSingle (g : Grammar) (source : Source) (limits : Limits) :
    Except ParseError Capture :=
  (g.parseSource source limits).bind single

end Grammar

end Lockstep
