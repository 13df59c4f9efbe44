import Lockstep.Grammar.Basic

set_option autoImplicit false

/-!
Building a grammar. Every operation makes a pattern and may leave something behind in the builder:
a definition, a mention of a name, a keyword, or a defect. Defects do not stop the work; the first
of them is what `Builder.grammar` reports.
-/

namespace Lockstep

structure Builder where
  names : List String := []
  rules : List (String × Pattern) := []
  referenced : List String := []
  keywords : List String := []
  main? : Option String := none
  defects : List GrammarError := []
  nextMark : Nat := 0

namespace Builder

def empty : Builder := {}

def mention (b : Builder) (name : String) : Builder :=
  if b.names.contains name then b else { b with names := b.names ++ [name] }

def defect (b : Builder) (e : GrammarError) : Builder := { b with defects := b.defects ++ [e] }

def lookup? (b : Builder) (name : String) : Option Pattern := b.rules.lookup name

def token (b : Builder) (spec : Spec) : Pattern × Builder := (.token spec [], b)

def keyword (b : Builder) (word : String) : Pattern × Builder :=
  (.token ⟨.keyword, some word⟩ [],
    if b.keywords.contains word then b else { b with keywords := b.keywords ++ [word] })

def nothing (b : Builder) : Pattern × Builder := (.nothing [], b)

def sequence (b : Builder) (name? : Option String) (build : Combiner) (parts : List Pattern) :
    Pattern × Builder :=
  if parts.isEmpty then (.nothing [], b.defect (.emptySequence name?))
  else (.sequence b.nextMark name? parts build [], { b with nextMark := b.nextMark + 1 })

def guarded (b : Builder) (pattern : Pattern) (guard : Predicate) : Pattern × Builder :=
  (pattern.guarded b.nextMark guard, { b with nextMark := b.nextMark + 1 })

/-- The symbol `c`; `glued` when it has to follow the last token without a space. -/
def operatorPart (glued : Bool) (c : Char) : Pattern :=
  .token ⟨.symbol, some c.toString⟩ (if glued then [.noSpace] else [])

def operator (b : Builder) (text : String) : Pattern × Builder :=
  match text.toList with
  | [] => (.nothing [], b.defect (.emptySequence none))
  | [c] => (operatorPart false c, b)
  | c :: cs =>
    b.sequence none (.joinedSymbol text) (operatorPart false c :: cs.map (operatorPart true))

def optional (b : Builder) (inner : Pattern) (absent? : Option Combiner) : Pattern × Builder :=
  (.optional inner absent? [], b)

def list (b : Builder) (item : Pattern) (separator? : Option Pattern) : Pattern × Builder :=
  (.list item separator? [], b)

def oneOf (b : Builder) (options : List Pattern) : Pattern × Builder :=
  if options.isEmpty then (.nothing [], b.defect .emptyChoice) else (.branch options [], b)

def reference (b : Builder) (name : String) : Pattern × Builder :=
  let b := b.mention name
  (.reference name [], { b with referenced := b.referenced ++ [name] })

def register (b : Builder) (name : String) (pattern : Pattern) : Pattern × Builder :=
  let b := b.mention name
  (pattern,
    if (b.lookup? name).isSome then b.defect (.redefinition name)
    else { b with rules := b.rules ++ [(name, pattern)] })

def namedSequence (b : Builder) (name : String) (build : Combiner) (parts : List Pattern) :
    Pattern × Builder :=
  let (pattern, b) := b.sequence (some name) build parts
  b.register name pattern

/-- `pattern` as a named sequence: a named one stays as it is, a nameless one takes the name, and
anything else becomes the only part. -/
def named (b : Builder) (name : String) : Pattern → Pattern × Builder
  | .sequence mark (some own) parts build guards => (.sequence mark (some own) parts build guards, b)
  | .sequence _ none parts build guards =>
    (.sequence b.nextMark (some name) parts build guards, { b with nextMark := b.nextMark + 1 })
  | pattern =>
    (.sequence b.nextMark (some name) [pattern] (.nth 0) [], { b with nextMark := b.nextMark + 1 })

def define (b : Builder) (name : String) (pattern : Pattern) : Pattern × Builder :=
  let (pattern, b) := b.named name pattern
  b.register name pattern

def setMain (b : Builder) (name : String) : Builder := { b.mention name with main? := some name }

def defaultMain : String := "main"

def mainPattern? (b : Builder) : Option Pattern := b.lookup? (b.main?.getD defaultMain)

/-- Looking the name of `pattern` up gives `pattern` itself; nothing to say when it has no name or
the name no rule. -/
def isRegistered? (b : Builder) (pattern : Pattern) : Option Bool :=
  (pattern.name?.bind b.lookup?).map fun found => found.mark? == pattern.mark?

/-- The finished grammar, or what is wrong with it: the first defect, else the first reference to
a name without a rule, else an unknown start. -/
def grammar (b : Builder) : Except GrammarError Grammar :=
  match b.defects, b.referenced.find? fun name => (b.lookup? name).isNone, b.main? with
  | e :: _, _, _ => .error e
  | [], some name, _ => .error (.undefinedRule name)
  | [], none, some name =>
    if (b.lookup? name).isSome then .ok ⟨b.names, b.rules, b.keywords, some name⟩
    else .error (.unknownMain name)
  | [], none, none =>
    .ok ⟨b.names, b.rules, b.keywords, (b.lookup? defaultMain).map fun _ => defaultMain⟩

end Builder

end Lockstep
