import Lockstep.Grammar.Builder

set_option autoImplicit false

namespace Lockstep

inductive Expr where
  | token (spec : Spec)
  | keyword (word : String)
  | operator (text : String)
  | nothing
  | optional (inner : Expr) (absent? : Option Combiner)
  | list (item : Expr) (separator? : Option Expr)
  | sequence (build : Combiner) (parts : List Expr)
  | namedSequence (name : String) (build : Combiner) (parts : List Expr)
  | oneOf (options : List Expr)
  | reference (name : String)
  | guarded (inner : Expr) (guards : List Predicate)
  | define (name : String) (inner : Expr)
  | register (name : String) (inner : Expr)

namespace Expr

mutual

def build : Expr → Builder → Pattern × Builder
  | .token spec, b => b.token spec
  | .keyword word, b => b.keyword word
  | .operator text, b => b.operator text
  | .nothing, b => b.nothing
  | .optional inner absent?, b =>
    let (p, b) := inner.build b
    b.optional p absent?
  | .list item separator?, b =>
    let (p, b) := item.build b
    let (s?, b) := buildSome separator? b
    b.list p s?
  | .sequence combiner parts, b =>
    let (ps, b) := buildAll parts b
    b.sequence none combiner ps
  | .namedSequence name combiner parts, b =>
    let (ps, b) := buildAll parts b
    b.namedSequence name combiner ps
  | .oneOf options, b =>
    let (ps, b) := buildAll options b
    b.oneOf ps
  | .reference name, b => b.reference name
  | .guarded inner guards, b =>
    guards.foldl (fun (p, b) guard => b.guarded p guard) (inner.build b)
  | .define name inner, b =>
    let (p, b) := inner.build b
    b.define name p
  | .register name inner, b =>
    let (p, b) := inner.build b
    b.register name p

def buildSome : Option Expr → Builder → Option Pattern × Builder
  | none, b => (none, b)
  | some e, b =>
    let (p, b) := e.build b
    (some p, b)

def buildAll : List Expr → Builder → List Pattern × Builder
  | [], b => ([], b)
  | e :: es, b =>
    let (p, b) := e.build b
    let (ps, b) := buildAll es b
    (p :: ps, b)

end

end Expr

inductive Statement where
  | setMain (name : String)
  | pattern (e : Expr)

namespace Statement

def run : Statement → Builder → Option Pattern × Builder
  | .setMain name, b => (none, b.setMain name)
  | .pattern e, b =>
    let (p, b) := e.build b
    (some p, b)

end Statement

def Grammar.ofScript (script : List Statement) : Except GrammarError Grammar :=
  (script.foldl (fun b statement => (statement.run b).2) Builder.empty).grammar

end Lockstep
