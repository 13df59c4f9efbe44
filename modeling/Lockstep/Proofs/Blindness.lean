import Lockstep.Proofs.Compaction
import Lockstep.Proofs.Proper

set_option autoImplicit false

namespace Lockstep

namespace Token

def unplaced (t : Token) : Token := { t with position := .detached }

variable {t t' : Token} (same : t.unplaced = t'.unplaced)
include same

theorem kind_of_unplaced : t.kind = t'.kind := by
  have kinds := congrArg kind same
  exact kinds

theorem value_of_unplaced : t.value = t'.value := by
  have values := congrArg value same
  exact values

theorem isEof_of_unplaced : t.isEof = t'.isEof := by rw [isEof, isEof, kind_of_unplaced same]

theorem render_of_unplaced : t.render = t'.render := by
  rw [render, render, isEof_of_unplaced same, kind_of_unplaced same, value_of_unplaced same]

theorem accepts_of_unplaced (spec : Spec) : spec.accepts t = spec.accepts t' := by
  rw [Spec.accepts, Spec.accepts, kind_of_unplaced same, value_of_unplaced same]

end Token

namespace Capture

mutual

def unplaced : Capture → Capture
  | .token t => .token t.unplaced
  | .empty _ => .empty .detached
  | .list _ items => .list .detached (unplacedAll items)
  | .node tag _ parts => .node tag .detached (unplacedAll parts)

def unplacedAll : List Capture → List Capture
  | [] => []
  | c :: cs => unplaced c :: unplacedAll cs

end

theorem unplacedAll_eq_map (cs : List Capture) : unplacedAll cs = cs.map unplaced := by
  induction cs with
  | nil => rfl
  | cons c cs ih => rw [unplacedAll, ih, List.map_cons]

theorem unplaced_list (p : Position) (items : List Capture) :
    (list p items).unplaced = .list .detached (items.map unplaced) := by
  rw [unplaced, unplacedAll_eq_map]

theorem unplaced_ofItems? (items : List Capture) :
    (ofItems? items).map unplaced =
      if items.map unplaced = [] then none else some (.list .detached (items.map unplaced)) := by
  cases items with
  | nil => rfl
  | cons c cs =>
    rw [if_neg (by exact List.cons_ne_nil _ _), ofItems?, span?, Option.map_some, Option.map_some,
      unplaced_list]

theorem items?_unplaced (c : Capture) : c.unplaced.items? = c.items?.map (List.map unplaced) := by
  cases c with
  | list p items => rw [unplaced_list]; rfl
  | _ => rfl

end Capture

open Capture (unplaced)

namespace Combiner

/-- Equal captures, positions erased, are combined to equal captures. -/
def Blind (build : Combiner) : Prop :=
  ∀ parts parts' : List Capture, parts.map unplaced = parts'.map unplaced →
    (build parts).unplaced = (build parts').unplaced

theorem unplaced_fallback (parts : List Capture) :
    (fallback parts).unplaced = .empty .detached := by
  cases parts <;> rfl

theorem unplaced_getD_fallback (c? : Option Capture) (parts : List Capture) :
    (c?.getD (fallback parts)).unplaced = (c?.map unplaced).getD (.empty .detached) := by
  cases c? with
  | none => exact unplaced_fallback parts
  | some c => rfl

theorem blind_nth (index : Nat) : (nth index).Blind := by
  intro parts parts' same
  rw [nth, nth, unplaced_getD_fallback, unplaced_getD_fallback, ← List.getElem?_map, same,
    List.getElem?_map]

theorem blind_listOf : listOf.Blind := by
  intro parts parts' same
  rw [listOf, listOf, unplaced_getD_fallback, unplaced_getD_fallback, Capture.unplaced_ofItems?,
    Capture.unplaced_ofItems?, same]

theorem unplaced_cons (head tail : Nat) (parts : List Capture) :
    (cons head tail parts).unplaced =
      match (parts.map unplaced)[head]? with
      | some first =>
        .list .detached (first :: ((parts.map unplaced)[tail]?.bind Capture.items?).getD [])
      | none => .empty .detached := by
  rw [List.getElem?_map, List.getElem?_map]
  unfold cons
  cases parts[head]? with
  | none => exact unplaced_fallback parts
  | some first =>
    cases parts[tail]? with
    | none => rfl
    | some last =>
      rw [Option.map_some, Option.map_some, Option.bind_some, Capture.items?_unplaced]
      cases last with
      | list p items =>
        simp only [Capture.prepend, Capture.unplaced_list, List.map_cons]
        rfl
      | _ => rfl

theorem blind_cons (head tail : Nat) : (cons head tail).Blind := by
  intro parts parts' same
  rw [unplaced_cons, unplaced_cons, same]

def IsPlain (build : Combiner) : Prop := build = listOf ∨ ∃ index, build = nth index

theorem IsPlain.blind {build : Combiner} (h : build.IsPlain) : build.Blind := by
  rcases h with rfl | ⟨index, rfl⟩
  · exact blind_listOf
  · exact blind_nth index

theorem blind_emptyList : emptyList.Blind := by
  intro parts parts' same
  cases parts with
  | nil =>
    rw [List.map_nil] at same
    rw [List.map_eq_nil_iff.mp same.symm]
  | cons c cs =>
    cases parts' with
    | nil => cases same
    | cons c' cs' => rfl

end Combiner

def Diagnostic.unplaced (d : Diagnostic) : Diagnostic := { d with position := .detached }

def LexError.unplaced (e : LexError) : LexError := { e with position := .detached }

def ParseError.unplaced : ParseError → ParseError
  | .rejected diagnostics => .rejected (diagnostics.map Diagnostic.unplaced)
  | .lexical e => .lexical e.unplaced
  | .threadLimit limit _ => .threadLimit limit .detached
  | .expansionLimit limit _ => .expansionLimit limit .detached
  | .ambiguous results => .ambiguous (results.map Capture.unplaced)
  | .unknownPattern name => .unknownPattern name
  | .noEntryPattern => .noEntryPattern

namespace Failure

variable {token token' : Token} (same : token.unplaced = token'.unplaced)
include same

theorem groupMessages_of_unplaced (causes : List Cause) :
    groupMessages token causes = groupMessages token' causes := by
  have expected : ∀ many, expectation token many = expectation token' many := by
    intro many
    unfold expectation
    rw [Token.render_of_unplaced same]
  rw [groupMessages, groupMessages, expected]

/-- Failures are reported by the same messages at tokens of one kind and value. -/
theorem report_of_unplaced (failures : List Failure) :
    (report failures token).map Diagnostic.unplaced =
      (report failures token').map Diagnostic.unplaced := by
  simp only [report, List.map_flatMap, List.map_map, groupMessages_of_unplaced same]
  rfl

end Failure

namespace Predicate

/-- Tokens of one kind and value are treated alike, wherever they and the last one lie. -/
def Blind (guard : Predicate) : Prop :=
  ∀ (token token' : Token) (last last' : Position), token.unplaced = token'.unplaced →
    guard.test token last = guard.test token' last' ∧
      guard.failure token last = guard.failure token' last'

def IsLookahead (guard : Predicate) : Prop := ∃ spec, guard = lookahead spec

theorem IsLookahead.blind {guard : Predicate} (h : guard.IsLookahead) : guard.Blind := by
  obtain ⟨spec, rfl⟩ := h
  intro token token' last last' same
  exact ⟨Token.accepts_of_unplaced same spec, rfl⟩

end Predicate

/-- All predicates are lookaheads, and all sequences make a list of their parts or pick one. -/
inductive Pattern.Plain : Pattern → Prop where
  | token {spec : Spec} {guards : List Predicate} (lookaheads : ∀ p ∈ guards, p.IsLookahead) :
    Plain (.token spec guards)
  | nothing {guards : List Predicate} (lookaheads : ∀ p ∈ guards, p.IsLookahead) :
    Plain (.nothing guards)
  | sequence {mark : Nat} {name? : Option String} {parts : List Pattern} {build : Combiner}
      {guards : List Predicate} (lookaheads : ∀ p ∈ guards, p.IsLookahead)
      (builds : build.IsPlain) (all : ∀ p ∈ parts, Plain p) :
    Plain (.sequence mark name? parts build guards)
  | branch {options : List Pattern} {guards : List Predicate}
      (lookaheads : ∀ p ∈ guards, p.IsLookahead) (all : ∀ p ∈ options, Plain p) :
    Plain (.branch options guards)
  | reference {name : String} {guards : List Predicate}
      (lookaheads : ∀ p ∈ guards, p.IsLookahead) :
    Plain (.reference name guards)
  | optional {inner : Pattern} {absent? : Option Combiner} {guards : List Predicate}
      (lookaheads : ∀ p ∈ guards, p.IsLookahead) (plain : Plain inner)
      (builds : ∀ build, absent? = some build → build.IsPlain) :
    Plain (.optional inner absent? guards)
  | list {item : Pattern} {separator? : Option Pattern} {guards : List Predicate}
      (lookaheads : ∀ p ∈ guards, p.IsLookahead) (plain : Plain item)
      (separated : ∀ p, separator? = some p → Plain p) :
    Plain (.list item separator? guards)

inductive Matcher.Blind : Matcher → Prop where
  | token {spec : Spec} {guards : List Predicate} (blind : ∀ p ∈ guards, p.Blind) :
    Blind (.token spec guards)
  | nothing {guards : List Predicate} (blind : ∀ p ∈ guards, p.Blind) : Blind (.nothing guards)
  | sequence {name? : Option String} {parts : List Matcher} {build : Combiner}
      {guards : List Predicate} (blind : ∀ p ∈ guards, p.Blind) (builds : build.Blind)
      (all : ∀ m ∈ parts, Blind m) :
    Blind (.sequence name? parts build guards)
  | branch {options : List Matcher} {guards : List Predicate} (blind : ∀ p ∈ guards, p.Blind)
      (all : ∀ m ∈ options, Blind m) :
    Blind (.branch options guards)
  | rule {name : String} {guards : List Predicate} (blind : ∀ p ∈ guards, p.Blind) :
    Blind (.rule name guards)
  | list {item : Matcher} {separator? : Option Matcher} {guards : List Predicate}
      (blind : ∀ p ∈ guards, p.Blind) (plain : Blind item)
      (separated : ∀ s, separator? = some s → Blind s) :
    Blind (.list item separator? guards)
  | tail {item : Matcher} {separator? : Option Matcher} {guards : List Predicate}
      (blind : ∀ p ∈ guards, p.Blind) (plain : Blind item)
      (separated : ∀ s, separator? = some s → Blind s) :
    Blind (.tail item separator? guards)

namespace Matcher

theorem Blind.guards {m : Matcher} (h : m.Blind) : ∀ p ∈ m.guards, p.Blind := by
  cases h <;> assumption

theorem blind_guards {guards : List Predicate} (h : ∀ p ∈ guards, p.IsLookahead) :
    ∀ p ∈ guards, p.Blind :=
  fun p mem => (h p mem).blind

theorem blind_unguarded : ∀ p ∈ ([] : List Predicate), p.Blind :=
  fun _ mem => absurd mem List.not_mem_nil

theorem blind_lowerAll {ps : List Pattern} (all : ∀ p ∈ ps, (lower p).Blind) :
    ∀ m ∈ lowerAll ps, m.Blind := by
  rw [lowerAll_eq_map]
  intro m mem
  obtain ⟨p, here, rfl⟩ := List.mem_map.mp mem
  exact all p here

theorem blind_sequence {parts : List Matcher} {build : Combiner} (builds : build.Blind)
    (all : ∀ m ∈ parts, m.Blind) : (sequence none parts build []).Blind :=
  .sequence blind_unguarded builds all

theorem blind_either {m n : Matcher} {guards : List Predicate} (blind : ∀ p ∈ guards, p.Blind)
    (first : m.Blind) (second : n.Blind) : (branch [m, n] guards).Blind := by
  refine .branch blind ?_
  simp only [List.forall_mem_cons]
  exact ⟨first, second, fun _ mem => absurd mem List.not_mem_nil⟩

theorem blind_marker {build : Combiner} (builds : build.Blind) :
    (sequence none [.nothing []] build []).Blind := by
  refine blind_sequence builds ?_
  simp only [List.forall_mem_cons]
  exact ⟨.nothing blind_unguarded, fun _ mem => absurd mem List.not_mem_nil⟩

theorem blind_absent {absent? : Option Combiner}
    (builds : ∀ build, absent? = some build → build.IsPlain) : (absent absent?).Blind := by
  cases absent? with
  | none => exact .nothing blind_unguarded
  | some build => exact blind_marker (builds build rfl).blind

theorem blind_lower {p : Pattern} (h : p.Plain) : (lower p).Blind := by
  induction h with
  | token lookaheads => exact .token (blind_guards lookaheads)
  | nothing lookaheads => exact .nothing (blind_guards lookaheads)
  | sequence lookaheads builds _ ih =>
    exact .sequence (blind_guards lookaheads) builds.blind (blind_lowerAll ih)
  | branch lookaheads _ ih => exact .branch (blind_guards lookaheads) (blind_lowerAll ih)
  | reference lookaheads => exact .rule (blind_guards lookaheads)
  | optional lookaheads _ builds ih =>
    exact blind_either (blind_guards lookaheads) ih (blind_absent builds)
  | list lookaheads _ _ ih ihs =>
    refine .list (blind_guards lookaheads) ih ?_
    rw [lowerSome_eq_map]
    intro s same
    obtain ⟨p, found, rfl⟩ := Option.map_eq_some_iff.mp same
    exact ihs p found

theorem blind_noItems : noItems.Blind := blind_marker Combiner.blind_emptyList

theorem blind_unfold {g : Grammar} {m m' : Matcher}
    (rules : ∀ name p, g.lookup? name = some p → p.Plain) (h : m.Blind)
    (unfolds : g.unfold m = .ok m') : m'.Blind := by
  have whole := h
  cases h with
  | @rule name guards blind =>
    cases found : g.lookup? name with
    | none => simp only [Grammar.unfold, found] at unfolds; cases unfolds
    | some p =>
      simp only [Grammar.unfold, found] at unfolds
      cases unfolds
      exact blind_lower (rules name p found)
  | @list item separator? guards blind plain separated =>
    cases separator? with
    | none =>
      cases unfolds
      have more : (Matcher.list item none []).Blind := .list blind_unguarded plain separated
      refine blind_either blind_unguarded ?_ blind_noItems
      exact blind_sequence (Combiner.blind_cons 0 1) (by simpa using ⟨plain, more⟩)
    | some separator =>
      cases unfolds
      have rest : (Matcher.tail item (some separator) []).Blind :=
        .tail blind_unguarded plain separated
      exact blind_sequence (Combiner.blind_cons 0 1) (by simpa using ⟨plain, rest⟩)
  | @tail item separator? guards blind plain separated =>
    cases separator? with
    | none => cases unfolds; exact blind_noItems
    | some separator =>
      cases unfolds
      have rest : (Matcher.tail item (some separator) []).Blind :=
        .tail blind_unguarded plain separated
      refine blind_either blind_unguarded ?_ blind_noItems
      exact blind_sequence (Combiner.blind_cons 1 2)
        (by simpa using ⟨separated separator rfl, plain, rest⟩)
  | _ => cases unfolds; exact whole

end Matcher

end Lockstep
