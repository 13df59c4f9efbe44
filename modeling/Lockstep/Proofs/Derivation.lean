import Lockstep.Matcher.Basic

set_option autoImplicit false

/-!
Derivations of a matcher, told apart by the options they take at branches. A derivation goes through
the input from one cursor to another. The guards of all that it passes have to hold for the next
token, which is the end marker when all others are taken; the marker itself can be taken once, and
leaves the place of the last token as it is.
-/

namespace Lockstep

/-- The indices of the options that a derivation takes, in the order in which it meets the
branches. -/
abbrev Choices := List Nat

structure Cursor where
  /-- The place of the last token taken, end markers apart; at first the start. -/
  last : Position
  pending : List Predicate
  rest : List Token

namespace Cursor

def visit (c : Cursor) (guards : List Predicate) : Cursor :=
  { c with pending := c.pending ++ guards }

def marker (c : Cursor) : Capture := .empty c.last.endPoint

def admits (c : Cursor) (token : Token) : Bool :=
  c.pending.all fun guard => guard.test token c.last.endPoint

def take (c : Cursor) (token : Token) (rest : List Token) : Cursor :=
  ⟨if token.isEof then c.last else token.position, [], rest⟩

end Cursor

namespace Matcher

def isDeferred : Matcher → Bool
  | .rule _ _ => true
  | .list _ _ _ => true
  | .tail _ _ _ => true
  | _ => false

end Matcher

namespace Grammar

mutual

/-- The derivation of a matcher that makes the given choices leads from one cursor to the other and
yields the capture. -/
inductive Derives (g : Grammar) : Matcher → Cursor → Choices → Cursor → Capture → Prop where
  | token {spec : Spec} {guards : List Predicate} {c : Cursor} {token : Token} {rest : List Token}
      (next : c.rest = token :: rest) (accepts : spec.accepts token = true)
      (admitted : (c.visit guards).admits token = true) :
    g.Derives (.token spec guards) c [] ((c.visit guards).take token rest) (.token token)
  | nothing {guards : List Predicate} {c : Cursor} :
    g.Derives (.nothing guards) c [] (c.visit guards) c.marker
  | sequence {name? : Option String} {parts : List Matcher} {build : Combiner}
      {guards : List Predicate} {c c' : Cursor} {w : Choices} {captures : List Capture}
      (all : g.DerivesAll parts (c.visit guards) w c' captures) :
    g.Derives (.sequence name? parts build guards) c w c' (build captures)
  | branch {options : List Matcher} {guards : List Predicate} {c c' : Cursor} {i : Nat}
      {m : Matcher} {w : Choices} {capture : Capture} (option : options[i]? = some m)
      (derives : g.Derives m (c.visit guards) w c' capture) :
    g.Derives (.branch options guards) c (i :: w) c' capture
  | deferred {m m' : Matcher} {c c' : Cursor} {w : Choices} {capture : Capture}
      (defers : m.isDeferred = true) (unfolds : g.unfold m = .ok m')
      (derives : g.Derives m' (c.visit m.guards) w c' capture) :
    g.Derives m c w c' capture

inductive DerivesAll (g : Grammar) :
    List Matcher → Cursor → Choices → Cursor → List Capture → Prop where
  | nil {c : Cursor} : g.DerivesAll [] c [] c []
  | cons {m : Matcher} {ms : List Matcher} {c d e : Cursor} {u v : Choices} {capture : Capture}
      {captures : List Capture} (head : g.Derives m c u d capture)
      (tail : g.DerivesAll ms d v e captures) :
    g.DerivesAll (m :: ms) c (u ++ v) e (capture :: captures)

end

def endMarker (last : Position) : Token := .eof (last.endPoint.after 1)

def lastPlace (start : Position) : List Token → Position
  | [] => start
  | token :: tokens => lastPlace (if token.isEof then start else token.position) tokens

/-- The derivation of `pattern` that makes the choices `w` takes all of `tokens` and, if it is
`marked`, the end marker `eof` after them. No guard that it meets fails, and it yields `capture`. -/
def Completes (g : Grammar) (pattern : Pattern) (start : Position) (tokens : List Token)
    (eof : Token) (marked : Bool) (w : Choices) (capture : Capture) : Prop :=
  ∃ c : Cursor, g.Derives (.lower pattern) ⟨start, [], tokens ++ [eof]⟩ w c capture ∧
    c.rest = (if marked then [] else [eof]) ∧ c.admits eof = true

variable {g : Grammar} {c c' : Cursor} {w : Choices} {capture : Capture}

theorem derives_nothing_iff {guards : List Predicate} :
    g.Derives (.nothing guards) c w c' capture ↔
      w = [] ∧ c' = c.visit guards ∧ capture = c.marker := by
  constructor
  · intro h
    cases h with
    | nothing => exact ⟨rfl, rfl, rfl⟩
    | deferred defers => cases defers
  · rintro ⟨rfl, rfl, rfl⟩
    exact .nothing

theorem derives_sequence_iff {name? : Option String} {parts : List Matcher} {build : Combiner}
    {guards : List Predicate} :
    g.Derives (.sequence name? parts build guards) c w c' capture ↔
      ∃ captures, g.DerivesAll parts (c.visit guards) w c' captures ∧ capture = build captures := by
  constructor
  · intro h
    cases h with
    | sequence all => exact ⟨_, all, rfl⟩
    | deferred defers => cases defers
  · rintro ⟨captures, all, rfl⟩
    exact .sequence all

theorem derives_branch_iff {options : List Matcher} {guards : List Predicate} :
    g.Derives (.branch options guards) c w c' capture ↔
      ∃ i m u, options[i]? = some m ∧ w = i :: u ∧
        g.Derives m (c.visit guards) u c' capture := by
  constructor
  · intro h
    cases h with
    | branch option derives => exact ⟨_, _, _, option, rfl, derives⟩
    | deferred defers => cases defers
  · rintro ⟨i, m, u, option, rfl, derives⟩
    exact .branch option derives

theorem derives_deferred_iff {m m' : Matcher} (defers : m.isDeferred = true)
    (unfolds : g.unfold m = .ok m') :
    g.Derives m c w c' capture ↔ g.Derives m' (c.visit m.guards) w c' capture := by
  constructor
  · intro h
    cases h with
    | deferred _ unfolds' derives =>
      rw [unfolds] at unfolds'
      cases unfolds'
      exact derives
    | token => cases defers
    | nothing => cases defers
    | sequence => cases defers
    | branch => cases defers
  · intro derives
    exact .deferred defers unfolds derives

theorem derivesAll_nil_iff {captures : List Capture} :
    g.DerivesAll [] c w c' captures ↔ w = [] ∧ c' = c ∧ captures = [] := by
  constructor
  · intro h
    cases h
    exact ⟨rfl, rfl, rfl⟩
  · rintro ⟨rfl, rfl, rfl⟩
    exact .nil

theorem derivesAll_cons_iff {m : Matcher} {ms : List Matcher} {captures : List Capture} :
    g.DerivesAll (m :: ms) c w c' captures ↔
      ∃ d u v first later, w = u ++ v ∧ captures = first :: later ∧ g.Derives m c u d first ∧
        g.DerivesAll ms d v c' later := by
  constructor
  · intro h
    cases h with
    | cons head tail => exact ⟨_, _, _, _, _, rfl, rfl, head, tail⟩
  · rintro ⟨d, u, v, first, later, rfl, rfl, head, tail⟩
    exact .cons head tail

theorem derivesAll_singleton_iff {m : Matcher} {captures : List Capture} :
    g.DerivesAll [m] c w c' captures ↔
      ∃ only, captures = [only] ∧ g.Derives m c w c' only := by
  constructor
  · intro h
    obtain ⟨d, u, v, first, later, rfl, rfl, head, tail⟩ := derivesAll_cons_iff.mp h
    obtain ⟨rfl, rfl, rfl⟩ := derivesAll_nil_iff.mp tail
    rw [List.append_nil]
    exact ⟨first, rfl, head⟩
  · rintro ⟨only, rfl, derives⟩
    rw [← List.append_nil w]
    exact .cons derives .nil

theorem length_of_derivesAll {ms : List Matcher} {captures : List Capture}
    (all : g.DerivesAll ms c w c' captures) : captures.length = ms.length := by
  induction ms generalizing c w captures with
  | nil =>
    obtain ⟨-, -, rfl⟩ := derivesAll_nil_iff.mp all
    rfl
  | cons m ms ih =>
    obtain ⟨d, u, v, first, later, -, rfl, -, tail⟩ := derivesAll_cons_iff.mp all
    rw [List.length_cons, ih tail, List.length_cons]

theorem visit_nil (c : Cursor) : c.visit [] = c := by
  simp only [Cursor.visit, List.append_nil]

end Grammar

end Lockstep
