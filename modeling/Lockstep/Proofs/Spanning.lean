import Lockstep.Proofs.Proper
import Lockstep.Proofs.Reachable
import Lockstep.Proofs.Tokenizing

set_option autoImplicit false

namespace Lockstep

namespace Combiner

/-- Combines so many captures to one that reaches from the first of them to the last. -/
inductive Spans : Combiner → Nat → Prop where
  | listOf {n : Nat} : Spans listOf n
  | joinedSymbol (text : String) {n : Nat} : Spans (joinedSymbol text) n
  | only : Spans (nth 0) 1

theorem Spans.span_eq {build : Combiner} {n : Nat} (h : build.Spans n) {c : Capture}
    {cs : List Capture} (size : (c :: cs).length = n) :
    (build (c :: cs)).position.span =
      c.position.span.cover ((c :: cs).getLast (List.cons_ne_nil c cs)).position.span := by
  cases h with
  | listOf => rfl
  | joinedSymbol => rfl
  | only =>
    rw [List.length_cons, Nat.add_eq_right, List.length_eq_zero_iff] at size
    subst size
    exact (Span.cover_self _).symm

end Combiner

/-- The tokens come one after the other, the first of them not before `last` ends. -/
def InOrder : (last : Position) → List Token → Prop
  | _, [] => True
  | last, token :: tokens =>
    last.span.stop ≤ token.position.span.start ∧
      token.position.span.start ≤ token.position.span.stop ∧
      InOrder (if token.isEof then last else token.position) tokens

open Grammar (lastPlace)

namespace InOrder

variable {last : Position} {tokens : List Token}

theorem front {more : List Token} (h : InOrder last (tokens ++ more)) : InOrder last tokens := by
  induction tokens generalizing last with
  | nil => trivial
  | cons token tokens ih => exact ⟨h.1, h.2.1, ih h.2.2⟩

/-- Tokens in order lie between the start of the first and the end of the last of them. -/
theorem bounds (h : InOrder last tokens) (plain : ∀ token ∈ tokens, token.isEof = false) :
    last.span.stop ≤ (lastPlace last tokens).span.stop ∧ ∀ token ∈ tokens,
      last.span.stop ≤ token.position.span.start ∧
        (∀ first, tokens.head? = some first →
          first.position.span.start ≤ token.position.span.start) ∧
        token.position.span.stop ≤ (lastPlace last tokens).span.stop := by
  induction tokens generalizing last with
  | nil => exact ⟨Nat.le_refl _, fun _ mem => absurd mem List.not_mem_nil⟩
  | cons token tokens ih =>
    obtain ⟨behind, proper, later⟩ := h
    have here := plain token List.mem_cons_self
    simp only [here, Bool.false_eq_true, ↓reduceIte] at later
    obtain ⟨grows, within⟩ := ih later fun t mem => plain t (List.mem_cons_of_mem token mem)
    simp only [lastPlace, here, Bool.false_eq_true, ↓reduceIte]
    refine ⟨by omega, ?_⟩
    intro t mem
    rcases List.mem_cons.mp mem with rfl | mem
    · refine ⟨behind, ?_, grows⟩
      rintro first ⟨⟩
      exact Nat.le_refl _
    · obtain ⟨after, -, stops⟩ := within t mem
      refine ⟨by omega, ?_, stops⟩
      rintro first ⟨⟩
      omega

end InOrder

namespace Grammar

inductive Chained (P : Matcher → Cursor → Cursor → Capture → Prop) :
    List Matcher → Cursor → Cursor → List Capture → Prop where
  | nil {c : Cursor} : Chained P [] c c []
  | cons {m : Matcher} {ms : List Matcher} {c d e : Cursor} {capture : Capture}
      {captures : List Capture} (head : P m c d capture) (tail : Chained P ms d e captures) :
    Chained P (m :: ms) c e (capture :: captures)

/-- What every step of a derivation carries on holds of the whole. -/
theorem Derives.induction {g : Grammar} {P : Matcher → Cursor → Cursor → Capture → Prop}
    (token : ∀ (spec : Spec) (guards : List Predicate) (c : Cursor) (t : Token) (rest : List Token),
      c.rest = t :: rest → spec.accepts t = true →
        P (.token spec guards) c ((c.visit guards).take t rest) (.token t))
    (nothing : ∀ (guards : List Predicate) (c : Cursor),
      P (.nothing guards) c (c.visit guards) c.marker)
    (sequence : ∀ (name? : Option String) (parts : List Matcher) (build : Combiner)
      (guards : List Predicate) (c c' : Cursor) (w : Choices) (captures : List Capture),
      g.DerivesAll parts (c.visit guards) w c' captures →
        Chained P parts (c.visit guards) c' captures →
          P (.sequence name? parts build guards) c c' (build captures))
    (branch : ∀ (options : List Matcher) (guards : List Predicate) (c c' : Cursor) (m : Matcher)
      (capture : Capture), m ∈ options → P m (c.visit guards) c' capture →
        P (.branch options guards) c c' capture)
    (deferred : ∀ (m m' : Matcher) (c c' : Cursor) (capture : Capture), m.isDeferred = true →
      g.unfold m = .ok m' → P m' (c.visit m.guards) c' capture → P m c c' capture)
    {m : Matcher} {c c' : Cursor} {w : Choices} {capture : Capture}
    (h : g.Derives m c w c' capture) : P m c c' capture := by
  refine @Derives.rec g (fun m c _ c' capture _ => P m c c' capture)
    (fun ms c _ c' captures _ => Chained P ms c c' captures)
    ?token ?nothing ?sequence ?branch ?deferred ?nil ?cons m c w c' capture h
  case token =>
    intro spec guards c t rest next accepts _
    exact token spec guards c t rest next accepts
  case nothing =>
    intro guards c
    exact nothing guards c
  case sequence =>
    intro name? parts build guards c c' w captures all chained
    exact sequence name? parts build guards c c' w captures all chained
  case branch =>
    intro options guards c c' i m w capture option _ holds
    exact branch options guards c c' m capture (List.mem_of_getElem? option) holds
  case deferred =>
    intro m m' c c' w capture defers unfolds _ holds
    exact deferred m m' c c' capture defers unfolds holds
  case nil =>
    intro c
    exact .nil
  case cons =>
    intro m ms c d e u v capture captures _ _ holds chained
    exact .cons holds chained

end Grammar

/-- No end marker is asked for, and all sequences combine their parts to captures that reach over
them; the absent case of an option is a marker. -/
inductive Pattern.Spanning : Pattern → Prop where
  | token {spec : Spec} {guards : List Predicate} (plain : spec.kind ≠ .eof) :
    Spanning (.token spec guards)
  | nothing {guards : List Predicate} : Spanning (.nothing guards)
  | sequence {mark : Nat} {name? : Option String} {parts : List Pattern} {build : Combiner}
      {guards : List Predicate} (nonempty : parts ≠ []) (builds : build.Spans parts.length)
      (all : ∀ p ∈ parts, Spanning p) :
    Spanning (.sequence mark name? parts build guards)
  | branch {options : List Pattern} {guards : List Predicate} (all : ∀ p ∈ options, Spanning p) :
    Spanning (.branch options guards)
  | reference {name : String} {guards : List Predicate} : Spanning (.reference name guards)
  | optional {inner : Pattern} {guards : List Predicate} (spans : Spanning inner) :
    Spanning (.optional inner none guards)
  | list {item : Pattern} {separator? : Option Pattern} {guards : List Predicate}
      (spans : Spanning item) (separated : ∀ s, separator? = some s → Spanning s) :
    Spanning (.list item separator? guards)

namespace Matcher

/-- Captures of the matcher end where the last token does that was taken. Those that span the
`whole` start no later than the next token; those that are `lists` have items when tokens were
taken. -/
inductive Spanning : (whole lists : Bool) → Matcher → Prop where
  | token {spec : Spec} {guards : List Predicate} (plain : spec.kind ≠ .eof) :
    Spanning true false (.token spec guards)
  | nothing {guards : List Predicate} : Spanning true false (.nothing guards)
  | sequence {name? : Option String} {parts : List Matcher} {build : Combiner}
      {guards : List Predicate} (nonempty : parts ≠ []) (builds : build.Spans parts.length)
      (all : ∀ m ∈ parts, Spanning true false m) :
    Spanning true false (.sequence name? parts build guards)
  | branch {whole lists : Bool} {options : List Matcher} {guards : List Predicate}
      (all : ∀ m ∈ options, Spanning whole lists m) : Spanning whole lists (.branch options guards)
  | rule {name : String} {guards : List Predicate} : Spanning true false (.rule name guards)
  | list {lists : Bool} {item : Matcher} {separator? : Option Matcher} {guards : List Predicate}
      (spans : Spanning true false item)
      (separated : ∀ s, separator? = some s → Spanning true false s) :
    Spanning true lists (.list item separator? guards)
  | tail {item : Matcher} {separator? : Option Matcher} {guards : List Predicate}
      (spans : Spanning true false item)
      (separated : ∀ s, separator? = some s → Spanning true false s) :
    Spanning false true (.tail item separator? guards)
  | noItems {whole lists : Bool} :
    Spanning whole lists (.sequence none [.nothing []] .emptyList [])
  | items {whole lists : Bool} {item rest : Matcher} (first : Spanning true false item)
      (more : Spanning whole true rest) :
    Spanning true lists (.sequence none [item, rest] (.cons 0 1) [])
  | laterItems {whole : Bool} {separator item rest : Matcher}
      (separated : Spanning true false separator) (first : Spanning true false item)
      (more : Spanning whole true rest) :
    Spanning false true (.sequence none [separator, item, rest] (.cons 1 2) [])

theorem spanning_lower {p : Pattern} (h : p.Spanning) : (lower p).Spanning true false := by
  have lowered : ∀ ps : List Pattern, (∀ p ∈ ps, (lower p).Spanning true false) →
      ∀ m ∈ lowerAll ps, m.Spanning true false := by
    intro ps all m mem
    rw [lowerAll_eq_map] at mem
    obtain ⟨p, here, rfl⟩ := List.mem_map.mp mem
    exact all p here
  induction h with
  | token plain => exact .token plain
  | nothing => exact .nothing
  | @sequence _ _ parts _ _ nonempty builds _ ih =>
    refine .sequence ?_ ?_ (lowered parts ih)
    · rw [lowerAll_eq_map]
      exact fun none => nonempty (List.map_eq_nil_iff.mp none)
    · rw [lowerAll_eq_map, List.length_map]
      exact builds
  | branch _ ih => exact .branch (lowered _ ih)
  | reference => exact .rule
  | optional _ ih =>
    refine .branch ?_
    simp only [absent, List.forall_mem_cons]
    exact ⟨ih, .nothing, fun _ mem => absurd mem List.not_mem_nil⟩
  | list _ _ ih ihs =>
    refine .list ih ?_
    rw [lowerSome_eq_map]
    intro s same
    obtain ⟨p, found, rfl⟩ := Option.map_eq_some_iff.mp same
    exact ihs p found

theorem spanning_either {whole lists : Bool} {m n : Matcher} {guards : List Predicate}
    (first : m.Spanning whole lists) (second : n.Spanning whole lists) :
    (branch [m, n] guards).Spanning whole lists := by
  refine .branch ?_
  simp only [List.forall_mem_cons]
  exact ⟨first, second, fun _ mem => absurd mem List.not_mem_nil⟩

theorem spanning_unfold {g : Grammar} {m m' : Matcher} {whole lists : Bool}
    (rules : ∀ name p, g.lookup? name = some p → p.Spanning) (h : m.Spanning whole lists)
    (unfolds : g.unfold m = .ok m') : m'.Spanning whole lists := by
  have itself := h
  cases h with
  | @rule name guards =>
    cases found : g.lookup? name with
    | none => simp only [Grammar.unfold, found] at unfolds; cases unfolds
    | some p =>
      simp only [Grammar.unfold, found] at unfolds
      cases unfolds
      exact spanning_lower (rules name p found)
  | @list _ item separator? guards spans separated =>
    cases separator? with
    | none =>
      cases unfolds
      exact spanning_either (.items spans (.list spans separated)) .noItems
    | some separator =>
      cases unfolds
      exact .items spans (.tail spans separated)
  | @tail item separator? guards spans separated =>
    cases separator? with
    | none => cases unfolds; exact .noItems
    | some separator =>
      cases unfolds
      exact spanning_either (.laterItems (separated separator rfl) spans (.tail spans separated))
        .noItems
  | _ => cases unfolds; exact itself

end Matcher

namespace Cursor

structure Onward (c c' : Cursor) : Prop where
  ordered : InOrder c'.last c'.rest
  grows : c.last.span.stop ≤ c'.last.span.stop
  last_eq : lastPlace c'.last c'.rest = lastPlace c.last c.rest

theorem Onward.trans {c d e : Cursor} (h : c.Onward d) (k : d.Onward e) : c.Onward e :=
  ⟨k.ordered, Nat.le_trans h.grows k.grows, k.last_eq.trans h.last_eq⟩

structure Spans (whole lists : Bool) (c c' : Cursor) (capture : Capture) : Prop where
  onward : c.Onward c'
  proper : capture.position.span.start ≤ capture.position.span.stop
  stop_eq : capture.position.span.stop = c'.last.span.stop
  start_le : whole = true → ∀ token, c.rest.head? = some token →
    capture.position.span.start ≤ token.position.span.start
  items : lists = true → ∃ position items, capture = .list position items ∧
    (items = [] → c'.last = c.last)

theorem Spans.of_visit {whole lists : Bool} {c c' : Cursor} {capture : Capture}
    {guards : List Predicate} (h : (c.visit guards).Spans whole lists c' capture) :
    c.Spans whole lists c' capture :=
  ⟨⟨h.onward.ordered, h.onward.grows, h.onward.last_eq⟩, h.proper, h.stop_eq, h.start_le, h.items⟩

end Cursor

namespace Grammar

open Cursor (Onward)

def SpansThrough (m : Matcher) (c c' : Cursor) (capture : Capture) : Prop :=
  ∀ whole lists, m.Spanning whole lists → InOrder c.last c.rest → c.Spans whole lists c' capture

/-- Captures of parts, one after the other, reach from the first of them to the last. -/
theorem Chained.spans {ms : List Matcher} {c c' : Cursor} {captures : List Capture}
    (chained : Chained SpansThrough ms c c' captures) (all : ∀ m ∈ ms, m.Spanning true false)
    (ordered : InOrder c.last c.rest) :
    c.Onward c' ∧ ∀ first later, captures = first :: later →
      first.position.span.start ≤ first.position.span.stop ∧
      first.position.span.stop ≤ c'.last.span.stop ∧
      (∀ token, c.rest.head? = some token →
        first.position.span.start ≤ token.position.span.start) ∧
      ((first :: later).getLast (List.cons_ne_nil first later)).position.span.stop =
        c'.last.span.stop := by
  induction chained with
  | nil => exact ⟨⟨ordered, Nat.le_refl _, rfl⟩, nofun⟩
  | @cons m ms c d e capture captures head tail ih =>
    obtain ⟨here, proper, stop_eq, start_le, -⟩ :=
      head true false (all m List.mem_cons_self) ordered
    obtain ⟨after, rest⟩ := ih (fun n mem => all n (List.mem_cons_of_mem m mem)) here.ordered
    refine ⟨here.trans after, ?_⟩
    rintro first later ⟨⟩
    refine ⟨proper, stop_eq ▸ after.grows, start_le rfl, ?_⟩
    cases captures with
    | nil =>
      cases tail
      exact stop_eq
    | cons second others =>
      rw [List.getLast_cons (List.cons_ne_nil second others)]
      exact (rest second others rfl).2.2.2

/-- An item in front of a list reaches from the item to the end of the list. -/
theorem span_prepend {first : Capture} {position : Position} {items : List Capture}
    {d e : Cursor} (grows : d.last.span.stop ≤ e.last.span.stop)
    (proper : first.position.span.start ≤ first.position.span.stop)
    (stops : first.position.span.stop = d.last.span.stop)
    (rest : position.span.stop = e.last.span.stop) (none : items = [] → e.last = d.last) :
    (first.prepend position items).position.span.start ≤ first.position.span.start ∧
      (first.prepend position items).position.span.start ≤
        (first.prepend position items).position.span.stop ∧
      (first.prepend position items).position.span.stop = e.last.span.stop := by
  cases items with
  | nil =>
    have same := none rfl
    exact ⟨Nat.le_refl _, proper, stops.trans (congrArg (fun p => p.span.stop) same.symm)⟩
  | cons item items =>
    have covered : (first.prepend position (item :: items)).position.span =
        first.position.span.cover position.span := rfl
    rw [covered, Span.cover]
    simp only
    omega

theorem spans_token {spec : Spec} {guards : List Predicate} {c : Cursor} {t : Token}
    {rest : List Token} (next : c.rest = t :: rest) (accepts : spec.accepts t = true) :
    SpansThrough (.token spec guards) c ((c.visit guards).take t rest) (.token t) := by
  intro whole lists spanning ordered
  cases spanning with
  | token plain =>
    have token : t.isEof = false := by
      have casts : t.kind.castsTo spec.kind = true := (Bool.and_eq_true_iff.mp accepts).1
      rw [Token.isEof, beq_eq_false_iff_ne]
      intro marker
      rw [marker] at casts
      simp [Kind.castsTo, plain.symm] at casts
    rw [next] at ordered
    obtain ⟨behind, proper, later⟩ := ordered
    have last : ((c.visit guards).take t rest).last = t.position := by
      simp only [Cursor.take, token, Bool.false_eq_true, ↓reduceIte]
    refine ⟨⟨?_, ?_, ?_⟩, proper, congrArg (fun p => p.span.stop) last.symm, ?_,
      fun lists => absurd lists Bool.false_ne_true⟩
    · rw [last]
      simp only [token, Bool.false_eq_true, ↓reduceIte] at later
      exact later
    · rw [last]
      exact Nat.le_trans behind proper
    · rw [last, next, lastPlace]
      simp only [token, Bool.false_eq_true, ↓reduceIte]
      rfl
    · rintro - t' here
      rw [next] at here
      cases here
      exact Nat.le_refl _

theorem spans_nothing (guards : List Predicate) (c : Cursor) :
    SpansThrough (.nothing guards) c (c.visit guards) c.marker := by
  intro whole lists spanning ordered
  cases spanning with
  | nothing =>
    refine ⟨⟨ordered, Nat.le_refl _, rfl⟩, Nat.le_refl _, rfl, ?_,
      fun lists => absurd lists Bool.false_ne_true⟩
    intro _ token here
    cases rest : c.rest with
    | nil => rw [rest] at here; cases here
    | cons t ts =>
      rw [rest] at here ordered
      cases here
      exact ordered.1

theorem spans_noItems {whole lists : Bool} {g : Grammar} {c c' : Cursor} {w : Choices}
    {captures : List Capture} (all : g.DerivesAll [.nothing []] c w c' captures)
    (ordered : InOrder c.last c.rest) :
    c.Spans whole lists c' (Combiner.emptyList captures) := by
  obtain ⟨only, rfl, derives⟩ := derivesAll_singleton_iff.mp all
  obtain ⟨-, rfl, rfl⟩ := derives_nothing_iff.mp derives
  obtain ⟨onward, -, stop, start, -⟩ := spans_nothing [] c true false .nothing ordered
  exact ⟨onward, Nat.le_refl _, stop, fun _ => start rfl, fun _ => ⟨_, [], rfl, fun _ => rfl⟩⟩

theorem spans_sequence {g : Grammar} {parts : List Matcher} {build : Combiner} {c c' : Cursor}
    {w : Choices} {captures : List Capture} (nonempty : parts ≠ [])
    (builds : build.Spans parts.length) (each : ∀ m ∈ parts, m.Spanning true false)
    (all : g.DerivesAll parts c w c' captures) (chained : Chained SpansThrough parts c c' captures)
    (ordered : InOrder c.last c.rest) : c.Spans true false c' (build captures) := by
  have size := length_of_derivesAll all
  obtain ⟨onward, reach⟩ := chained.spans each ordered
  cases captures with
  | nil => exact absurd (List.length_eq_zero_iff.mp size.symm) nonempty
  | cons first later =>
    obtain ⟨proper, within, start, stop⟩ := reach first later rfl
    have span := builds.span_eq size
    rw [Span.cover, stop] at span
    refine ⟨onward, ?_, ?_, ?_, fun lists => absurd lists Bool.false_ne_true⟩
    · rw [span]
      simp only
      omega
    · rw [span]
      exact Nat.max_eq_right within
    · intro _ token here
      rw [span]
      exact Nat.le_trans (Nat.min_le_left _ _) (start token here)

theorem Chained.prepend (lists : Bool) {whole : Bool} {item rest : Matcher} {c c' : Cursor}
    {captures : List Capture} (chained : Chained SpansThrough [item, rest] c c' captures)
    (first : item.Spanning true false) (more : rest.Spanning whole true)
    (ordered : InOrder c.last c.rest) :
    ∃ head position items, captures = [head, .list position items] ∧
      c.Spans true lists c' (head.prepend position items) := by
  obtain - | @⟨_, _, _, _, _, head, _, derives, - | @⟨_, _, _, _, _, tail, _, follows, ⟨⟩⟩⟩ := chained
  obtain ⟨onward, proper, stops, start, -⟩ := derives true false first ordered
  obtain ⟨onward', -, stops', -, listed⟩ := follows whole true more onward.ordered
  obtain ⟨position, items, rfl, none⟩ := listed rfl
  obtain ⟨within, proper', stop⟩ := span_prepend onward'.grows proper stops stops' none
  refine ⟨head, position, items, rfl, onward.trans onward', proper', stop, ?_,
    fun _ => ⟨_, _, rfl, nofun⟩⟩
  exact fun whole token here => Nat.le_trans within (start whole token here)

theorem spans_items {lists whole : Bool} {item rest : Matcher} {c c' : Cursor}
    {captures : List Capture} (chained : Chained SpansThrough [item, rest] c c' captures)
    (first : item.Spanning true false) (more : rest.Spanning whole true)
    (ordered : InOrder c.last c.rest) :
    c.Spans true lists c' (Combiner.cons 0 1 captures) := by
  obtain ⟨head, position, items, rfl, spans⟩ := chained.prepend lists first more ordered
  exact spans

theorem spans_laterItems {whole : Bool} {separator item rest : Matcher} {c c' : Cursor}
    {captures : List Capture}
    (chained : Chained SpansThrough [separator, item, rest] c c' captures)
    (separated : separator.Spanning true false) (first : item.Spanning true false)
    (more : rest.Spanning whole true) (ordered : InOrder c.last c.rest) :
    c.Spans false true c' (Combiner.cons 1 2 captures) := by
  obtain - | @⟨_, _, _, d, _, before, captures, derives, tail⟩ := chained
  obtain ⟨onward, -⟩ := derives true false separated ordered
  obtain ⟨head, position, items, rfl, spans⟩ :=
    tail.prepend false first more onward.ordered
  exact ⟨onward.trans spans.onward, spans.proper, spans.stop_eq, nofun, fun _ => ⟨_, _, rfl, nofun⟩⟩

theorem Derives.spans {g : Grammar} (rules : ∀ name p, g.lookup? name = some p → p.Spanning)
    {m : Matcher} {c c' : Cursor} {w : Choices} {capture : Capture}
    (h : g.Derives m c w c' capture) : SpansThrough m c c' capture := by
  refine h.induction (P := SpansThrough) ?token ?nothing ?sequence ?branch ?deferred
  case token => exact fun _ _ _ _ _ next accepts => spans_token next accepts
  case nothing => exact spans_nothing
  case sequence =>
    intro name? parts build guards c c' w captures all chained whole lists spanning ordered
    suffices spans : (c.visit guards).Spans whole lists c' (build captures) from spans.of_visit
    cases spanning with
    | sequence nonempty builds each => exact spans_sequence nonempty builds each all chained ordered
    | noItems => exact spans_noItems all ordered
    | items first more => exact spans_items chained first more ordered
    | laterItems separated first more => exact spans_laterItems chained separated first more ordered
  case branch =>
    intro options guards c c' m capture mem holds whole lists spanning ordered
    cases spanning with
    | branch all => exact (holds whole lists (all m mem) ordered).of_visit
  case deferred =>
    intro m m' c c' capture _ unfolds holds whole lists spanning ordered
    exact (holds whole lists (Matcher.spanning_unfold rules spanning unfolds) ordered).of_visit

end Grammar

namespace Builder

/-- No end marker is asked for; the combiners that are given make lists, and none is given for the
absent case of an option. -/
def Operation.MakesLists : Operation → Prop
  | .token spec => spec.kind ≠ .eof
  | .optional _ absent? => absent? = none
  | .sequence build _ => build = .listOf
  | .namedSequence _ build _ => build = .listOf
  | _ => True

/-- `b` was made by operations that are allowed, and `made` are all patterns that these have made. -/
inductive BuiltBy (allowed : Operation → Prop) : Builder → List Pattern → Prop where
  | empty : BuiltBy allowed .empty []
  | operation {b : Builder} {made : List Pattern} (built : BuiltBy allowed b made) (op : Operation)
      (known : ∀ p ∈ op.operands, p ∈ made) (may : allowed op) :
    BuiltBy allowed (op.run b).2 ((op.run b).1 :: made)
  | setMain {b : Builder} {made : List Pattern} (built : BuiltBy allowed b made) (name : String) :
    BuiltBy allowed (b.setMain name) made

variable {b : Builder} {made : List Pattern} {allowed : Operation → Prop}

theorem BuiltBy.built (h : b.BuiltBy allowed made) : b.Built made := by
  induction h with
  | empty => exact .empty
  | operation _ op known _ ih => exact ih.operation op known
  | setMain _ name ih => exact ih.setMain name

theorem sequence_spanning {name? : Option String} {build : Combiner} {parts : List Pattern}
    (builds : build.Spans parts.length) (all : ∀ p ∈ parts, p.Spanning) :
    (b.sequence name? build parts).1.Spanning := by
  unfold sequence
  split
  · exact .nothing
  · next nonempty => exact .sequence (fun none => nonempty (List.isEmpty_iff.mpr none)) builds all

theorem operator_spanning (text : String) : (b.operator text).1.Spanning := by
  have part : ∀ glued c, (operatorPart glued c).Spanning := fun _ _ => .token (by simp)
  unfold operator
  split
  · exact .nothing
  · exact part _ _
  · refine sequence_spanning (.joinedSymbol text) (List.forall_mem_cons.mpr ⟨part _ _, ?_⟩)
    intro p mem
    obtain ⟨c, -, rfl⟩ := List.mem_map.mp mem
    exact part _ _

theorem guarded_spanning {p : Pattern} (h : p.Spanning) (mark : Nat) (guard : Predicate) :
    (p.guarded mark guard).Spanning := by
  cases h with
  | token plain => exact .token plain
  | nothing => exact .nothing
  | sequence nonempty builds all => exact .sequence nonempty builds all
  | branch all => exact .branch all
  | reference => exact .reference
  | optional spans => exact .optional spans
  | list spans separated => exact .list spans separated

theorem named_spanning {p : Pattern} (h : p.Spanning) (name : String) :
    (b.named name p).1.Spanning := by
  have wrapped : ∀ mark name?, (Pattern.sequence mark name? [p] (.nth 0) []).Spanning :=
    fun _ _ => .sequence (List.cons_ne_nil _ _) .only (by simpa using h)
  cases h with
  | @sequence mark name? parts build guards nonempty builds all =>
    cases name? with
    | none => exact .sequence nonempty builds all
    | some own => exact .sequence nonempty builds all
  | _ => exact wrapped _ _

theorem run_spanning {op : Operation} (lists : op.MakesLists)
    (known : ∀ p ∈ op.operands, p.Spanning) : (op.run b).1.Spanning := by
  cases op with
  | token spec => exact .token lists
  | keyword word => exact .token (by simp)
  | operator text => exact operator_spanning text
  | nothing => exact .nothing
  | optional inner absent? =>
    cases lists
    exact .optional (known inner List.mem_cons_self)
  | list item separator? =>
    refine .list (known item List.mem_cons_self) ?_
    rintro s rfl
    exact known s (List.mem_cons_of_mem _ List.mem_cons_self)
  | sequence build parts | namedSequence _ build parts =>
    cases lists
    exact sequence_spanning .listOf known
  | oneOf options =>
    simp only [Operation.run, oneOf]
    split
    · exact .nothing
    · exact .branch known
  | reference name => exact .reference
  | guarded pattern guard => exact guarded_spanning (known pattern List.mem_cons_self) _ guard
  | define name pattern => exact named_spanning (known pattern List.mem_cons_self) name
  | register name pattern => exact known pattern List.mem_cons_self

theorem BuiltBy.spanning (h : b.BuiltBy Operation.MakesLists made) : ∀ p ∈ made, p.Spanning := by
  induction h with
  | empty => exact fun _ mem => absurd mem List.not_mem_nil
  | operation _ op known lists ih =>
    exact List.forall_mem_cons.mpr ⟨run_spanning lists fun p mem => ih p (known p mem), ih⟩
  | setMain _ name ih => exact ih

end Builder

namespace Tokenizer

open TokenSource (readAll readAll_of_error readAll_of_end readAll_of_token pull_induction)

theorem inOrder_of_readAll {t : Tokenizer} {eof : Token}
    (short : t.offset + Bytes.length t.rest ≤ Offset.limit) (behind : t.last.span.stop ≤ t.offset)
    (ending : (readAll t).2 = .ok eof) : InOrder t.last ((readAll t).1 ++ [eof]) := by
  induction t using pull_induction with
  | failed t e u step =>
    rw [readAll_of_error step] at ending
    cases ending
  | ended t token u step marker =>
    rw [readAll_of_end step marker] at ending ⊢
    cases ending
    rw [eof_of_next step marker]
    have fits : t.last.span.stop ≤ Offset.limit := by omega
    exact ⟨Nat.le_refl _, Nat.le_min.mpr ⟨Nat.le_succ _, fits⟩, trivial⟩
  | pulled t token u step plain ih =>
    rw [readAll_of_token step plain] at ending ⊢
    have step : t.next = (.ok token, u) := step
    rcases t.next_cases with ⟨-, reply, -, -⟩ | ⟨gap, chars, rest, text, -, -, -, place_eq, after⟩
    · rw [step] at reply
      cases reply
      cases plain
    · rw [text, Bytes.length_append, Bytes.length_append] at short
      have startFits : t.offset + Bytes.length gap ≤ Offset.limit := by omega
      have stopFits : t.offset + Bytes.length gap + Bytes.length chars ≤ Offset.limit := by omega
      rw [step, Offset.clip_of_le startFits, Offset.clip_of_le stopFits] at place_eq
      have span_eq : token.position.span = ⟨t.offset + Bytes.length gap,
          t.offset + Bytes.length gap + Bytes.length chars⟩ := congrArg Position.span place_eq
      have last : u.last = token.position := last_of_next step plain
      rw [step] at after
      have offset := congrArg Tokenizer.offset after
      have left := congrArg Tokenizer.rest after
      simp only at offset left
      have reached : u.last.span.stop = u.offset := by rw [last, span_eq, offset]
      have later := ih (by rw [offset, left]; omega) (Nat.le_of_eq reached) ending
      rw [last] at later
      refine ⟨?_, ?_, ?_⟩
      · rw [span_eq]
        exact Nat.le_trans behind (Nat.le_add_right _ _)
      · rw [span_eq]
        exact Nat.le_add_right _ _
      · simp only [plain, Bool.false_eq_true, ↓reduceIte]
        exact later

end Tokenizer

namespace Grammar

open TokenSource (readAll plain_of_readAll)

variable {σ : Type} [TokenSource σ] {g : Grammar} {limits : Limits} {results : List Capture}

theorem completes_of_parse {defined : String → Prop} (closed : g.Closed defined)
    {name? : Option String} {s : σ} (ok : g.parse name? s limits = .ok results) :
    ∃ name pattern eof, g.lookup? name = some pattern ∧ (readAll s).2 = .ok eof ∧
      ∀ result ∈ results, ∃ marked w, g.Completes pattern (TokenSource.start s) (readAll s).1
        (endMarker (lastPlace (TokenSource.start s) (readAll s).1)) marked w result := by
  have some := parse_ok closed ok
  simp only [parse] at ok
  split at ok
  · cases ok
  · next pattern found =>
    obtain ⟨name, rule⟩ := lookup_of_entry found
    split at ok
    · cases ok
    · next q _ pulled =>
      have outcome :=
        Parser.parse_eq ((Parser.ofGrammar g limits).setup pattern (TokenSource.start s)) s
      rw [pulled] at outcome
      split at ok
      · cases ok
      · cases ok
        split at outcome
        · cases outcome
        · next p fed =>
          obtain ⟨sound, tracked⟩ := Parser.weave_fed (plain_of_readAll s) fed
          split at outcome
          · split at outcome
            · cases outcome
            · next eof ending =>
              have same := (Parser.finish_sim sound).2
              rw [← outcome] at same
              obtain ⟨ds, es, waits, waits', results⟩ := tracked.finish same
              have results : q.results.toList = _ := results
              have marker : (endMarker (lastPlace (TokenSource.start s) (readAll s).1)).isEof := rfl
              have all : Enumerates _ (g.Completes pattern _ _ _ false) :=
                enumerates_completions marker waits
              have all' : Enumerates _ (g.Completes pattern _ _ _ true) :=
                enumerates_completions marker waits'
              refine ⟨name, pattern, eof, rule, ending, ?_⟩
              intro result mem
              rw [results, List.map_append, List.mem_append] at mem
              rcases mem with mem | mem
              · obtain ⟨⟨w, c⟩, here, rfl⟩ := List.mem_map.mp mem
                exact ⟨false, w, (all.mem_iff w c).mp here⟩
              · obtain ⟨⟨w, c⟩, here, rfl⟩ := List.mem_map.mp mem
                exact ⟨true, w, (all'.mem_iff w c).mp here⟩
          · -- A parser that has stopped before the input ends has no results.
            cases outcome
            exact absurd tracked.results_eq some

/-- The capture of a complete derivation of tokens in order reaches from the first of them to the
last. -/
theorem Completes.span {pattern : Pattern} {start : Position} {tokens : List Token} {eof : Token}
    {marked : Bool} {w : Choices} {result : Capture}
    (rules : ∀ name p, g.lookup? name = some p → p.Spanning) (spanning : pattern.Spanning)
    (ordered : InOrder start (tokens ++ [eof])) (marker : eof.isEof = true)
    (h : g.Completes pattern start tokens eof marked w result) :
    result.position.span.start ≤ result.position.span.stop ∧
      result.position.span.stop = (lastPlace start tokens).span.stop ∧
      ∀ first, tokens.head? = some first →
        result.position.span.start ≤ first.position.span.start := by
  obtain ⟨c, derives, left, -⟩ := h
  obtain ⟨onward, proper, stop, begins, -⟩ :=
    derives.spans rules true false (Matcher.spanning_lower spanning) ordered
  have last : lastPlace c.last c.rest = c.last := by
    rw [left]
    cases marked with
    | true => rfl
    | false => simp [lastPlace, marker]
  have all := onward.last_eq
  rw [last, lastPlace_append] at all
  refine ⟨proper, ?_, ?_⟩
  · rw [stop, all]
    simp [lastPlace, marker]
  · intro first here
    refine begins rfl first ?_
    rw [List.head?_append, here]
    rfl

/-- Where all combiners that are given make lists, the results of a text that is not too long reach
from the first of its tokens, or before it, to the end of the last one; without tokens they are points
at the start. -/
theorem results_span_the_tokens {b : Builder} {made : List Pattern}
    (built : b.BuiltBy Builder.Operation.MakesLists made) (ok : b.grammar = .ok g) {source : Source}
    (short : Bytes.length source.chars < 2 ^ 32)
    (parsed : g.parseSource source limits = .ok results) :
    ∃ tokens eof,
      (Tokenizer.ofSource source g.keywords).tokenize = .ok (tokens ++ [eof]) ∧
      eof.isEof = true ∧ (∀ token ∈ tokens, token.isEof = false) ∧
      ∀ result ∈ results,
        (tokens = [] → result.position.span = ⟨0, 0⟩) ∧
        (∀ first last, tokens.head? = some first → tokens.getLast? = some last →
          result.position.span.start ≤ first.position.span.start ∧
            result.position.span.stop = last.position.span.stop) ∧
        ∀ token ∈ tokens, result.position.span.containsSpan token.position.span = true := by
  let t := Tokenizer.ofSource source g.keywords
  have rules : ∀ name p, g.lookup? name = some p → p.Spanning := fun name p found =>
    built.spanning p (built.built.rule_made ok found)
  obtain ⟨name, pattern, eof, rule, ending, completes⟩ :=
    completes_of_parse (built.built.closed ok) parsed
  have plain := plain_of_readAll t
  have marker : eof = endMarker (lastPlace t.last (readAll t).1) := t.endsAfter_last eof ending
  have fits : t.offset + Bytes.length t.rest ≤ Offset.limit := by
    have whole : t.offset + Bytes.length t.rest = Bytes.length source.chars := Nat.zero_add _
    rw [whole]
    exact Nat.le_of_lt_succ short
  have ordered := Tokenizer.inOrder_of_readAll fits (Nat.le_refl _) ending
  obtain ⟨tokenized, isEof⟩ := Tokenizer.tokenize_of_readAll ending
  have last_eq := TokenBuffer.lastPlace_eq_getLast? t.last plain
  refine ⟨(readAll t).1, eof, tokenized, isEof, plain, ?_⟩
  intro result mem
  obtain ⟨marked, w, completed⟩ := completes result mem
  rw [marker] at ordered
  have spanning := built.spanning pattern (built.built.rule_made ok rule)
  obtain ⟨proper, stop, start⟩ := completed.span rules spanning ordered rfl
  obtain ⟨-, within⟩ := ordered.front.bounds plain
  refine ⟨?_, ?_, ?_⟩
  · intro none
    rw [none] at stop
    have zero : result.position.span.stop = 0 := stop
    rw [zero, Nat.le_zero] at proper
    exact congrArg₂ Span.mk proper zero
  · intro first last head getLast
    refine ⟨start first head, stop.trans ?_⟩
    have here : lastPlace t.last (readAll t).1 = last.position := by
      rw [last_eq, getLast]
      rfl
    exact congrArg (fun p => p.span.stop) here
  · intro token mem
    obtain ⟨first, head⟩ : ∃ first, (readAll t).1.head? = some first :=
      ⟨_, List.head?_eq_some_head (List.ne_nil_of_mem mem)⟩
    obtain ⟨-, after, before⟩ := within token mem
    rw [Span.containsSpan, Bool.and_eq_true, decide_eq_true_eq, decide_eq_true_eq, stop]
    exact ⟨Nat.le_trans (start first head) (after first head), before⟩

open Builder (BuiltBy Operation wordPattern)

def commaPattern : Pattern := .token ⟨.symbol, some ","⟩ []

def wordList : Pattern := .list wordPattern (some commaPattern) []

def namedWordList : Pattern := .sequence 0 (some "main") [wordList] (.nth 0) []

def wordListBuilder : Builder where
  names := ["main"]
  rules := [("main", namedWordList)]
  nextMark := 1

def wordListGrammar : Grammar := ⟨["main"], [("main", namedWordList)], [], some "main"⟩

theorem wordListBuilder_built : wordListBuilder.BuiltBy Operation.MakesLists
    [namedWordList, wordList, commaPattern, wordPattern] := by
  have nothing : BuiltBy Operation.MakesLists .empty [] := .empty
  have word := nothing.operation (.token ⟨.word, none⟩) (by simp [Operation.operands])
    (by simp [Operation.MakesLists])
  have comma := word.operation (.token ⟨.symbol, some ","⟩) (by simp [Operation.operands])
    (by simp [Operation.MakesLists])
  have words := comma.operation (.list wordPattern (some commaPattern))
    (by simp [Operation.operands, Operation.run, Builder.token, wordPattern, commaPattern]) trivial
  exact words.operation (.define "main" wordList)
    (by simp [Operation.operands, Operation.run, Builder.list, wordList]) trivial

def spacedWords : Source := .ofText "t" " a, b "

def spacedResults : List Capture := ((wordListGrammar.parseSource spacedWords {}).toOption).getD []

/-- The result reaches from the first word to the second one, and not over the blanks around them. -/
theorem spacedResults_span :
    spacedResults.map (fun c => c.position.span) = [⟨1, 5⟩] ∧ ∃ tokens eof,
      (Tokenizer.ofSource spacedWords wordListGrammar.keywords).tokenize = .ok (tokens ++ [eof]) ∧
      ∀ result ∈ spacedResults, ∀ token ∈ tokens,
        result.position.span.containsSpan token.position.span = true := by
  have short : Bytes.length spacedWords.chars < 2 ^ 32 := by decide +kernel
  have spans : spacedResults.map (fun c => c.position.span) = [⟨1, 5⟩] := by decide +kernel
  have parsed : wordListGrammar.parseSource spacedWords {} = .ok spacedResults := by
    cases outcome : wordListGrammar.parseSource spacedWords {} with
    | error e =>
      rw [spacedResults, outcome] at spans
      cases spans
    | ok results => rw [spacedResults, outcome]; rfl
  obtain ⟨tokens, eof, tokenized, -, -, within⟩ :=
    results_span_the_tokens wordListBuilder_built rfl short parsed
  exact ⟨spans, tokens, eof, tokenized, fun result mem => (within result mem).2.2⟩

end Grammar

end Lockstep
