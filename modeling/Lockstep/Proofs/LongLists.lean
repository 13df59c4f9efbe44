import Lockstep.Grammar.Builder
import Lockstep.Proofs.Rows

set_option autoImplicit false

namespace Lockstep

open TokenSource (readAll)

namespace TokenList

variable (spec : Spec)

def items : Matcher := .list (.token spec []) none []

def round : Sequence := ⟨none, [.token spec [], items spec], .cons 0 1⟩

def ending : Sequence := ⟨none, [.nothing []], .emptyList⟩

def goesOn (frames : List Frame) : Strand := ⟨.next (items spec) frames, []⟩

def waiting (frames : List Frame) : Waiting := ⟨.token spec, ⟨round spec, []⟩ :: frames, []⟩

def closing (marker : Capture) (frames : List Frame) : Waiting :=
  ⟨.accepted, ⟨ending, [marker]⟩ :: frames, []⟩

def taken (token : Token) : Frame := ⟨round spec, [.token token]⟩

variable {spec} {frames : List Frame}

theorem climb_taken (closed : ∀ c, Frame.climb c frames = none) (token : Token) (c : Capture) :
    Frame.climb c (taken spec token :: frames) = none := by
  rw [Frame.climb_of_finished frames rfl]
  exact closed _

theorem advance_ending (marker : Capture) (closed : ∀ c, Frame.climb c frames = none) :
    Frame.advance marker (⟨ending, []⟩ :: frames) = .done (⟨ending, [marker]⟩ :: frames) ∧
      Frame.advanced marker (⟨ending, []⟩ :: frames) = 1 := by
  have next : Frame.next? ⟨ending, [marker]⟩ = none := rfl
  constructor
  · change Frame.settle (⟨ending, [marker]⟩ :: frames) = _
    simp only [Frame.settle, next, closed, Option.getD_none]
  · change 1 + Frame.resumed (⟨ending, [marker]⟩ :: frames) = 1
    simp only [Frame.resumed, next, closed]
    rfl

/-- Coming to the rest of a list takes seven steps and makes three nodes. -/
theorem resolveStrands_goesOn (p : Phase) (budget branches made : Nat)
    (room : 0 < p.limits.maxThreads) (closed : ∀ c, Frame.climb c frames = none) :
    p.resolveStrands (budget + 7) [goesOn spec frames] [] branches made =
      ⟨.ok [waiting spec frames, closing p.marker frames], branches + 1, made + 3⟩ := by
  obtain ⟨ended, one⟩ := advance_ending p.marker closed
  let none : Strand := ⟨.next .noItems frames, []⟩
  calc p.resolveStrands (budget + 7) [goesOn spec frames] [] branches made
      = p.resolveStrands (budget + 5)
          [⟨.next (.sequence .none [.token spec [], items spec] (.cons 0 1) []) frames, []⟩, none]
          [] (branches + 1) made := rfl
    _ = p.resolveStrands (budget + 4)
          [⟨.next (.token spec []) (⟨round spec, []⟩ :: frames), []⟩, none]
          [] (branches + 1) (made + 1) := rfl
    _ = p.resolveStrands (budget + 3) [none] [waiting spec frames] (branches + 1) (made + 1) := by
        simp only [Phase.resolveStrands, Strand.expand, List.length_nil, room, ↓reduceIte]
        rfl
    _ = p.resolveStrands (budget + 2) [⟨.next (.nothing []) (⟨ending, []⟩ :: frames), []⟩]
          [waiting spec frames] (branches + 1) (made + 2) := rfl
    _ = p.resolveStrands (budget + 1) [⟨.done (⟨ending, [p.marker]⟩ :: frames), []⟩]
          [waiting spec frames] (branches + 1) (made + 3) := by
        rw [Phase.resolveStrands]
        simp only [Strand.expand, ended, one]
        rfl
    _ = ⟨.ok [waiting spec frames, closing p.marker frames], branches + 1, made + 3⟩ := by
        cases budget <;> rfl

/-- Items that were taken become a list in front of the one that ends them. -/
theorem enclose_taken (frames : List Frame) (tokens : List Token) (position : Position)
    (rest : List Capture) :
    ∃ position', Frame.enclose (.list position rest) (tokens.map (taken spec) ++ frames) =
      Frame.enclose (.list position' (tokens.reverse.map .token ++ rest)) frames := by
  induction tokens generalizing position rest with
  | nil => exact ⟨position, rfl⟩
  | cons token tokens ih =>
    obtain ⟨position', same⟩ := ih _ (.token token :: rest)
    refine ⟨position', ?_⟩
    rw [List.reverse_cons, List.map_append, List.append_assoc]
    exact same

end TokenList

open TokenList

/-- Two derivations are left, one that waits for another item of a list inside `frames` and one that
is complete. Coming to them takes `cost` nodes. -/
structure Weave.Lists (v : Weave) (spec : Spec) (frames : List Frame) (cost : Nat) : Prop where
  runs : v.isRunning = true
  results_eq : v.results = []
  closed : ∀ c, Frame.climb c frames = none
  room : 0 < v.limits.maxThreads
  steps : 7 ≤ v.limits.maxExpansions
  resolves : ∀ token, ∃ branches, v.resolve token =
    (.ok [waiting spec frames, closing (.empty v.last.endPoint) frames],
      { v with
        strands := []
        metrics := { v.metrics with branches, peakThreads := max v.metrics.peakThreads 2 }
        allocated := v.allocated + cost })

namespace Weave.Lists

variable {v : Weave} {spec : Spec} {frames : List Frame} {cost : Nat} {token : Token}

theorem refuses_marker (wanted : spec.kind ≠ .eof) (marker : token.isEof = true) :
    spec.accepts token = false := by
  have kind : token.kind = .eof := beq_iff_eq.mp marker
  simp [Spec.accepts, Kind.castsTo, kind, wanted.symm]

theorem plain_of_accepts (wanted : spec.kind ≠ .eof) (accepted : spec.accepts token = true) :
    token.isEof = false := by
  rw [← Bool.not_eq_true]
  intro marker
  exact absurd accepted (Bool.eq_false_iff.mp (refuses_marker wanted marker))

theorem of_resolveStrands (runs : v.isRunning = true) (results : v.results = [])
    (closed : ∀ c, Frame.climb c frames = none) (room : 0 < v.limits.maxThreads)
    (steps : 7 ≤ v.limits.maxExpansions)
    (resolved : ∀ place, ∃ branches,
      Phase.resolveStrands ⟨v.grammar, v.limits, .empty v.last.endPoint, place⟩
        v.limits.maxExpansions v.strands [] v.metrics.branches v.allocated =
      ⟨.ok [waiting spec frames, closing (.empty v.last.endPoint) frames], branches,
        v.allocated + cost⟩) :
    v.Lists spec frames cost := by
  refine ⟨runs, results, closed, room, steps, fun token => ?_⟩
  obtain ⟨branches, resolved⟩ := resolved token.position
  refine ⟨branches, ?_⟩
  simp only [resolve, resolved]
  rfl

theorem of_goesOn (runs : v.isRunning = true) (results : v.results = [])
    (strands : v.strands = [goesOn spec frames]) (closed : ∀ c, Frame.climb c frames = none)
    (room : 0 < v.limits.maxThreads) (steps : 7 ≤ v.limits.maxExpansions) :
    v.Lists spec frames 3 := by
  refine of_resolveStrands runs results closed room steps fun place => ⟨v.metrics.branches + 1, ?_⟩
  obtain ⟨budget, budget_eq⟩ := Nat.exists_eq_add_of_le' steps
  rw [strands, budget_eq]
  exact resolveStrands_goesOn ⟨v.grammar, v.limits, _, place⟩ budget _ _ room closed

theorem feed (h : v.Lists spec frames cost) (plain : token.isEof = false)
    (accepted : spec.accepts token = true) :
    ∃ u, v.feed token = (none, u) ∧ u.Lists spec (taken spec token :: frames) 3 ∧
      u.allocated = v.allocated + cost + 1 ∧
      u.metrics.peakThreads = max v.metrics.peakThreads 2 := by
  obtain ⟨branches, resolved⟩ := h.resolves token
  have takes : (waiting spec frames).takes token v.last.endPoint = true := by
    simp only [waiting, Waiting.takes, accepted, Waiting.refusal?, List.find?_nil, Option.map_none,
      Option.isNone_none, Bool.and_self]
  have survives : (waiting spec frames).advance token = goesOn spec (taken spec token :: frames) :=
    rfl
  have made : Frame.advanced (.token token) (waiting spec frames).frames = 1 := rfl
  have left : (closing (.empty v.last.endPoint) frames).takes token v.last.endPoint = false := rfl
  simp only [feed_of_plain h.runs plain, take, consume, resolved, gather, List.map_cons,
    List.map_nil, Waiting.meet, takes, survives, made, left, plain, Fate.madeBy]
  refine ⟨_, rfl, ?_, rfl, rfl⟩
  exact of_goesOn h.runs (by simp [h.results_eq, countToken, countNodes]) rfl
    (climb_taken h.closed token) h.room h.steps

theorem finish (h : v.Lists spec frames cost) (wanted : spec.kind ≠ .eof) :
    ∃ u, v.finish = (none, u) ∧ u.status = .finished ∧
      u.results = [Frame.outermost (⟨ending, [.empty v.last.endPoint]⟩ :: frames)] ∧
      u.metrics.sequencesAllocated = v.allocated + cost ∧
      u.metrics.peakThreads = max v.metrics.peakThreads 2 := by
  let eof := Token.eof (v.last.endPoint.after 1)
  obtain ⟨branches, resolved⟩ := h.resolves eof
  have marker : eof.isEof = true := rfl
  have takes : (waiting spec frames).takes eof v.last.endPoint = false := by
    simp only [waiting, Waiting.takes, refuses_marker wanted marker, Bool.false_and]
  have unfinished : (waiting spec frames).isComplete eof v.last.endPoint = false := rfl
  have left : (closing (.empty v.last.endPoint) frames).takes eof v.last.endPoint = false := rfl
  have done : (closing (.empty v.last.endPoint) frames).isComplete eof v.last.endPoint = true := rfl
  rw [finish_of_running h.runs]
  change ∃ u, v.finishAt eof = _ ∧ _
  simp only [finishAt, consume, resolved, gather, List.map_cons, List.map_nil, Waiting.meet, takes,
    unfinished, left, done, marker, Fate.madeBy, complete, countNodes, h.results_eq]
  exact ⟨_, rfl, rfl, rfl, rfl, rfl⟩

theorem feedToEnd (h : v.Lists spec frames cost) (wanted : spec.kind ≠ .eof) (tokens : List Token)
    (accepted : ∀ token ∈ tokens, spec.accepts token = true) :
    ∃ u last, v.feedToEnd tokens = (none, u) ∧ u.status = .finished ∧
      u.results = [Frame.outermost (⟨ending, [.empty last]⟩ ::
        (tokens.reverse.map (taken spec) ++ frames))] ∧
      u.metrics.sequencesAllocated = v.allocated + cost + 4 * tokens.length ∧
      u.metrics.peakThreads = max v.metrics.peakThreads 2 := by
  induction tokens generalizing v frames cost with
  | nil =>
    obtain ⟨u, ended, outcome⟩ := h.finish wanted
    exact ⟨u, v.last.endPoint, ended, outcome⟩
  | cons token tokens ih =>
    have first := accepted token List.mem_cons_self
    obtain ⟨u, fed, goesOn, allocated, peak⟩ := h.feed (plain_of_accepts wanted first) first
    obtain ⟨w, last, ended, finished, results, sequences, threads⟩ :=
      ih goesOn fun t mem => accepted t (List.mem_cons_of_mem token mem)
    refine ⟨w, last, (feedToEnd_of_fed fed).trans ended, finished, ?_, ?_, ?_⟩
    · rw [results, List.reverse_cons, List.map_append, List.append_assoc]
      rfl
    · rw [sequences, allocated, List.length_cons]
      omega
    · rw [threads, peak]
      omega

end Weave.Lists

namespace TokenList

variable (spec : Spec)

def builder : Builder :=
  let (item, b) := Builder.empty.token spec
  let (list, b) := b.list item none
  (b.define "main" list).2

def rule : Pattern := .sequence 0 (some "main") [.list (.token spec []) none []] (.nth 0) []

def grammar : Grammar := ⟨["main"], [("main", rule spec)], [], some "main"⟩

theorem builder_grammar : (builder spec).grammar = .ok (grammar spec) := rfl

theorem grammar_main : (grammar spec).mainPattern? = some (rule spec) := rfl

def around : List Frame :=
  [⟨⟨some "main", [items spec], .nth 0⟩, []⟩,
    ⟨⟨none, [.sequence (some "main") [items spec] (.nth 0) []], .nth 0⟩, []⟩]

/-- Entering the rule takes one node more. -/
theorem lists_ofPattern (g : Grammar) (limits : Limits) (start : Position)
    (room : 0 < limits.maxThreads) (steps : 8 ≤ limits.maxExpansions) :
    (Weave.ofPattern g limits (rule spec) start).Lists spec (around spec) 4 := by
  have closed : ∀ c, Frame.climb c (around spec) = none := fun _ => rfl
  refine .of_resolveStrands rfl rfl closed room (Nat.le_of_succ_le steps) fun place => ⟨1, ?_⟩
  obtain ⟨budget, budget_eq⟩ := Nat.exists_eq_add_of_le' steps
  have budget_eq : (Weave.ofPattern g limits (rule spec) start).limits.maxExpansions =
      budget + 8 := budget_eq
  rw [budget_eq]
  exact resolveStrands_goesOn ⟨g, limits, .empty start.endPoint, place⟩ budget 0 2 room closed

variable {spec}

theorem outermost_taken (last : Position) (tokens : List Token) :
    ∃ position, Frame.outermost (⟨ending, [.empty last]⟩ ::
        (tokens.reverse.map (taken spec) ++ around spec)) =
      .list position (tokens.map .token) := by
  obtain ⟨position, same⟩ := enclose_taken (around spec) tokens.reverse
    (Position.ofSpan last.source (Span.point last.span.start)) []
  refine ⟨position, ?_⟩
  rw [List.reverse_reverse, List.append_nil] at same
  exact same

end TokenList

/-- All of `tokens` became one list, and the parser took at most `a` nodes for each of them and `b`
more, and kept two derivations at most. -/
structure Parser.Collected (p : Parser) (tokens : List Token) (a b : Nat) : Prop where
  accepted : p.status = .finished ∧ p.hasError = false
  results : ∃ position, p.results.toList = [.list position (tokens.map .token)]
  nodes : p.metrics.sequencesAllocated ≤ a * tokens.length + b
  threads : p.metrics.peakThreads ≤ 2

theorem Parser.feedToEnd_collected (spec : Spec) (wanted : spec.kind ≠ .eof) (p₀ : Parser)
    (room : 0 < p₀.limits.maxThreads) (steps : 8 ≤ p₀.limits.maxExpansions) (start : Position)
    {tokens : List Token} (accepted : ∀ token ∈ tokens, spec.accepts token = true) :
    let run := (p₀.setup (rule spec) start).feedToEnd tokens
    run.1 = none ∧ run.2.Collected tokens 4 5 := by
  intro run
  have lists := lists_ofPattern spec p₀.grammar p₀.limits start room steps
  obtain ⟨u, last, ended, finished, results, nodes, threads⟩ :=
    lists.feedToEnd wanted tokens accepted
  rw [feedToEnd_setup] at ended
  obtain ⟨errs, rfl⟩ := Prod.mk.inj ended
  obtain ⟨position, list⟩ := outermost_taken last tokens
  rw [list] at results
  refine ⟨errs, ⟨finished, ?_⟩, ⟨position, results⟩, ?_, Nat.le_of_eq threads⟩
  · have results : run.2.results = #[.list position (tokens.map .token)] :=
      Array.toList_inj.mp results
    rw [hasError, results]
    exact Bool.and_false _
  · refine Nat.le_of_eq (Eq.trans nodes ?_)
    change 1 + 4 + 4 * tokens.length = 4 * tokens.length + 5
    omega

/-- There are bounds on the nodes for each token and on those besides, the same for all tokens that
may be asked for: however many of them there are, the list of tokens is parsed with one result, the
list of them in order, within these bounds and with two derivations at most, whether they are fed
one by one or read from a source. -/
theorem Parser.lists_take_linear_space :
    ∃ a b, ∀ spec : Spec, spec.kind ≠ .eof →
      ∃ g pattern, (builder spec).grammar = .ok g ∧ g.mainPattern? = some pattern ∧
        ∀ tokens : List Token, (∀ token ∈ tokens, spec.accepts token = true) →
          (∀ start,
            let run := ((Parser.ofGrammar g {}).setup pattern start).feedToEnd tokens
            run.1 = none ∧ run.2.Collected tokens a b) ∧
          ∀ (σ : Type) [TokenSource σ] (s : σ) (eof : Token), readAll s = (tokens, .ok eof) →
            let run := ((Parser.ofGrammar g {}).setup pattern (TokenSource.start s)).parse s
            run.1 = none ∧ run.2.1.Collected tokens a b := by
  refine ⟨4, 5, fun spec wanted => ⟨TokenList.grammar spec, rule spec, builder_grammar spec,
    grammar_main spec, fun tokens accepted => ?_⟩⟩
  have room : 0 < ({} : Limits).maxThreads := by decide
  have steps : 8 ≤ ({} : Limits).maxExpansions := by decide
  have fed := feedToEnd_collected spec wanted (.ofGrammar (TokenList.grammar spec) {}) room steps
  refine ⟨fun start => fed start accepted, fun σ _ s eof all => ?_⟩
  have pulled := parse_eq_feedToEnd
    ((ofGrammar (TokenList.grammar spec) {}).setup (rule spec) (TokenSource.start s)) s
    (congrArg Prod.snd all)
  rw [all] at pulled
  have outcome := fed (TokenSource.start s) accepted
  rw [← pulled] at outcome
  exact outcome

def threeWords : List Token := List.replicate 3 ⟨.word, "a", .detached⟩

theorem Parser.three_words_take_linear_space :
    ∃ a b, (⟨.word, none⟩ : Spec).kind ≠ .eof ∧
      ∃ g pattern, (builder ⟨.word, none⟩).grammar = .ok g ∧ g.mainPattern? = some pattern ∧
        (∀ token ∈ threeWords, (⟨.word, none⟩ : Spec).accepts token = true) ∧
          let run := ((Parser.ofGrammar g {}).setup pattern .detached).feedToEnd threeWords
          run.1 = none ∧ run.2.Collected threeWords a b := by
  have words : (⟨.word, none⟩ : Spec).kind ≠ .eof := by decide
  have accepted : ∀ token ∈ threeWords, (⟨.word, none⟩ : Spec).accepts token = true := by decide
  obtain ⟨a, b, linear⟩ := lists_take_linear_space
  obtain ⟨g, pattern, built, main, takes⟩ := linear ⟨.word, none⟩ words
  exact ⟨a, b, words, g, pattern, built, main, accepted, (takes threeWords accepted).1 .detached⟩

example :
    (((Parser.ofGrammar (grammar ⟨.word, none⟩) {}).setup (rule ⟨.word, none⟩)
      .detached).feedToEnd threeWords).2.metrics = ⟨3, 2, 4, 17⟩ := by decide +kernel

end Lockstep
