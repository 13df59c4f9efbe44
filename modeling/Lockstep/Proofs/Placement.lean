import Lockstep.Proofs.Mirroring
import Lockstep.Proofs.Pulling
import Lockstep.Proofs.Session

set_option autoImplicit false

namespace Lockstep

open Capture (unplaced)

abbrev SameError (e? e?' : Option ParseError) : Prop :=
  Option.Rel (fun e e' => e.unplaced = e'.unplaced) e? e?'

theorem SameError.unplaced_eq {e? e?' : Option ParseError} (h : SameError e? e?') :
    e?.map ParseError.unplaced = e?'.map ParseError.unplaced := by
  cases h with
  | some same => exact congrArg some same
  | none => rfl

/-- The two weaves are the same but for positions, in a grammar of plain rules. -/
structure Weave.Mirrors (v v' : Weave) : Prop where
  grammar_eq : v.grammar = v'.grammar
  limits_eq : v.limits = v'.limits
  strands : List.Forall₂ Strand.Mirrors v.strands v'.strands
  results_eq : v.results.map unplaced = v'.results.map unplaced
  diagnostics_eq : v.diagnostics.map Diagnostic.unplaced = v'.diagnostics.map Diagnostic.unplaced
  status_eq : v.status = v'.status
  metrics_eq : v.metrics = v'.metrics
  allocated_eq : v.allocated = v'.allocated
  rules : v.grammar.Plain

namespace Weave

theorem ofPattern_mirrors {g : Grammar} {pattern : Pattern} (rules : g.Plain)
    (plain : pattern.Plain) (limits : Limits) (start start' : Position) :
    (ofPattern g limits pattern start).Mirrors (ofPattern g limits pattern start') := by
  have blind := Matcher.blind_lower plain
  have root : Frame.Mirrors ⟨⟨none, [.lower pattern], .nth 0⟩, []⟩
      ⟨⟨none, [.lower pattern], .nth 0⟩, []⟩ := by
    refine ⟨rfl, rfl, Combiner.blind_nth 0, ?_⟩
    intro m mem
    rw [List.mem_singleton.mp mem]
    exact blind
  have strand : List.Forall₂ Strand.Mirrors (ofPattern g limits pattern start).strands
      (ofPattern g limits pattern start').strands :=
    .cons ⟨.next blind (.cons root .nil), rfl, Matcher.blind_unguarded⟩ .nil
  exact ⟨rfl, rfl, strand, rfl, rfl, rfl, rfl, rfl, rules⟩

section

variable {v v' : Weave} {token token' : Token} (h : v.Mirrors v')
include h

theorem Mirrors.isRunning_eq : v.isRunning = v'.isRunning := by
  rw [isRunning, isRunning, h.status_eq]

theorem Mirrors.halt : v.halt.Mirrors v'.halt :=
  { h with strands := .nil, status_eq := rfl }

theorem Mirrors.countNodes : v.countNodes.Mirrors v'.countNodes :=
  { h with metrics_eq := by simp only [Weave.countNodes, h.metrics_eq, h.allocated_eq] }

theorem Mirrors.countToken : v.countToken.Mirrors v'.countToken :=
  { h with metrics_eq := by simp only [Weave.countToken, h.metrics_eq] }

theorem Mirrors.gather {xs xs' : List Fate} (fates : List.Forall₂ Fate.Mirrors xs xs') :
    (v.gather xs).Mirrors (v'.gather xs') where
  __ := h
  results_eq := by
    simp only [Weave.gather, List.map_append, h.results_eq, Fate.results_mirrored fates]
  allocated_eq := by simp only [Weave.gather, h.allocated_eq, Fate.madeBy_mirrored fates]

theorem Mirrors.resolve (token token' : Token) :
    Mirrored (List.Forall₂ Waiting.Mirrors) (v.resolve token).1 (v'.resolve token').1 ∧
      (v.resolve token).2.Mirrors (v'.resolve token').2 := by
  have phases : Phase.Mirrors ⟨v.grammar, v.limits, .empty v.last.endPoint, token.position⟩
      ⟨v'.grammar, v'.limits, .empty v'.last.endPoint, token'.position⟩ :=
    ⟨h.grammar_eq, h.limits_eq, rfl, h.rules⟩
  have resolved := phases.resolveStrands v.limits.maxExpansions h.strands .nil v.metrics.branches
    v.allocated
  simp only [Weave.resolve]
  rw [← h.metrics_eq, ← h.allocated_eq, ← congrArg Limits.maxExpansions h.limits_eq]
  generalize Phase.resolveStrands _ _ v.strands _ _ _ = r at resolved ⊢
  generalize Phase.resolveStrands _ _ v'.strands _ _ _ = r' at resolved ⊢
  obtain ⟨outcome, branches, made⟩ := r
  obtain ⟨outcome', branches', made'⟩ := r'
  obtain ⟨outcomes, branches_eq, made_eq⟩ := resolved
  cases branches_eq
  cases made_eq
  cases outcomes with
  | error e =>
    exact ⟨.error e, { h with strands := .nil, metrics_eq := rfl, allocated_eq := rfl }⟩
  | ok ready =>
    refine ⟨.ok ready, { h with strands := .nil, metrics_eq := ?_, allocated_eq := rfl }⟩
    simp only [ready.length_eq]

theorem Mirrors.fruitless_eq : v.results.isEmpty = v'.results.isEmpty := by
  rw [← List.isEmpty_map (f := unplaced), h.results_eq, List.isEmpty_map]

theorem Mirrors.isEmpty_eq : v.strands.isEmpty = v'.strands.isEmpty := by
  have strands := h.strands
  generalize v.strands = ts at strands ⊢
  generalize v'.strands = ts' at strands ⊢
  cases strands <;> rfl

end

def SameConsumed (x x' : List Strand × List Failure) : Prop :=
  List.Forall₂ Strand.Mirrors x.1 x'.1 ∧ x.2 = x'.2

section

variable {v v' : Weave} {token token' : Token} (h : v.Mirrors v')
include h

variable (same : token.unplaced = token'.unplaced)
include same

theorem Mirrors.reject (failures : List Failure) :
    (v.reject failures token).Mirrors (v'.reject failures token') :=
  { h with diagnostics_eq := Failure.report_of_unplaced same failures, status_eq := rfl }

theorem Mirrors.consume :
    Mirrored SameConsumed (v.consume token).1 (v'.consume token').1 ∧
      (v.consume token).2.Mirrors (v'.consume token').2 := by
  have resolved := h.resolve token token'
  simp only [Weave.consume]
  generalize v.resolve token = r at resolved ⊢
  generalize v'.resolve token' = r' at resolved ⊢
  obtain ⟨outcome, u⟩ := r
  obtain ⟨outcome', u'⟩ := r'
  obtain ⟨outcomes, after⟩ := resolved
  cases outcomes with
  | error e => exact ⟨.error e, after⟩
  | @ok ready ready' waits =>
    have fates : List.Forall₂ Fate.Mirrors (ready.map (Waiting.meet token u.last.endPoint))
        (ready'.map (Waiting.meet token' u'.last.endPoint)) :=
      List.rel_map (fun _ _ mirrors => mirrors.meet same _ _) waits
    have consumed := And.intro (Fate.survivors_mirrored fates) (Fate.failures_mirrored fates)
    exact ⟨.ok consumed, after.gather fates⟩

theorem Mirrors.complete (failures : List Failure) :
    Mirrored Eq (v.complete token failures).1 (v'.complete token' failures).1 ∧
      (v.complete token failures).2.Mirrors (v'.complete token' failures).2 := by
  have resolved := h.resolve token token'
  simp only [Weave.complete, ← h.isEmpty_eq]
  split
  · exact ⟨.ok rfl, h⟩
  · generalize v.resolve token = r at resolved ⊢
    generalize v'.resolve token' = r' at resolved ⊢
    obtain ⟨outcome, u⟩ := r
    obtain ⟨outcome', u'⟩ := r'
    obtain ⟨outcomes, after⟩ := resolved
    cases outcomes with
    | error e => exact ⟨.error e, after⟩
    | @ok ready ready' waits =>
      have fates : List.Forall₂ Fate.Mirrors (ready.map (Waiting.close token u.last.endPoint))
          (ready'.map (Waiting.close token' u'.last.endPoint)) :=
        List.rel_map (fun _ _ mirrors => mirrors.close same _ _) waits
      exact ⟨.ok (by rw [Fate.failures_mirrored fates]), after.gather fates⟩

theorem Mirrors.finishAt :
    SameError (v.finishAt token).1 (v'.finishAt token').1 ∧
      (v.finishAt token).2.Mirrors (v'.finishAt token').2 := by
  have consumed := h.consume same
  simp only [Weave.finishAt]
  generalize v.consume token = r at consumed ⊢
  generalize v'.consume token' = r' at consumed ⊢
  obtain ⟨outcome, u⟩ := r
  obtain ⟨outcome', u'⟩ := r'
  obtain ⟨outcomes, after⟩ := consumed
  cases outcomes with
  | error e => exact ⟨.some e, after.halt⟩
  | @ok x x' consumed =>
    obtain ⟨survivors, failures⟩ := x
    obtain ⟨survivors', failures'⟩ := x'
    obtain ⟨strands, failures_eq⟩ := consumed
    cases failures_eq
    have living : Mirrors { u with strands := survivors } { u' with strands := survivors' } :=
      { after with strands := strands }
    have completed := living.complete same failures
    simp only
    generalize Weave.complete { u with strands := survivors } token failures = r at completed ⊢
    generalize Weave.complete { u' with strands := survivors' } token' failures = r'
      at completed ⊢
    obtain ⟨outcome, w⟩ := r
    obtain ⟨outcome', w'⟩ := r'
    obtain ⟨outcomes, after⟩ := completed
    cases outcomes with
    | error e => exact ⟨.some e, after.halt⟩
    | ok failures_eq =>
      cases failures_eq
      -- whether there are results decides how both end
      have counted : (Weave.countNodes { w with strands := [] }).Mirrors
          (Weave.countNodes { w' with strands := [] }) :=
        Mirrors.countNodes { after with strands := .nil }
      simp only
      generalize Weave.countNodes { w with strands := [] } = x at counted ⊢
      generalize Weave.countNodes { w' with strands := [] } = x' at counted ⊢
      simp only [← counted.fruitless_eq]
      split
      · exact ⟨.none, counted.reject same _⟩
      · exact ⟨.none, { counted with status_eq := rfl }⟩

omit same in
theorem Mirrors.finish :
    SameError v.finish.1 v'.finish.1 ∧ v.finish.2.Mirrors v'.finish.2 := by
  simp only [Weave.finish, ← h.isRunning_eq]
  split
  · exact h.finishAt rfl
  · exact ⟨.none, h⟩

theorem Mirrors.take :
    SameError (v.take token).1 (v'.take token').1 ∧
      (v.take token).2.Mirrors (v'.take token').2 := by
  have consumed := h.consume same
  simp only [Weave.take]
  generalize v.consume token = r at consumed ⊢
  generalize v'.consume token' = r' at consumed ⊢
  obtain ⟨outcome, u⟩ := r
  obtain ⟨outcome', u'⟩ := r'
  obtain ⟨outcomes, after⟩ := consumed
  cases outcomes with
  | error e => exact ⟨.some e, after.countToken.halt⟩
  | @ok x x' consumed =>
    obtain ⟨survivors, failures⟩ := x
    obtain ⟨survivors', failures'⟩ := x'
    obtain ⟨strands, failures_eq⟩ := consumed
    cases failures_eq
    have living : Mirrors
        { u.countToken.countNodes with last := token.position, strands := survivors }
        { u'.countToken.countNodes with last := token'.position, strands := survivors' } :=
      { after.countToken.countNodes with strands := strands }
    have dead : survivors.isEmpty = survivors'.isEmpty := living.isEmpty_eq
    simp only [← dead]
    refine ⟨.none, ?_⟩
    split
    · exact living.reject same failures
    · exact living

theorem Mirrors.feed :
    SameError (v.feed token).1 (v'.feed token').1 ∧
      (v.feed token).2.Mirrors (v'.feed token').2 := by
  simp only [Weave.feed, ← h.isRunning_eq, ← Token.isEof_of_unplaced same]
  split
  · exact ⟨.none, h⟩
  · split
    · exact h.finishAt same
    · exact h.take same

end

end Weave

def Call.unplaced : Call → Call
  | .feed token => .feed token.unplaced
  | .finish => .finish

def Observation.unplaced (o : Observation) : Observation :=
  { o with
    error? := o.error?.map ParseError.unplaced
    results := o.results.map Capture.unplaced
    diagnostics := o.diagnostics.map Diagnostic.unplaced }

namespace Parser

structure Mirrors (p p' : Parser) : Prop where
  sound : p.Sound
  sound' : p'.Sound
  weave : p.weave.Mirrors p'.weave

/-- Pulling the tokens of a buffer is feeding them and then ending the input. -/
theorem parse_ofTokens (p : Parser) (origin : Position) (tokens : List Token) :
    ((p.parse (TokenBuffer.ofTokens origin tokens)).1,
        (p.parse (TokenBuffer.ofTokens origin tokens)).2.1) =
      p.feedToEnd (tokens.filter fun t => !t.isEof) := by
  have all := TokenBuffer.readAll_eq _ (TokenBuffer.plain_ofTokens origin tokens)
  rw [parse_eq_feedToEnd p _ (congrArg Prod.snd all), all]
  rfl

def observedPulling {σ : Type} [TokenSource σ] (p : Parser) (s : σ) : Observation :=
  (p.parse s).2.1.observe (p.parse s).1

theorem setup_mirrors {g : Grammar} {limits : Limits} {p p' : Parser} (rules : g.Plain)
    (h : p.IsFor g limits) (h' : p'.IsFor g limits) {pattern : Pattern} (plain : pattern.Plain)
    (start start' : Position) :
    (p.setup pattern start).Mirrors (p'.setup pattern start') := by
  obtain ⟨sound, same⟩ := setup_sim p pattern start
  obtain ⟨sound', same'⟩ := setup_sim p' pattern start'
  refine ⟨sound, sound', ?_⟩
  rw [same, same', h.1, h.2, h'.1, h'.2]
  exact Weave.ofPattern_mirrors rules plain limits start start'

section

variable {p p' : Parser} (h : p.Mirrors p')
include h

theorem Mirrors.observe {error? error?' : Option ParseError} (same : SameError error? error?') :
    (p.observe error?).unplaced = (p'.observe error?').unplaced := by
  obtain ⟨_, _, mirrors⟩ := h
  simp only [observe_weave, Weave.observe, Observation.unplaced, same.unplaced_eq,
    mirrors.results_eq, mirrors.diagnostics_eq, mirrors.isRunning_eq, mirrors.strands.length_eq,
    mirrors.metrics_eq]

theorem Mirrors.hasError_eq : p.hasError = p'.hasError := by
  obtain ⟨-, -, mirrors⟩ := h
  have threads : p.threads.isEmpty = p'.threads.isEmpty := by
    rw [← List.isEmpty_map (f := Thread.strand p.store),
      ← List.isEmpty_map (f := Thread.strand p'.store)]
    exact mirrors.isEmpty_eq
  have results : p.results.isEmpty = p'.results.isEmpty := by
    rw [← Array.isEmpty_toList, ← Array.isEmpty_toList]
    exact mirrors.fruitless_eq
  have diagnostics : p.diagnostics.isEmpty = p'.diagnostics.isEmpty := by
    have reports := congrArg List.isEmpty mirrors.diagnostics_eq
    rw [List.isEmpty_map, List.isEmpty_map] at reports
    exact reports
  rw [hasError, hasError, threads, results, diagnostics]

theorem Mirrors.finish :
    SameError p.finish.1 p'.finish.1 ∧ p.finish.2.Mirrors p'.finish.2 := by
  obtain ⟨sound, same⟩ := finish_sim h.sound
  obtain ⟨sound', same'⟩ := finish_sim h.sound'
  have finished := h.weave.finish
  rw [same, same'] at finished
  exact ⟨finished.1, sound, sound', finished.2⟩

theorem Mirrors.feed {token token' : Token} (same : token.unplaced = token'.unplaced) :
    SameError (p.feed token).1 (p'.feed token').1 ∧
      (p.feed token).2.Mirrors (p'.feed token').2 := by
  obtain ⟨sound, runs⟩ := feed_sim h.sound token
  obtain ⟨sound', runs'⟩ := feed_sim h.sound' token'
  have fed := h.weave.feed same
  rw [runs, runs'] at fed
  exact ⟨fed.1, sound, sound', fed.2⟩

theorem Mirrors.call {call call' : Call} (same : call.unplaced = call'.unplaced) :
    SameError (p.call call).1 (p'.call call').1 ∧
      (p.call call).2.Mirrors (p'.call call').2 := by
  cases call with
  | feed token =>
    cases call' with
    | feed token' => exact h.feed (Call.feed.inj same)
    | finish => cases same
  | finish =>
    cases call' with
    | feed token' => cases same
    | finish => exact h.finish

theorem Mirrors.observed_eq {calls calls' : List Call}
    (same : calls.map Call.unplaced = calls'.map Call.unplaced) :
    (p.observed calls).map Observation.unplaced =
      (p'.observed calls').map Observation.unplaced := by
  induction calls generalizing calls' p p' with
  | nil => rw [List.map_eq_nil_iff.mp same.symm]; rfl
  | cons call calls ih =>
    cases calls' with
    | nil => cases same
    | cons call' calls' =>
      obtain ⟨first, rest⟩ := List.cons.inj same
      obtain ⟨errors, mirrors⟩ := h.call first
      simp only [observed, List.map_cons, mirrors.observe errors, ih mirrors rest]

theorem Mirrors.feedAll {tokens tokens' : List Token}
    (same : tokens.map Token.unplaced = tokens'.map Token.unplaced) :
    SameError (p.feedAll tokens).1 (p'.feedAll tokens').1 ∧
      (p.feedAll tokens).2.Mirrors (p'.feedAll tokens').2 := by
  induction tokens generalizing tokens' p p' with
  | nil => rw [List.map_eq_nil_iff.mp same.symm]; exact ⟨.none, h⟩
  | cons token tokens ih =>
    cases tokens' with
    | nil => cases same
    | cons token' tokens' =>
      obtain ⟨first, rest⟩ := List.cons.inj same
      have fed := h.feed first
      simp only [Parser.feedAll]
      generalize p.feed token = r at fed ⊢
      generalize p'.feed token' = r' at fed ⊢
      obtain ⟨error?, q⟩ := r
      obtain ⟨error?', q'⟩ := r'
      obtain ⟨errors, mirrors⟩ := fed
      cases errors with
      | some same => exact ⟨.some same, mirrors⟩
      | none => exact ih mirrors rest

theorem Mirrors.feedToEnd {tokens tokens' : List Token}
    (same : tokens.map Token.unplaced = tokens'.map Token.unplaced) :
    SameError (p.feedToEnd tokens).1 (p'.feedToEnd tokens').1 ∧
      (p.feedToEnd tokens).2.Mirrors (p'.feedToEnd tokens').2 := by
  have fed := h.feedAll same
  simp only [Parser.feedToEnd]
  generalize p.feedAll tokens = r at fed ⊢
  generalize p'.feedAll tokens' = r' at fed ⊢
  obtain ⟨error?, q⟩ := r
  obtain ⟨error?', q'⟩ := r'
  obtain ⟨errors, mirrors⟩ := fed
  cases errors with
  | some same => exact ⟨.some same, mirrors⟩
  | none => exact mirrors.finish

theorem Mirrors.parse {tokens tokens' : List Token}
    (same : tokens.map Token.unplaced = tokens'.map Token.unplaced) (origin origin' : Position) :
    SameError (p.parse (TokenBuffer.ofTokens origin tokens)).1
        (p'.parse (TokenBuffer.ofTokens origin' tokens')).1 ∧
      (p.parse (TokenBuffer.ofTokens origin tokens)).2.1.Mirrors
        (p'.parse (TokenBuffer.ofTokens origin' tokens')).2.1 := by
  have plain : (tokens.filter fun t => !t.isEof).map Token.unplaced =
      (tokens'.filter fun t => !t.isEof).map Token.unplaced := by
    have filtered := congrArg (List.filter fun t => !t.isEof) same
    rw [List.filter_map, List.filter_map] at filtered
    exact filtered
  have ended := h.feedToEnd plain
  rw [← parse_ofTokens p origin tokens, ← parse_ofTokens p' origin' tokens'] at ended
  exact ended

end

end Parser

namespace Grammar

abbrev SameResults (r r' : Except ParseError (List Capture)) : Prop :=
  Mirrored (fun results results' => results.map unplaced = results'.map unplaced) r r'

abbrev SameResult (r r' : Except ParseError Capture) : Prop :=
  Mirrored (fun result result' => result.unplaced = result'.unplaced) r r'

theorem single_mirrored {results results' : List Capture}
    (same : results.map unplaced = results'.map unplaced) :
    SameResult (single results) (single results') := by
  cases results with
  | nil =>
    rw [List.map_eq_nil_iff.mp same.symm]
    exact .error rfl
  | cons c cs =>
    cases results' with
    | nil => cases same
    | cons c' cs' =>
      obtain ⟨first, rest⟩ := List.cons.inj same
      cases cs with
      | nil =>
        rw [List.map_eq_nil_iff.mp rest.symm]
        exact .ok first
      | cons =>
        cases cs' with
        | nil => cases rest
        | cons => exact .error (congrArg ParseError.ambiguous same)

theorem SameResults.single {r r' : Except ParseError (List Capture)} (h : SameResults r r') :
    SameResult (r.bind Grammar.single) (r'.bind Grammar.single) := by
  cases h with
  | error same => exact .error same
  | ok same => exact single_mirrored same

theorem parse_mirrored {g : Grammar} (rules : g.Plain) (limits : Limits) (name? : Option String)
    {tokens tokens' : List Token} (same : tokens.map Token.unplaced = tokens'.map Token.unplaced)
    (start start' : Position) :
    SameResults (g.parse name? (TokenBuffer.ofTokens start tokens) limits)
      (g.parse name? (TokenBuffer.ofTokens start' tokens') limits) := by
  simp only [Grammar.parse]
  cases known : g.entry name? with
  | error e => exact .error rfl
  | ok pattern =>
    obtain ⟨name, here⟩ := lookup_of_entry known
    have fresh : (Parser.ofGrammar g limits).IsFor g limits := ⟨rfl, rfl⟩
    have mirrors := Parser.setup_mirrors rules fresh fresh (rules name pattern here) start start'
    have parsed := mirrors.parse same start start'
    -- a buffer starts a parse where it starts itself
    have began : ∀ s ts, TokenSource.start (TokenBuffer.ofTokens s ts) = s := fun _ _ => rfl
    simp only [began]
    generalize Parser.parse _ (TokenBuffer.ofTokens start tokens) = r at parsed ⊢
    generalize Parser.parse _ (TokenBuffer.ofTokens start' tokens') = r' at parsed ⊢
    obtain ⟨error?, q, b⟩ := r
    obtain ⟨error?', q', b'⟩ := r'
    obtain ⟨errors, mirrors⟩ := parsed
    cases errors with
    | some same => exact .error same
    | none =>
      simp only [← mirrors.hasError_eq]
      split
      · exact .error (congrArg ParseError.rejected mirrors.weave.diagnostics_eq)
      · exact .ok mirrors.weave.results_eq

end Grammar

namespace Parser

/-- In a grammar of plain rules it does not matter where tokens lie and where a parse is set up to
start: two parsers under the same limits show the same, positions erased, after each of any calls
and after pulling tokens, and so do parses in one call. -/
theorem positions_do_not_matter {g : Grammar} (rules : g.Plain) {limits : Limits} {p p' : Parser}
    (h : p.IsFor g limits) (h' : p'.IsFor g limits) {pattern : Pattern} (plain : pattern.Plain)
    (start start' : Position) :
    (∀ calls calls' : List Call, calls.map Call.unplaced = calls'.map Call.unplaced →
      ((p.setup pattern start).observed calls).map Observation.unplaced =
        ((p'.setup pattern start').observed calls').map Observation.unplaced) ∧
    ∀ tokens tokens' : List Token, tokens.map Token.unplaced = tokens'.map Token.unplaced →
      ∀ origin origin' : Position,
        ((p.setup pattern start).observedPulling (TokenBuffer.ofTokens origin tokens)).unplaced =
          ((p'.setup pattern start').observedPulling
            (TokenBuffer.ofTokens origin' tokens')).unplaced ∧
        ∀ name?,
          Grammar.SameResults (g.parse name? (TokenBuffer.ofTokens origin tokens) limits)
            (g.parse name? (TokenBuffer.ofTokens origin' tokens') limits) ∧
          Grammar.SameResult (g.parseSingle name? (TokenBuffer.ofTokens origin tokens) limits)
            (g.parseSingle name? (TokenBuffer.ofTokens origin' tokens') limits) := by
  have mirrors := setup_mirrors rules h h' plain start start'
  refine ⟨fun _ _ same => mirrors.observed_eq same, ?_⟩
  intro tokens tokens' same origin origin'
  obtain ⟨errors, parsed⟩ := mirrors.parse same origin origin'
  refine ⟨parsed.observe errors, fun name? => ?_⟩
  have results := Grammar.parse_mirrored rules limits name? same origin origin'
  exact ⟨results, results.single⟩

def commaList : Pattern :=
  .sequence 0 (some "list")
    [.list (.token ⟨.word, none⟩ [.lookahead ⟨.word, none⟩])
        (some (.token ⟨.symbol, some ","⟩ [])) [],
      .optional (.token ⟨.symbol, some ";"⟩ []) (some .listOf) []] .listOf []

def commaGrammar : Grammar := ⟨["list"], [("list", commaList)], [], some "list"⟩

def commaWords (a b c : Position) : List Token :=
  [⟨.word, "a", a⟩, ⟨.symbol, ",", b⟩, ⟨.word, "b", c⟩]

theorem commaList_plain : commaList.Plain := by
  have unguarded : ∀ p ∈ ([] : List Predicate), p.IsLookahead :=
    fun _ mem => absurd mem List.not_mem_nil
  have words : Pattern.Plain (.token ⟨.word, none⟩ [.lookahead ⟨.word, none⟩]) := by
    refine .token ?_
    intro p mem
    rw [List.mem_singleton.mp mem]
    exact ⟨_, rfl⟩
  have separated : ∀ p, some (Pattern.token ⟨.symbol, some ","⟩ []) = some p → p.Plain := by
    rintro p ⟨⟩
    exact .token unguarded
  have builds : ∀ build, some Combiner.listOf = some build → build.IsPlain := by
    rintro build ⟨⟩
    exact .inl rfl
  refine .sequence unguarded (.inl rfl) ?_
  simp only [List.forall_mem_cons]
  exact ⟨.list unguarded words separated, .optional unguarded (.token unguarded) builds,
    fun _ mem => absurd mem List.not_mem_nil⟩

theorem commaGrammar_plain : commaGrammar.Plain := by
  intro name p found
  obtain ⟨_, _, split, -⟩ := List.lookup_eq_some_iff.mp found
  have here : (name, p) ∈ commaGrammar.rules := by rw [split]; simp
  cases List.mem_singleton.mp here
  exact commaList_plain

def commaParser (start : Position) : Parser := (ofGrammar commaGrammar {}).setup commaList start

def commaCalls (a b c : Position) : List Call := (commaWords a b c).map Call.feed ++ [.finish]

/-- Two words and a comma in two layouts. There is one result, and it is the same in both. -/
theorem comma_words_in_two_layouts :
    ((commaParser .detached).observed (commaCalls .detached .detached .detached)).map
        Observation.unplaced =
      ((commaParser (.after .detached 9)).observed
        (commaCalls (.after .detached 4) .detached (.after .detached 2))).map
        Observation.unplaced ∧
    ((commaParser .detached).observed (commaCalls .detached .detached .detached)).map
        (fun o => o.results.length) = [0, 0, 0, 1] ∧
    Grammar.SameResult
      (commaGrammar.parseSingle none (TokenBuffer.ofTokens .detached
        (commaWords .detached .detached .detached)) {})
      (commaGrammar.parseSingle none (TokenBuffer.ofTokens (.after .detached 9)
        (commaWords (.after .detached 4) .detached (.after .detached 2))) {}) := by
  have fresh : (ofGrammar commaGrammar {}).IsFor commaGrammar {} := ⟨rfl, rfl⟩
  obtain ⟨pushing, pulling⟩ := positions_do_not_matter commaGrammar_plain fresh fresh
    commaList_plain .detached (.after .detached 9)
  have same : (commaWords .detached .detached .detached).map Token.unplaced =
      (commaWords (.after .detached 4) .detached (.after .detached 2)).map Token.unplaced := rfl
  exact ⟨pushing _ _ rfl, by decide +kernel, ((pulling _ _ same _ _).2 none).2⟩

end Parser

end Lockstep
