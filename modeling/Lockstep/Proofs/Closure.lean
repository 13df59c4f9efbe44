import Lockstep.Proofs.Reachable

set_option autoImplicit false

namespace Lockstep

open Builder (Built)

variable {b : Builder} {made : List Pattern} {g : Grammar}

namespace Grammar

theorem unfold_of_walk (closed : g.Closed g.Defines) {pattern : Pattern}
    (proper : pattern.Proper g.Defines) {c c' : Cursor} {w : Choices} {m : Matcher}
    {frames : List Frame} (walk : g.Walk (.ofPattern pattern) c w (.next m frames) c') :
    ∃ m', g.unfold m = .ok m' := by
  have here := (walk.proper closed (Spot.ofPattern_proper proper)).2 m frames rfl
  cases unfolds : g.unfold m with
  | ok m' => exact ⟨m', rfl⟩
  | error name =>
    obtain ⟨⟨p, known⟩, missing⟩ := Matcher.missing_of_unfold here unfolds
    rw [known] at missing
    cases missing

theorem not_arises_unknown (name : String) :
    ¬ ParseError.Arises g.Defines g (.unknownPattern name) := by
  rintro ⟨⟨p, known⟩, missing⟩
  rw [known] at missing
  cases missing

section

variable {σ : Type} [TokenSource σ] {rule? : Option String} {s : σ} {limits : Limits}
  {name : String}

theorem parse_ne_unknown (closed : g.Closed g.Defines)
    (known : ∀ entry, rule? = some entry → g.Defines entry) :
    g.parse rule? s limits ≠ .error (.unknownPattern name) := by
  intro failed
  rcases parse_error closed failed with missing | ⟨_, -, same⟩ | arises | ⟨_, same⟩
  · rcases entry_error missing with same | ⟨entry, rfl, missing, -⟩
    · cases same
    · obtain ⟨p, found⟩ := known entry rfl
      rw [found] at missing
      cases missing
  · cases same
  · exact not_arises_unknown name arises
  · cases same

theorem parseSingle_ne_unknown (closed : g.Closed g.Defines)
    (known : ∀ entry, rule? = some entry → g.Defines entry) :
    g.parseSingle rule? s limits ≠ .error (.unknownPattern name) := by
  intro failed
  cases outcome : g.parse rule? s limits with
  | error e =>
    rw [parseSingle_of_error outcome] at failed
    cases failed
    exact parse_ne_unknown closed known outcome
  | ok results =>
    rw [parseSingle_of_ok outcome] at failed
    match results with
    | [] => cases failed
    | [_] => cases failed
    | _ :: _ :: _ => cases failed

end

end Grammar

structure Parser.NeverUnknown (p : Parser) : Prop where
  feed : ∀ token name, (p.feed token).1 ≠ some (.unknownPattern name)
  finish : ∀ name, p.finish.1 ≠ some (.unknownPattern name)
  parse : ∀ {σ : Type} [TokenSource σ] (s : σ) name, (p.parse s).1 ≠ some (.unknownPattern name)

theorem Parser.Settled.neverUnknown {clean : Bool} {p : Parser}
    (h : p.Settled g.Defines g clean) (closed : g.Closed g.Defines) : p.NeverUnknown := by
  refine ⟨?_, ?_, ?_⟩
  · intro token name failed
    exact Grammar.not_arises_unknown name ((h.feed closed token).2 _ failed)
  · intro name failed
    exact Grammar.not_arises_unknown name ((h.finish closed).2 _ failed)
  · intro σ _ s name failed
    rcases h.parse_error closed failed with arises | ⟨_, same⟩
    · exact Grammar.not_arises_unknown name arises
    · cases same

namespace Grammar

/-- In a grammar that was built, whatever stands anywhere inside a rule is not empty, and if it is a
reference, it is one to a rule; the start is a rule. So unfolding succeeds wherever a derivation of a
pattern comes that its builder made, and no call asks for a rule that there is not. -/
theorem no_reference_dangles (built : b.Built made) (ok : b.grammar = .ok g) :
    (∀ name p (q : Pattern), g.lookup? name = some p → q.Occurs p → q.Grounded g.Defines) ∧
    (∀ name, g.main? = some name → g.Defines name) ∧
    (∀ pattern ∈ made, ∀ start tokens w m frames c,
      g.Walk (.ofPattern pattern) ⟨start, [], tokens⟩ w (.next m frames) c →
        ∃ m', g.unfold m = .ok m') ∧
    (∀ limits clean p, Parser.Reachable (· ∈ made) g limits clean p → p.NeverUnknown) ∧
    ∀ {σ : Type} [TokenSource σ] (rule? : Option String) (s : σ) (limits : Limits) (name : String),
      (∀ entry, rule? = some entry → g.Defines entry) →
        g.parse rule? s limits ≠ .error (.unknownPattern name) ∧
          g.parseSingle rule? s limits ≠ .error (.unknownPattern name) := by
  have closed := built.closed ok
  have proper := built.proper_of_grammar ok
  refine ⟨?_, (Builder.grammar_eq_ok ok).2.2, ?_, ?_, ?_⟩
  · intro name p q found inside
    exact (closed name p found).grounded inside
  · intro pattern mem start tokens w m frames c walk
    exact unfold_of_walk closed (proper pattern mem) walk
  · intro limits clean p reachable
    exact (reachable.settled closed proper).neverUnknown closed
  · intro σ _ rule? s limits name known
    exact ⟨parse_ne_unknown closed known, parseSingle_ne_unknown closed known⟩

open Builder (wordsGrammar wordsPattern wordsBuilder_built wordsBuilder_grammar)

theorem reference_to_words :
    (∃ m, wordsGrammar.unfold (.rule "main" []) = .ok m) ∧
      wordsGrammar.Defines "main" ∧
      ((Parser.ofGrammar wordsGrammar {}).setup wordsPattern .detached).NeverUnknown ∧
      wordsGrammar.parse (some "main") (TokenBuffer.ofTokens .detached [Parser.wordA, Parser.wordA])
        {} ≠ .error (.unknownPattern "main") := by
  obtain ⟨grounded, start, unfolds, calls, parses⟩ :=
    no_reference_dangles wordsBuilder_built wordsBuilder_grammar
  have inside : (Pattern.reference "main" []).Occurs wordsPattern :=
    .option List.mem_cons_self (.part (List.mem_cons_of_mem _ List.mem_cons_self) .self)
  have defines : wordsGrammar.Defines "main" := grounded "main" wordsPattern _ rfl inside
  refine ⟨?_, start "main" rfl, ?_, ?_⟩
  · -- The reference is what comes after one word.
    have walk : wordsGrammar.Walk (.ofPattern wordsPattern) ⟨.detached, [], [Parser.wordA]⟩ [0]
        (.next (.rule "main" []) _) _ :=
      .stride (.branch rfl) (.stride .sequence (.stride (.token rfl rfl rfl) .stay))
    exact unfolds wordsPattern List.mem_cons_self _ _ _ _ _ _ walk
  · exact calls {} true _ (.setup .fresh List.mem_cons_self .detached)
  · refine (parses (some "main") _ {} "main" ?_).1
    intro entry same
    cases same
    exact defines

end Grammar

end Lockstep
