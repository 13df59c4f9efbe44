import Lockstep.Parse
import Lockstep.Proofs.Built
import Lockstep.Proofs.Outcome
import Lockstep.Proofs.Pulling

set_option autoImplicit false

namespace Lockstep

def Pattern.Made (pattern : Pattern) : Prop :=
  ∃ (b : Builder) (made : List Pattern), b.Built made ∧ pattern ∈ made

theorem Pattern.Made.proper {pattern : Pattern} (h : pattern.Made) :
    pattern.Proper fun _ => True := by
  obtain ⟨b, made, built, mem⟩ := h
  exact (built.sound.proper pattern mem).mono fun _ _ => trivial

theorem Grammar.Closed.mono {defined defined' : String → Prop} {g : Grammar}
    (more : ∀ name, defined name → defined' name) (closed : g.Closed defined) :
    g.Closed defined' :=
  fun name p found => (closed name p found).mono more

namespace Parser

/-- Calls lead from a new parser for `g` to `p`, the patterns for it to be set up with being
`allowed`. It is `clean` when it was set up and no call since then gave an error. -/
inductive Reachable (allowed : Pattern → Prop) (g : Grammar) (limits : Limits) :
    (clean : Bool) → Parser → Prop where
  | fresh : Reachable allowed g limits false (ofGrammar g limits)
  | setup {clean : Bool} {p : Parser} {pattern : Pattern} (h : Reachable allowed g limits clean p)
      (known : allowed pattern) (start : Position) :
    Reachable allowed g limits true (p.setup pattern start)
  | feed {clean : Bool} {p : Parser} (h : Reachable allowed g limits clean p) (token : Token) :
    Reachable allowed g limits (clean && (p.feed token).1.isNone) (p.feed token).2
  | finish {clean : Bool} {p : Parser} (h : Reachable allowed g limits clean p) :
    Reachable allowed g limits (clean && p.finish.1.isNone) p.finish.2
  | parse {clean : Bool} {p : Parser} {σ : Type} [TokenSource σ]
      (h : Reachable allowed g limits clean p) (s : σ) :
    Reachable allowed g limits (clean && (p.parse s).1.isNone) (p.parse s).2.1

section

variable {σ : Type} [TokenSource σ] {p : Parser} {clean : Bool}

/-- What feeding, ending and halting preserve, pulling tokens preserves. -/
theorem parse_preserves {motive : Bool → Parser → Prop}
    (feed : ∀ clean p token, motive clean p →
      motive (clean && (Parser.feed p token).1.isNone) (Parser.feed p token).2)
    (finish : ∀ clean p, motive clean p →
      motive (clean && (Parser.finish p).1.isNone) (Parser.finish p).2)
    (halt : ∀ clean p, motive clean p → motive false (Parser.halt p))
    (h : motive clean p) (s : σ) :
    motive (clean && (p.parse s).1.isNone) (p.parse s).2.1 := by
  have stays : ∀ {q : Parser} {s : σ} {clean : Bool}, q.isRunning = false → motive clean q →
      motive (clean && (q.parse s).1.isNone) (q.parse s).2.1 := by
    intro q s clean stopped h
    rw [parse_of_stopped stopped, Option.isNone_none, Bool.and_true]
    exact h
  induction s using TokenSource.pull_induction generalizing p clean with
  | failed s fault s' step =>
    cases runs : p.isRunning with
    | false => exact stays runs h
    | true =>
      rw [parse_of_error runs step, Option.isNone_some, Bool.and_false]
      exact halt clean p h
  | ended s token s' step marker =>
    cases runs : p.isRunning with
    | false => exact stays runs h
    | true =>
      rw [parse_of_end runs step marker]
      exact finish clean p h
  | pulled s token s' step plain ih =>
    cases runs : p.isRunning with
    | false => exact stays runs h
    | true =>
      have fed := feed clean p token h
      rw [parse_of_token runs step plain]
      generalize p.feed token = r at fed
      obtain ⟨error?, q⟩ := r
      cases error? with
      | some e => exact fed
      | none =>
        rw [Option.isNone_none, Bool.and_true] at fed
        exact ih fed

theorem parse_keeps {Inv : Parser → Prop} (feed : ∀ p token, Inv p → Inv (Parser.feed p token).2)
    (finish : ∀ p, Inv p → Inv (Parser.finish p).2) (halt : ∀ p, Inv p → Inv (Parser.halt p))
    (h : Inv p) (s : σ) : Inv (p.parse s).2.1 :=
  @parse_preserves _ _ _ true (fun _ => Inv) (fun _ => feed) (fun _ => finish) (fun _ => halt) h s

theorem finishAt_stops (p : Parser) (eof : Token) : (p.finishAt eof).2.isRunning = false := by
  simp only [finishAt]
  split
  · rfl
  · split
    · rfl
    · split <;> rfl

theorem finish_stops (p : Parser) : p.finish.2.isRunning = false := by
  simp only [finish]
  split
  · exact finishAt_stops p _
  · next stopped => exact Bool.eq_false_iff.mpr stopped

theorem parse_stops {s : σ} (ok : (p.parse s).1 = none) : (p.parse s).2.1.isRunning = false := by
  have outcome := parse_eq p s
  rw [ok] at outcome
  split at outcome
  · cases outcome
  · next q fed =>
    split at outcome
    · split at outcome
      · cases outcome
      · have same : (p.parse s).2.1 = q.finish.2 := congrArg Prod.snd outcome
        rw [same]
        exact finish_stops q
    · next stopped =>
      cases outcome
      exact Bool.eq_false_iff.mpr stopped

end

structure Settled (defined : String → Prop) (g : Grammar) (clean : Bool) (p : Parser) : Prop where
  sound : p.Sound
  weave : p.weave.Settled defined g clean

variable {defined : String → Prop} {allowed : Pattern → Prop} {g : Grammar} {limits : Limits}
  {clean : Bool} {p : Parser}

theorem ofGrammar_settled : (ofGrammar g limits).Settled defined g false := by
  refine ⟨⟨Store.empty_sound, fun _ mem => absurd mem List.not_mem_nil⟩,
    ⟨rfl, fun _ mem => absurd mem List.not_mem_nil, ?_, fun _ => rfl, ?_⟩⟩
  · intro runs
    cases runs
  · intro isClean
    cases isClean

theorem Settled.setup (h : p.Settled defined g clean) {pattern : Pattern}
    (proper : pattern.Proper defined) (start : Position) :
    (p.setup pattern start).Settled defined g true := by
  obtain ⟨sound, same⟩ := setup_sim p pattern start
  refine ⟨sound, ?_⟩
  have grammar_eq : p.grammar = g := h.weave.grammar_eq
  rw [same, grammar_eq]
  exact Weave.ofPattern_settled proper p.limits start

theorem Settled.halt (h : p.Settled defined g clean) : p.halt.Settled defined g false :=
  ⟨(halt_sim h.sound.1).1, Weave.halt_settled h.weave.grammar_eq⟩

theorem Settled.feed (h : p.Settled defined g clean) (closed : g.Closed defined) (token : Token) :
    (p.feed token).2.Settled defined g (clean && (p.feed token).1.isNone) ∧
      ∀ e, (p.feed token).1 = some e → e.Arises defined g := by
  obtain ⟨sound, same⟩ := feed_sim h.sound token
  have settles := h.weave.feed closed token
  rw [same] at settles
  exact ⟨⟨sound, settles.1⟩, settles.2⟩

theorem Settled.finish (h : p.Settled defined g clean) (closed : g.Closed defined) :
    p.finish.2.Settled defined g (clean && p.finish.1.isNone) ∧
      ∀ e, p.finish.1 = some e → e.Arises defined g := by
  obtain ⟨sound, same⟩ := finish_sim h.sound
  have settles := h.weave.finish closed
  rw [same] at settles
  exact ⟨⟨sound, settles.1⟩, settles.2⟩

theorem Settled.feedAll (h : p.Settled defined g clean) (closed : g.Closed defined)
    (tokens : List Token) :
    (p.feedAll tokens).2.Settled defined g (clean && (p.feedAll tokens).1.isNone) ∧
      ∀ e, (p.feedAll tokens).1 = some e → e.Arises defined g := by
  induction tokens generalizing p clean with
  | nil =>
    refine ⟨?_, fun e found => nomatch found⟩
    simpa only [Parser.feedAll, Option.isNone_none, Bool.and_true] using h
  | cons token tokens ih =>
    have fed := h.feed closed token
    simp only [Parser.feedAll]
    generalize p.feed token = r at fed
    obtain ⟨error?, q⟩ := r
    cases error? with
    | some e => exact fed
    | none =>
      rw [Option.isNone_none, Bool.and_true] at fed
      exact ih fed.1

section

variable {σ : Type} [TokenSource σ]

theorem Settled.parse (h : p.Settled defined g clean) (closed : g.Closed defined) (s : σ) :
    (p.parse s).2.1.Settled defined g (clean && (p.parse s).1.isNone) :=
  parse_preserves (motive := fun clean p => p.Settled defined g clean)
    (fun _ _ token h => (h.feed closed token).1) (fun _ _ h => (h.finish closed).1)
    (fun _ _ h => h.halt) h s

theorem Settled.parse_error (h : p.Settled defined g clean) (closed : g.Closed defined) {s : σ}
    {e : ParseError} (failed : (p.parse s).1 = some e) :
    e.Arises defined g ∨ ∃ fault, e = .lexical fault := by
  have outcome := congrArg Prod.fst (parse_eq p s)
  obtain ⟨settled, arises⟩ := h.feedAll closed (TokenSource.readAll s).1
  simp only [failed] at outcome
  generalize p.feedAll (TokenSource.readAll s).1 = r at *
  obtain ⟨error?, q⟩ := r
  cases error? with
  | some e' =>
    cases outcome
    exact .inl (arises e rfl)
  | none =>
    simp only at outcome
    split at outcome
    · split at outcome
      · next fault _ =>
        cases outcome
        exact .inr ⟨fault, rfl⟩
      · exact .inl ((settled.finish closed).2 e outcome.symm)
    · cases outcome

end

theorem Reachable.settled (h : Reachable allowed g limits clean p) (closed : g.Closed defined)
    (proper : ∀ pattern, allowed pattern → pattern.Proper defined) :
    p.Settled defined g clean := by
  induction h with
  | fresh => exact ofGrammar_settled
  | setup _ known start ih => exact ih.setup (proper _ known) start
  | feed _ token ih => exact (ih.feed closed token).1
  | finish _ ih => exact (ih.finish closed).1
  | parse _ s ih => exact ih.parse closed s

structure Stands (clean : Bool) (p : Parser) : Prop where
  running : p.isRunning = true → p.threads ≠ [] ∧ p.results = #[] ∧ p.diagnostics = []
  /-- Without an error it stops with results or with diagnostics. -/
  stopped : clean = true → p.isRunning = false → p.threads = [] ∧
    ((p.results ≠ #[] ∧ p.diagnostics = [] ∧ p.hasError = false) ∨
      (p.results = #[] ∧ p.diagnostics ≠ [] ∧ p.hasError = true))
  hasError_iff : p.hasError = true ↔ p.results = #[] ∧ p.diagnostics ≠ []
  feed_eq : p.isRunning = false → ∀ token, p.feed token = (none, p)
  finish_eq : p.isRunning = false → p.finish = (none, p)
  parse_eq : p.isRunning = false → ∀ {σ : Type} [TokenSource σ] (s : σ), p.parse s = (none, p, s)

theorem Settled.stands (h : p.Settled defined g clean) : p.Stands clean := by
  obtain ⟨-, -, -, running, stopped, outcome⟩ := h
  have threads : p.weave.strands = [] ↔ p.threads = [] := List.map_eq_nil_iff
  have results : p.weave.results = [] ↔ p.results = #[] := Array.toList_eq_nil_iff
  have diagnostics : p.weave.diagnostics = p.diagnostics := rfl
  have runs : p.weave.isRunning = p.isRunning := rfl
  simp only [ne_eq, threads, results, diagnostics, runs] at running stopped outcome
  -- Diagnostics are found only where there are no threads.
  have silent : p.diagnostics ≠ [] → p.threads = [] := by
    intro some
    cases running? : p.isRunning with
    | true => exact absurd (running running?).2.2 some
    | false => exact stopped running?
  have hasError_iff : p.hasError = true ↔ p.results = #[] ∧ p.diagnostics ≠ [] := by
    simp only [hasError, Bool.and_eq_true, Bool.not_eq_true', List.isEmpty_eq_false_iff,
      List.isEmpty_iff, Array.isEmpty_iff]
    constructor
    · rintro ⟨⟨some, -⟩, none⟩
      exact ⟨none, some⟩
    · rintro ⟨none, some⟩
      exact ⟨⟨some, silent some⟩, none⟩
  refine ⟨running, ?_, hasError_iff, feed_of_stopped, finish_of_stopped, ?_⟩
  · intro isClean idle
    refine ⟨stopped idle, ?_⟩
    rcases outcome isClean idle with ⟨yielded, none⟩ | ⟨none, some⟩
    · exact .inl ⟨yielded, none, Bool.eq_false_iff.mpr fun h => (hasError_iff.mp h).2 none⟩
    · exact .inr ⟨none, some, hasError_iff.mpr ⟨none, some⟩⟩
  · intro idle σ _ s
    exact parse_of_stopped idle s

end Parser

namespace Grammar

variable {σ : Type} [TokenSource σ] {g : Grammar} {defined : String → Prop}

theorem lookup_of_entry {name? : Option String} {pattern : Pattern}
    (found : g.entry name? = .ok pattern) : ∃ name, g.lookup? name = some pattern := by
  cases name? with
  | some name =>
    simp only [entry] at found
    split at found
    · next here => cases found; exact ⟨name, here⟩
    · cases found
  | none =>
    simp only [entry] at found
    split at found
    · next here =>
      cases found
      obtain ⟨name, -, here⟩ := Option.bind_eq_some_iff.mp here
      exact ⟨name, here⟩
    · cases found

theorem entry_error {name? : Option String} {e : ParseError} (missing : g.entry name? = .error e) :
    e = .noEntryPattern ∨ ∃ name, name? = some name ∧ g.lookup? name = none ∧
      e = .unknownPattern name := by
  cases name? with
  | some name =>
    simp only [entry] at missing
    split at missing
    · cases missing
    · next here => cases missing; exact .inr ⟨name, rfl, here, rfl⟩
  | none =>
    simp only [entry] at missing
    split at missing
    · cases missing
    · cases missing; exact .inl rfl

theorem parse_error {name? : Option String} {s : σ} {limits : Limits} {e : ParseError}
    (closed : g.Closed defined) (failed : g.parse name? s limits = .error e) :
    g.entry name? = .error e ∨ (∃ diagnostics, diagnostics ≠ [] ∧ e = .rejected diagnostics) ∨
      e.Arises defined g ∨ ∃ fault, e = .lexical fault := by
  simp only [parse] at failed
  split at failed
  · next missing => cases failed; exact .inl missing
  · next pattern found =>
    obtain ⟨name, rule⟩ := lookup_of_entry found
    have start : Parser.Settled defined g true
        ((Parser.ofGrammar g limits).setup pattern (TokenSource.start s)) :=
      Parser.ofGrammar_settled.setup (closed name pattern rule) _
    split at failed
    · next pulled =>
      cases failed
      exact .inr (.inr (start.parse_error closed (congrArg Prod.fst pulled)))
    · next p rest pulled =>
      have settled := start.parse closed s
      simp only [pulled] at settled
      split at failed
      · next rejected =>
        cases failed
        exact .inr (.inl ⟨p.diagnostics, (settled.stands.hasError_iff.mp rejected).2, rfl⟩)
      · cases failed

theorem parse_ok {name? : Option String} {s : σ} {limits : Limits} {results : List Capture}
    (closed : g.Closed defined) (ok : g.parse name? s limits = .ok results) : results ≠ [] := by
  simp only [parse] at ok
  split at ok
  · cases ok
  · next pattern found =>
    obtain ⟨name, rule⟩ := lookup_of_entry found
    have start : Parser.Settled defined g true
        ((Parser.ofGrammar g limits).setup pattern (TokenSource.start s)) :=
      Parser.ofGrammar_settled.setup (closed name pattern rule) _
    split at ok
    · cases ok
    · next p rest pulled =>
      have settled := start.parse closed s
      have idle := Parser.parse_stops (congrArg Prod.fst pulled)
      simp only [pulled] at settled idle
      split at ok
      · cases ok
      · next accepted =>
        cases ok
        rcases (settled.stands.stopped rfl idle).2 with ⟨some, -, -⟩ | ⟨-, -, rejected⟩
        · exact fun none => some (Array.toList_eq_nil_iff.mp none)
        · exact absurd rejected accepted

theorem parseSingle_of_ok {name? : Option String} {s : σ} {limits : Limits}
    {results : List Capture} (ok : g.parse name? s limits = .ok results) :
    g.parseSingle name? s limits = single results := by
  simp only [parseSingle, ok, Except.bind]

theorem parseSingle_of_error {name? : Option String} {s : σ} {limits : Limits} {e : ParseError}
    (failed : g.parse name? s limits = .error e) : g.parseSingle name? s limits = .error e := by
  simp only [parseSingle, failed, Except.bind]

theorem single_eq_ok_iff {results : List Capture} {c : Capture} :
    single results = .ok c ↔ results = [c] := by
  match results with
  | [] => simp [single]
  | [_] => simp [single]
  | _ :: _ :: _ => simp [single]

theorem single_eq_ambiguous_iff {results many : List Capture} :
    single results = .error (.ambiguous many) ↔ results = many ∧ 2 ≤ results.length := by
  match results with
  | [] => simp [single]
  | [_] => simp [single]
  | _ :: _ :: _ => simp [single]

structure Answers (g : Grammar) (limits : Limits) (name? : Option String) (s : σ) : Prop where
  results_ne : g.parse name? s limits ≠ .ok []
  diagnostics_ne : g.parse name? s limits ≠ .error (.rejected [])
  single_iff : ∀ c, g.parseSingle name? s limits = .ok c ↔ g.parse name? s limits = .ok [c]
  ambiguous_iff : ∀ results, g.parseSingle name? s limits = .error (.ambiguous results) ↔
    g.parse name? s limits = .ok results ∧ 2 ≤ results.length

theorem answers (closed : g.Closed defined) (limits : Limits) (name? : Option String) (s : σ) :
    g.Answers limits name? s := by
  -- No parse is ambiguous or rejected without a reason; only the choice of one result can be.
  have errors : ∀ e, g.parse name? s limits = .error e →
      e ≠ .rejected [] ∧ ∀ results, e ≠ .ambiguous results := by
    intro e failed
    rcases parse_error closed failed with missing | ⟨diagnostics, some, rfl⟩ | arises | ⟨_, rfl⟩
    · rcases entry_error missing with rfl | ⟨_, -, -, rfl⟩
      · exact ⟨nofun, nofun⟩
      · exact ⟨nofun, nofun⟩
    · exact ⟨fun same => by cases same; exact some rfl, nofun⟩
    · cases e with
      | rejected | ambiguous => cases arises
      | _ => exact ⟨nofun, nofun⟩
    · exact ⟨nofun, nofun⟩
  refine ⟨fun ok => parse_ok closed ok rfl, fun failed => (errors _ failed).1 rfl, ?_, ?_⟩
  · intro c
    cases outcome : g.parse name? s limits with
    | ok results => simp only [parseSingle_of_ok outcome, single_eq_ok_iff, Except.ok.injEq]
    | error e => simp only [parseSingle_of_error outcome, reduceCtorEq]
  · intro many
    cases outcome : g.parse name? s limits with
    | ok results =>
      simp only [parseSingle_of_ok outcome, single_eq_ambiguous_iff, Except.ok.injEq]
      refine and_congr_right fun same => ?_
      rw [same]
    | error e =>
      have plain := (errors e outcome).2 many
      simp only [parseSingle_of_error outcome, Except.error.injEq, plain, reduceCtorEq, false_and]

end Grammar

namespace Parser

variable {b : Builder} {made : List Pattern} {g : Grammar}

/-- Calls with patterns that were built leave a parser that runs and has threads, or one that has
stopped; without an error it has then come to results or diagnostics, and it takes no more tokens. A
parse in one call gives results or says why there are none. -/
theorem calls_leave_an_outcome (built : b.Built made) (ok : b.grammar = .ok g) (limits : Limits) :
    (∀ clean p, Reachable Pattern.Made g limits clean p → p.Stands clean) ∧
      ∀ {σ : Type} [TokenSource σ] (name? : Option String) (s : σ), g.Answers limits name? s := by
  have closed := built.closed ok
  refine ⟨?_, fun name? s => Grammar.answers closed limits name? s⟩
  intro clean p reachable
  exact (reachable.settled (closed.mono fun _ _ => trivial) fun _ => Pattern.Made.proper).stands

open Builder (wordsGrammar wordsPattern wordsBuilder_built wordsBuilder_grammar)

def fedWords : Option ParseError × Parser :=
  ((ofGrammar wordsGrammar {}).setup wordsPattern .detached).feed wordA

theorem outcome_of_one_word :
    fedWords.2.isRunning = true ∧ fedWords.2.Stands true ∧
      fedWords.2.finish.2.results.size = 1 ∧ fedWords.2.finish.2.Stands true ∧
      wordsGrammar.Answers {} none (TokenBuffer.ofTokens .detached [wordA]) := by
  obtain ⟨stands, answers⟩ :=
    calls_leave_an_outcome wordsBuilder_built wordsBuilder_grammar {}
  have made : wordsPattern.Made := ⟨_, _, wordsBuilder_built, List.mem_cons_self⟩
  have fed : Reachable Pattern.Made wordsGrammar {} (true && fedWords.1.isNone) fedWords.2 :=
    .feed (.setup .fresh made .detached) wordA
  have ended := fed.finish
  have ok : fedWords.1.isNone = true := by decide +kernel
  have ok' : fedWords.2.finish.1.isNone = true := by decide +kernel
  rw [ok] at fed ended
  rw [ok'] at ended
  exact ⟨by decide +kernel, stands _ _ fed, by decide +kernel, stands _ _ ended, answers none _⟩

end Parser

end Lockstep
