import Lockstep.Proofs.Results

set_option autoImplicit false

/-!
Pulling tokens from a source and pushing them one by one come to the same. A source is read as the
tokens before its first end marker or error, and what stands there. The end marker of a buffer and
that of a text stand where the parser itself would end the input. A source that counts how often it
is asked shows that no token is requested after the one at which the parser stops.
-/

namespace Lockstep

open Grammar (lastPlace lastPlace_append)

namespace TokenSource

variable {σ : Type} [TokenSource σ]

/-- The tokens before the first end marker or error, and that marker or error. -/
def readAll (s : σ) : List Token × Except LexError Token :=
  match pulled : next s with
  | (.error e, _) => ([], .error e)
  | (.ok token, rest) =>
    if ended : token.isEof then ([], .ok token)
    else
      have := remaining_lt pulled (Bool.eq_false_iff.2 ended)
      let (tokens, ending) := readAll rest
      (token :: tokens, ending)
termination_by remaining s

theorem pull_induction {motive : σ → Prop}
    (failed : ∀ s e s', next s = (.error e, s') → motive s)
    (ended : ∀ s token s', next s = (.ok token, s') → token.isEof = true → motive s)
    (pulled : ∀ s token s', next s = (.ok token, s') → token.isEof = false → motive s' → motive s)
    (s : σ) : motive s := by
  induction size : remaining s using Nat.strongRecOn generalizing s with
  | ind n ih =>
    cases step : next s with
    | mk outcome s' =>
      cases outcome with
      | error e => exact failed s e s' step
      | ok token =>
        cases marker : token.isEof with
        | true => exact ended s token s' step marker
        | false =>
          have shorter : remaining s' < n := size ▸ remaining_lt step marker
          exact pulled s token s' step marker (ih _ shorter s' rfl)

variable {s s' : σ} {token : Token}

theorem readAll_of_error {e : LexError} (step : next s = (.error e, s')) :
    readAll s = ([], .error e) := by
  rw [readAll]
  split
  · next same => rw [step] at same; cases same; rfl
  · next same => rw [step] at same; cases same

theorem readAll_of_end (step : next s = (.ok token, s')) (marker : token.isEof = true) :
    readAll s = ([], .ok token) := by
  rw [readAll]
  split
  · next same => rw [step] at same; cases same
  · next same =>
    rw [step] at same
    cases same
    exact dif_pos marker

theorem readAll_of_token (step : next s = (.ok token, s')) (plain : token.isEof = false) :
    readAll s = (token :: (readAll s').1, (readAll s').2) := by
  rw [readAll]
  split
  · next same => rw [step] at same; cases same
  · next same =>
    rw [step] at same
    cases same
    exact dif_neg (Bool.eq_false_iff.mp plain)

theorem plain_of_readAll (s : σ) : ∀ token ∈ (readAll s).1, token.isEof = false := by
  induction s using pull_induction with
  | failed s e s' step => simp [readAll_of_error step]
  | ended s token s' step marker => simp [readAll_of_end step marker]
  | pulled s token s' step plain ih =>
    rw [readAll_of_token step plain]
    intro t mem
    rcases List.mem_cons.mp mem with rfl | later
    · exact plain
    · exact ih t later

/-- The end marker of the source, if it gives one, stands one column after its last token, or after
`last` if it gives none. -/
def EndsAfter (last : Position) (s : σ) : Prop :=
  ∀ eof, (readAll s).2 = .ok eof → eof = .eof ((lastPlace last (readAll s).1).after 1)

end TokenSource

open TokenSource (readAll readAll_of_error readAll_of_end readAll_of_token pull_induction)

namespace TokenBuffer

theorem readAll_eq (b : TokenBuffer) (plain : ∀ token ∈ b.tokens, token.isEof = false) :
    readAll b = (b.tokens, .ok (.eof (b.last.after 1))) := by
  obtain ⟨tokens, start, last⟩ := b
  induction tokens with
  | nil => exact readAll_of_end rfl rfl
  | cons token tokens ih =>
    have step : TokenSource.next (TokenBuffer.mk (token :: tokens) start last) =
        (.ok token, ⟨tokens, start, last⟩) := rfl
    rw [readAll_of_token step (plain token List.mem_cons_self),
      ih fun t mem => plain t (List.mem_cons_of_mem token mem)]

theorem lastPlace_eq_getLast? (start : Position) {tokens : List Token}
    (plain : ∀ token ∈ tokens, token.isEof = false) :
    lastPlace start tokens = (tokens.getLast?.map Token.position).getD start := by
  rcases List.eq_nil_or_concat tokens with rfl | ⟨front, token, rfl⟩
  · rfl
  · have last := plain token (by simp)
    simp [lastPlace_append, lastPlace, last]

theorem plain_ofTokens (start : Position) (tokens : List Token) :
    ∀ token ∈ (ofTokens start tokens).tokens, token.isEof = false := by
  intro token mem
  simpa [ofTokens] using (List.mem_filter.mp mem).2

theorem ofTokens_endsAfter (start : Position) (tokens : List Token) :
    TokenSource.EndsAfter start (ofTokens start tokens) := by
  have plain := plain_ofTokens start tokens
  intro eof ending
  rw [readAll_eq _ plain] at ending ⊢
  cases ending
  rw [lastPlace_eq_getLast? start plain]
  rfl

end TokenBuffer

namespace Tokenizer

theorem last_of_next {t u : Tokenizer} {token : Token} (step : t.next = (.ok token, u))
    (plain : token.isEof = false) : u.last = token.position := by
  simp only [next] at step
  split at step
  · cases step
    cases plain
  · split at step <;> cases step
    rfl

theorem eof_of_next {t u : Tokenizer} {token : Token} (step : t.next = (.ok token, u))
    (marker : token.isEof = true) : token = .eof (t.last.after 1) := by
  simp only [next] at step
  split at step
  · cases step
    rfl
  · split at step
    · next classified =>
      cases step
      exact absurd (beq_iff_eq.mp marker) (classify_kind_ne_eof classified)
    · cases step

theorem endsAfter_last (t : Tokenizer) : TokenSource.EndsAfter t.last t := by
  induction t using pull_induction with
  | failed t e u step =>
    intro eof ending
    rw [readAll_of_error step] at ending
    cases ending
  | ended t token u step marker =>
    intro eof ending
    rw [readAll_of_end step marker] at ending ⊢
    cases ending
    exact eof_of_next step marker
  | pulled t token u step plain ih =>
    intro eof ending
    rw [readAll_of_token step plain] at ending ⊢
    have here := ih eof ending
    rw [last_of_next step plain] at here
    simpa [lastPlace, plain] using here

theorem tokenize_of_readAll {t : Tokenizer} {eof : Token} (ending : (readAll t).2 = .ok eof) :
    t.tokenize = .ok ((readAll t).1 ++ [eof]) ∧ eof.isEof = true := by
  induction t using pull_induction with
  | failed t e u step =>
    rw [readAll_of_error step] at ending
    cases ending
  | ended t token u step marker =>
    rw [readAll_of_end step marker] at ending ⊢
    cases ending
    have step : t.next = (.ok eof, u) := step
    refine ⟨?_, marker⟩
    rw [tokenize]
    split
    · next same => rw [step] at same; cases same
    · next same =>
      rw [step] at same
      cases same
      exact dif_pos marker
  | pulled t token u step plain ih =>
    rw [readAll_of_token step plain] at ending ⊢
    obtain ⟨tokens, marker⟩ := ih ending
    have step : t.next = (.ok token, u) := step
    refine ⟨?_, marker⟩
    rw [tokenize]
    split
    · next same => rw [step] at same; cases same
    · next same =>
      rw [step] at same
      cases same
      simp only [plain, Bool.false_eq_true, ↓reduceDIte, tokens, List.cons_append]

end Tokenizer

/-- A source that counts how often it is asked for a token. -/
structure Metered (σ : Type) where
  source : σ
  requests : Nat

namespace Metered

variable {σ : Type} [TokenSource σ]

def next (m : Metered σ) : Except LexError Token × Metered σ :=
  ((TokenSource.next m.source).1, ⟨(TokenSource.next m.source).2, m.requests + 1⟩)

theorem next_source {m m' : Metered σ} {outcome : Except LexError Token}
    (step : m.next = (outcome, m')) : TokenSource.next m.source = (outcome, m'.source) := by
  cases step
  rfl

theorem requests_of_next {m m' : Metered σ} {outcome : Except LexError Token}
    (step : m.next = (outcome, m')) : m'.requests = m.requests + 1 := by
  rw [← (Prod.mk.inj step).2]

instance : TokenSource (Metered σ) where
  start m := TokenSource.start m.source
  next := next
  remaining m := TokenSource.remaining m.source
  remaining_lt step plain := TokenSource.remaining_lt (next_source step) plain

theorem readAll_eq (m : Metered σ) : readAll m = readAll m.source := by
  induction m using pull_induction with
  | failed m e m' step =>
    rw [readAll_of_error step, readAll_of_error (next_source step)]
  | ended m token m' step marker =>
    rw [readAll_of_end step marker, readAll_of_end (next_source step) marker]
  | pulled m token m' step plain ih =>
    rw [readAll_of_token step plain, readAll_of_token (next_source step) plain, ih]

end Metered

namespace ParseError

def OfEngine : ParseError → Prop
  | .threadLimit _ _ => True
  | .expansionLimit _ _ => True
  | .unknownPattern _ => True
  | _ => False

end ParseError

theorem Phase.resolve_error {p : Phase} {budget : Nat} {work : List Thread} {ready : Array Ready}
    {s : Store} {branches : Nat} {e : ParseError}
    (failed : (p.resolve budget work ready s branches).outcome = .error e) : e.OfEngine := by
  fun_induction resolve p budget work ready s branches with
  | case1 => cases failed
  | case2 => cases failed; trivial
  | case3 _ _ _ _ _ _ _ _ _ _ ih => exact ih failed
  | case4 _ _ _ _ _ _ _ _ _ _ _ _ ih => exact ih failed
  | case5 => cases failed; trivial
  | case6 _ _ _ _ _ _ _ _ _ ih => exact ih failed
  | case7 _ _ _ _ _ _ _ _ _ ih => exact ih failed
  | case8 => cases failed; trivial

namespace Parser

variable {p q : Parser} {token eof : Token} {e : ParseError}

theorem resolve_error (failed : (p.resolve token).1 = .error e) : e.OfEngine := by
  simp only [resolve, Phase.resolveCached_fst] at failed
  split at failed
  · next outcome =>
    cases failed
    exact Phase.resolve_error outcome
  · cases failed

theorem consume_error (failed : (p.consume token).1 = .error e) : e.OfEngine := by
  simp only [consume] at failed
  split at failed
  · next resolved =>
    cases failed
    exact resolve_error (congrArg Prod.fst resolved)
  · cases failed

theorem complete_error {failures : Array Failed} (failed : (p.complete eof failures).1 = .error e) :
    e.OfEngine := by
  simp only [complete] at failed
  split at failed
  · cases failed
  · split at failed
    · next resolved =>
      cases failed
      exact resolve_error (congrArg Prod.fst resolved)
    · cases failed

theorem finishAt_error (failed : (p.finishAt eof).1 = some e) : e.OfEngine := by
  simp only [finishAt] at failed
  split at failed
  · next consumed =>
    cases failed
    exact consume_error (congrArg Prod.fst consumed)
  · split at failed
    · next completed =>
      cases failed
      exact complete_error (congrArg Prod.fst completed)
    · split at failed <;> cases failed

theorem take_error (failed : (p.take token).1 = some e) : e.OfEngine := by
  simp only [take] at failed
  split at failed
  · next consumed =>
    cases failed
    exact consume_error (congrArg Prod.fst consumed)
  · cases failed

theorem feed_error (failed : (p.feed token).1 = some e) : e.OfEngine := by
  simp only [feed] at failed
  split at failed
  · cases failed
  · split at failed
    · exact finishAt_error failed
    · split at failed
      · next taken =>
        cases failed
        exact take_error (congrArg Prod.fst taken)
      · cases failed

theorem finish_error (failed : p.finish.1 = some e) : e.OfEngine := by
  simp only [finish] at failed
  split at failed
  · exact finishAt_error failed
  · cases failed

theorem feedAll_error {tokens : List Token} (failed : (p.feedAll tokens).1 = some e) :
    e.OfEngine := by
  induction tokens generalizing p with
  | nil => cases failed
  | cons token tokens ih =>
    simp only [feedAll] at failed
    split at failed
    · next fed =>
      cases failed
      exact feed_error (congrArg Prod.fst fed)
    · exact ih failed

def Survives (p : Parser) (tokens : List Token) (q : Parser) : Prop :=
  p.feedAll tokens = (none, q) ∧ q.isRunning = true

/-- Feeds all of `tokens` and then ends the input, unless one of them gives an error. -/
def feedToEnd (p : Parser) (tokens : List Token) : Option ParseError × Parser :=
  match p.feedAll tokens with
  | (some e, q) => (some e, q)
  | (none, q) => q.finish

theorem feed_of_stopped (stopped : p.isRunning = false) (token : Token) :
    p.feed token = (none, p) := by
  simp only [feed, stopped, Bool.not_false, ↓reduceIte]

theorem feed_of_running (runs : p.isRunning = true) (token : Token) :
    p.feed token = if token.isEof then p.finishAt token else
      match p.take token with
      | (some e, q) => (some e, q)
      | (none, q) => (none, if q.isCompactionDue then q.compact else q) := by
  have goes : ¬ (!p.isRunning) = true := by
    rw [runs]
    exact Bool.false_ne_true
  unfold feed
  exact if_neg goes

theorem finish_eq_feed (runs : p.isRunning = true) :
    p.finish = p.feed (Grammar.endMarker p.last) := by
  rw [finish, if_pos runs, feed_of_running runs]
  rfl

theorem finish_of_stopped (stopped : p.isRunning = false) : p.finish = (none, p) := by
  simp only [finish, stopped, Bool.false_eq_true, ↓reduceIte]

theorem feedAll_of_stopped (stopped : p.isRunning = false) (tokens : List Token) :
    p.feedAll tokens = (none, p) := by
  induction tokens with
  | nil => rfl
  | cons token tokens ih =>
    simp only [feedAll, feed_of_stopped stopped]
    exact ih

theorem feedAll_cons_of_error {tokens : List Token} (fed : p.feed token = (some e, q)) :
    p.feedAll (token :: tokens) = (some e, q) := by
  simp only [feedAll, fed]

theorem feedAll_cons_of_none {tokens : List Token} (fed : p.feed token = (none, q)) :
    p.feedAll (token :: tokens) = q.feedAll tokens := by
  simp only [feedAll, fed]

theorem feedAll_concat {tokens : List Token} (fed : p.feedAll tokens = (none, q)) (token : Token) :
    p.feedAll (tokens ++ [token]) = q.feed token := by
  induction tokens generalizing p with
  | nil =>
    cases fed
    simp only [List.nil_append, feedAll]
    split
    · next same => exact same.symm
    · next same => exact same.symm
  | cons first tokens ih =>
    simp only [feedAll, List.cons_append] at fed ⊢
    split at fed
    · cases fed
    · exact ih fed

theorem feedAll_append_of_error {tokens : List Token} (fed : p.feedAll tokens = (some e, q))
    (more : List Token) : p.feedAll (tokens ++ more) = (some e, q) := by
  induction tokens generalizing p with
  | nil => cases fed
  | cons first tokens ih =>
    simp only [feedAll, List.cons_append] at fed ⊢
    split at fed
    · exact fed
    · exact ih fed

section

variable {σ : Type} [TokenSource σ] {s s' : σ}

theorem parse_of_stopped (stopped : p.isRunning = false) (s : σ) : p.parse s = (none, p, s) := by
  rw [parse]
  simp only [stopped, Bool.false_eq_true, ↓reduceIte]

theorem parse_of_error {fault : LexError} (runs : p.isRunning = true)
    (step : TokenSource.next s = (.error fault, s')) :
    p.parse s = (some (.lexical fault), p.halt, s') := by
  rw [parse, if_pos runs]
  split
  · next same => rw [step] at same; cases same; rfl
  · next same => rw [step] at same; cases same

theorem parse_of_end (runs : p.isRunning = true) (step : TokenSource.next s = (.ok token, s'))
    (marker : token.isEof = true) : p.parse s = (p.finish.1, p.finish.2, s') := by
  rw [parse, if_pos runs]
  split
  · next same => rw [step] at same; cases same
  · next same =>
    rw [step] at same
    cases same
    exact dif_pos marker

theorem parse_of_token (runs : p.isRunning = true) (step : TokenSource.next s = (.ok token, s'))
    (plain : token.isEof = false) :
    p.parse s = match p.feed token with
      | (some e, q) => (some e, q, s')
      | (none, q) => q.parse s' := by
  rw [parse, if_pos runs]
  split
  · next same => rw [step] at same; cases same
  · next same =>
    rw [step] at same
    cases same
    exact dif_neg (Bool.eq_false_iff.mp plain)

/-- Pulling goes as feeding the tokens of the source does. It then comes upon what ends them, if
the parser still runs. -/
theorem parse_eq (p : Parser) (s : σ) :
    ((p.parse s).1, (p.parse s).2.1) = match p.feedAll (readAll s).1 with
      | (some e, q) => (some e, q)
      | (none, q) =>
        if q.isRunning then
          match (readAll s).2 with
          | .error fault => (some (.lexical fault), q.halt)
          | .ok _ => q.finish
        else (none, q) := by
  cases runs : p.isRunning with
  | false =>
    simp only [parse_of_stopped runs, feedAll_of_stopped runs, runs, Bool.false_eq_true, ↓reduceIte]
  | true =>
    induction s using pull_induction generalizing p with
    | failed s fault s' step =>
      simp only [parse_of_error runs step, readAll_of_error step, feedAll, runs, ↓reduceIte]
    | ended s token s' step marker =>
      simp only [parse_of_end runs step marker, readAll_of_end step marker, feedAll, runs,
        ↓reduceIte]
    | pulled s token s' step plain ih =>
      rw [parse_of_token runs step plain, readAll_of_token step plain]
      cases fed : p.feed token with
      | mk error? q =>
        cases error? with
        | some e => simp only [feedAll_cons_of_error fed]
        | none =>
          simp only [feedAll_cons_of_none fed]
          cases runs' : q.isRunning with
          | true => exact ih q runs'
          | false =>
            simp only [parse_of_stopped runs', feedAll_of_stopped runs', runs', Bool.false_eq_true,
              ↓reduceIte]

theorem parse_eq_feedToEnd (p : Parser) (s : σ) {eof : Token} (ending : (readAll s).2 = .ok eof) :
    ((p.parse s).1, (p.parse s).2.1) = p.feedToEnd (readAll s).1 := by
  rw [parse_eq, ending, feedToEnd]
  split
  · rfl
  · split
    · rfl
    · next stopped => rw [finish_of_stopped (Bool.eq_false_iff.mpr stopped)]

theorem survives_nothing (runs : p.isRunning = true) (tokens : List Token) :
    ∀ j < 1, ∃ q, p.Survives (tokens.take j) q := by
  intro j lt
  obtain rfl : j = 0 := Nat.lt_one_iff.mp lt
  exact ⟨p, rfl, runs⟩

theorem survives_succ {tokens : List Token} {k : Nat} (runs : p.isRunning = true)
    (fed : p.feed token = (none, q)) (later : ∀ j < k, ∃ r, q.Survives (tokens.take j) r) :
    ∀ j < k + 1, ∃ r, p.Survives ((token :: tokens).take j) r := by
  intro j lt
  cases j with
  | zero => exact ⟨p, rfl, runs⟩
  | succ j =>
    obtain ⟨r, alive⟩ := later j (Nat.lt_of_succ_lt_succ lt)
    refine ⟨r, ?_⟩
    rw [Survives, List.take_succ_cons, feedAll_cons_of_none fed]
    exact alive

/-- Whenever a token is requested, the parser still runs after those pulled before it. -/
theorem survives_of_requested (p : Parser) (m : Metered σ) :
    ∃ k, (p.parse m).2.2.requests = m.requests + k ∧
      ∀ j < k, ∃ q, p.Survives ((readAll m).1.take j) q := by
  cases runs : p.isRunning with
  | false =>
    rw [parse_of_stopped runs]
    exact ⟨0, rfl, fun j lt => absurd lt (Nat.not_lt_zero j)⟩
  | true =>
    induction m using pull_induction generalizing p with
    | failed m fault m' step =>
      rw [parse_of_error runs step]
      exact ⟨1, Metered.requests_of_next step, survives_nothing runs _⟩
    | ended m token m' step marker =>
      rw [parse_of_end runs step marker]
      exact ⟨1, Metered.requests_of_next step, survives_nothing runs _⟩
    | pulled m token m' step plain ih =>
      have asked := Metered.requests_of_next step
      rw [parse_of_token runs step plain, readAll_of_token step plain]
      cases fed : p.feed token with
      | mk error? q =>
        cases error? with
        | some e => exact ⟨1, asked, survives_nothing runs _⟩
        | none =>
          cases runs' : q.isRunning with
          | false =>
            simp only [parse_of_stopped runs']
            exact ⟨1, asked, survives_nothing runs _⟩
          | true =>
            obtain ⟨k, count, later⟩ := ih q runs'
            refine ⟨k + 1, ?_, survives_succ runs fed later⟩
            simp only
            omega

end

section

variable {σ : Type} [TokenSource σ]

/-- Pulling all tokens of `s` and pushing them one by one come to the same for the parser. -/
structure PullsAsPushed (p : Parser) (s : σ) : Prop where
  marker_eq : ∀ eof q, (readAll s).2 = .ok eof → p.Survives (readAll s).1 q →
    eof = .eof (q.last.endPoint.after 1)
  /-- If no error of the source comes before the parser stops, pushing the tokens and then ending
  the input gives the same error or none and leaves the same parser. -/
  ended : (∀ fault, (readAll s).2 = .error fault → ¬ ∃ q, p.Survives (readAll s).1 q) →
    ((p.parse s).1, (p.parse s).2.1) = p.feedToEnd (readAll s).1
  marked : ∀ eof, (readAll s).2 = .ok eof →
    ((p.parse s).1, (p.parse s).2.1) = p.feedAll ((readAll s).1 ++ [eof])
  /-- A token is requested only if the parser still runs after those before it. -/
  requested : ∀ k < (p.parse (⟨s, 0⟩ : Metered σ)).2.2.requests,
    ∃ q, p.Survives ((readAll s).1.take k) q
  /-- An error of the source is returned exactly if the parser does not stop before it. -/
  lexical_iff : ∀ fault, (p.parse s).1 = some (.lexical fault) ↔
    (readAll s).2 = .error fault ∧ ∃ q, p.Survives (readAll s).1 q

theorem last_of_survives {p₀ q : Parser} {pattern : Pattern} {start : Position}
    {tokens : List Token} (plain : ∀ token ∈ tokens, token.isEof = false)
    (alive : (p₀.setup pattern start).Survives tokens q) : q.last = lastPlace start tokens := by
  obtain ⟨-, tracked⟩ := weave_fed plain alive.1
  obtain ⟨ts, tracks⟩ := tracked.tracks alive.2
  exact tracks.last_eq

theorem pullsAsPushed (p₀ : Parser) (pattern : Pattern) {start : Position} {s : σ}
    (ends : TokenSource.EndsAfter start s) : (p₀.setup pattern start).PullsAsPushed s := by
  have plain := TokenSource.plain_of_readAll s
  have pulled := parse_eq (p₀.setup pattern start) s
  have marker : ∀ eof q, (readAll s).2 = .ok eof →
      (p₀.setup pattern start).Survives (readAll s).1 q → eof = .eof (q.last.endPoint.after 1) := by
    intro eof q ending alive
    rw [last_of_survives plain alive]
    exact ends eof ending
  generalize p₀.setup pattern start = p at pulled marker
  refine ⟨marker, ?_, ?_, ?_, ?_⟩
  · intro first
    rw [pulled, feedToEnd]
    cases fed : p.feedAll (readAll s).1 with
    | mk error? q =>
      cases error? with
      | some e => rfl
      | none =>
        cases runs : q.isRunning with
        | false => simp only [runs, finish_of_stopped runs, Bool.false_eq_true, ↓reduceIte]
        | true =>
          simp only [runs, ↓reduceIte]
          split
          · next fault ending => exact absurd ⟨q, fed, runs⟩ (first fault ending)
          · rfl
  · intro eof ending
    rw [pulled, ending]
    cases fed : p.feedAll (readAll s).1 with
    | mk error? q =>
      cases error? with
      | some e => exact (feedAll_append_of_error fed [eof]).symm
      | none =>
        rw [feedAll_concat fed eof]
        cases runs : q.isRunning with
        | false => simp only [runs, feed_of_stopped runs, Bool.false_eq_true, ↓reduceIte]
        | true =>
          have same := marker eof q ending ⟨fed, runs⟩
          have ended : eof.isEof = true := by rw [same]; rfl
          simp only [runs, feed, finish, ended, ← same, Bool.not_true, Bool.false_eq_true,
            ↓reduceIte]
  · obtain ⟨k, count, alive⟩ := survives_of_requested p (⟨s, 0⟩ : Metered σ)
    rw [Metered.readAll_eq] at alive
    rw [count, Nat.zero_add]
    exact alive
  · intro fault
    have outcome := congrArg Prod.fst pulled
    simp only at outcome
    rw [outcome]
    constructor
    · intro lexical
      split at lexical
      · next e q fed =>
        cases lexical
        exact (feedAll_error (congrArg Prod.fst fed)).elim
      · next q fed =>
        cases runs : q.isRunning with
        | false =>
          rw [runs] at lexical
          cases lexical
        | true =>
          rw [if_pos runs] at lexical
          split at lexical
          · next fault' ending =>
            cases lexical
            exact ⟨ending, q, fed, runs⟩
          · exact (finish_error lexical).elim
    · rintro ⟨ending, q, fed, runs⟩
      simp only [fed, runs, ending, ↓reduceIte]

end

/-- A parser that pulls all tokens of a buffer or a text, set up where that starts, gives the same
error or none and is left the same as one to which these tokens are fed one by one, and then their
end. It requests no token after the one at which it stops, so it returns a lexical error exactly if
that comes before any stop. -/
theorem pulling_agrees_with_pushing (p : Parser) (pattern : Pattern) :
    (∀ start tokens,
      let s := TokenBuffer.ofTokens start tokens
      (p.setup pattern (TokenSource.start s)).PullsAsPushed s) ∧
    ∀ source keywords,
      let s := Tokenizer.ofSource source keywords
      (p.setup pattern (TokenSource.start s)).PullsAsPushed s :=
  ⟨fun start tokens => pullsAsPushed p pattern (TokenBuffer.ofTokens_endsAfter start tokens),
    fun source keywords =>
      pullsAsPushed p pattern (Tokenizer.endsAfter_last (Tokenizer.ofSource source keywords))⟩

end Parser

end Lockstep
