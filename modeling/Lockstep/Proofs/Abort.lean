import Lockstep.Proofs.Ceiling

set_option autoImplicit false

namespace Lockstep

namespace Tally

variable {token : Token} {last : Position}

theorem results_meet (plain : token.isEof = false) (t : Tally) (r : Ready) :
    (meet token last t r).results = t.results := by
  obtain ⟨store, survivors, failed, results⟩ := t
  cases goal : r.goal with
  | accepted => simp only [meet, goal, plain, Bool.false_eq_true, ↓reduceIte]
  | token spec =>
    simp only [meet, goal]
    split
    · split <;> rfl
    · rfl

theorem results_foldl (plain : token.isEof = false) (ready : List Ready) (t : Tally) :
    (ready.foldl (meet token last) t).results = t.results := by
  induction ready generalizing t with
  | nil => rfl
  | cons r ready ih => rw [List.foldl_cons, ih, results_meet plain]

end Tally

namespace Parser

def Silent (p : Parser) : Prop := p.isRunning = true → p.results = #[] ∧ p.diagnostics = []

variable {p q : Parser} {token : Token} {e : ParseError}

theorem silent_of_stopped (stopped : p.isRunning = false) : p.Silent :=
  fun running => Bool.noConfusion (stopped.symm.trans running)

theorem consume_results (plain : token.isEof = false) :
    (p.consume token).2.results = p.results := by
  obtain ⟨-, -, kept⟩ := p.resolve_keeps token
  simp only [consume]
  generalize p.resolve token = r at kept
  obtain ⟨outcome, q⟩ := r
  cases outcome with
  | error e => exact kept
  | ok ready =>
    have none := @Tally.results_foldl _ q.last.endPoint plain ready.toList
      ⟨q.store, #[], #[], q.results⟩
    rw [Array.foldl_toList] at none
    exact none.trans kept

theorem Silent.take (h : p.Silent) (runs : p.isRunning = true) (plain : token.isEof = false) :
    (p.take token).2.Silent := by
  obtain ⟨noResults, noDiagnostics⟩ := h runs
  have results := (consume_results (p := p) plain).trans noResults
  have diagnostics := (p.consume_keeps token).2.trans noDiagnostics
  simp only [Parser.take]
  generalize p.consume token = r at results diagnostics
  obtain ⟨outcome, q⟩ := r
  cases outcome with
  | error e => exact silent_of_stopped rfl
  | ok outcome =>
    simp only
    split
    · exact silent_of_stopped rfl
    · exact fun _ => ⟨results, diagnostics⟩

theorem Silent.feed (h : p.Silent) (token : Token) : (p.feed token).2.Silent := by
  cases runs : p.isRunning with
  | false =>
    rw [feed_of_stopped runs]
    exact h
  | true =>
    rw [feed_of_running runs]
    cases ended : token.isEof with
    | true => exact silent_of_stopped (finishAt_stops p token)
    | false =>
      have took := h.take runs ended
      simp only [Bool.false_eq_true, ↓reduceIte]
      generalize p.take token = r at took
      obtain ⟨error?, q⟩ := r
      cases error? with
      | some e => exact took
      | none =>
        simp only
        split
        · exact took
        · exact took

theorem Silent.finish (h : p.Silent) : p.finish.2.Silent := by
  simp only [Parser.finish]
  split
  · exact silent_of_stopped (finishAt_stops p _)
  · exact h

theorem Silent.act (h : p.Silent) (a : Action) : (p.act a).2.Silent := by
  cases a with
  | setup pattern start => exact fun _ => ⟨rfl, rfl⟩
  | feed token => exact h.feed token
  | finish => exact h.finish
  | parse tokens =>
    exact parse_keeps (fun _ token h => h.feed token) (fun _ h => h.finish)
      (fun _ _ => silent_of_stopped rfl) h tokens
  | takeResults => exact fun runs => ⟨rfl, (h runs).2⟩
  | takeDiagnostics => exact fun runs => ⟨(h runs).1, rfl⟩

theorem Silent.after (h : p.Silent) (actions : List Action) : (p.after actions).Silent := by
  induction actions generalizing p with
  | nil => exact h
  | cons a actions ih => exact ih (h.act a)

/-- What every error leaves: the parser takes no more tokens, and there is nothing to report. -/
structure Aborted (r : Parser) : Prop where
  status : r.status = .halted
  threads : r.threads = []
  diagnostics : r.diagnostics = []

/-- Ending the input at `eof` gives the error `e` late: all threads have met the marker, and `e`
comes up when those that took it are resolved. Those that were complete without it have yielded
`results`. -/
def TripsLate (p : Parser) (eof : Token) (e : ParseError) (results : Array Capture) : Prop :=
  ∃ survivors failed q, p.consume eof = (.ok (survivors, failed), q) ∧ survivors.isEmpty = false ∧
    (resolve { q with threads := survivors.toList } eof).1 = .error e ∧ q.results = results

theorem results_of_consume_error (failed : p.consume token = (.error e, q)) :
    q.results = p.results := by
  obtain ⟨-, -, results⟩ := p.resolve_keeps token
  simp only [consume] at failed
  generalize p.resolve token = r at failed results
  obtain ⟨outcome, q'⟩ := r
  cases outcome with
  | error e' =>
    cases failed
    exact results
  | ok ready => cases failed

theorem resolve_of_complete_error {eof : Token} {failures : Array Failed}
    (failed : p.complete eof failures = (.error e, q)) :
    p.threads.isEmpty = false ∧ p.resolve eof = (.error e, q) := by
  simp only [complete] at failed
  split at failed
  · cases failed
  · next some =>
    refine ⟨Bool.eq_false_iff.mpr some, ?_⟩
    generalize p.resolve eof = r at failed ⊢
    obtain ⟨outcome, q'⟩ := r
    cases outcome with
    | error e' =>
      cases failed
      rfl
    | ok ready => cases failed

theorem finishAt_aborts (silent : p.Silent) (runs : p.isRunning = true) {eof : Token}
    (failed : (p.finishAt eof).1 = some e) :
    (p.finishAt eof).2.Aborted ∧
      ((p.finishAt eof).2.results = #[] ∨ p.TripsLate eof e (p.finishAt eof).2.results) := by
  obtain ⟨noResults, noDiagnostics⟩ := silent runs
  have kept := (p.consume_keeps eof).2
  simp only [finishAt] at failed ⊢
  cases met : p.consume eof with
  | mk outcome q =>
    rw [met] at failed kept
    have diagnostics : q.diagnostics = [] := kept.trans noDiagnostics
    cases outcome with
    | error e' =>
      exact ⟨⟨rfl, rfl, diagnostics⟩, .inl ((results_of_consume_error met).trans noResults)⟩
    | ok outcome =>
      obtain ⟨survivors, failures⟩ := outcome
      simp only at failed ⊢
      cases closed : Parser.complete { q with threads := survivors.toList } eof failures with
      | mk outcome q' =>
        rw [closed] at failed
        cases outcome with
        | ok failures' =>
          simp only at failed
          split at failed <;> cases failed
        | error e' =>
          cases failed
          obtain ⟨any, resolved⟩ := resolve_of_complete_error closed
          obtain ⟨-, same, results⟩ :=
            Parser.resolve_keeps { q with threads := survivors.toList } eof
          rw [resolved] at same results
          exact ⟨⟨rfl, rfl, same.trans diagnostics⟩, .inr ⟨survivors, failures, q, met,
            Array.isEmpty_toList.symm.trans any, congrArg Prod.fst resolved, results.symm⟩⟩

theorem take_aborts (silent : p.Silent) (runs : p.isRunning = true)
    (failed : (p.take token).1 = some e) :
    (p.take token).2.Aborted ∧ (p.take token).2.results = #[] := by
  obtain ⟨noResults, noDiagnostics⟩ := silent runs
  have kept := (p.consume_keeps token).2
  simp only [take] at failed ⊢
  cases met : p.consume token with
  | mk outcome q =>
    rw [met] at failed kept
    cases outcome with
    | error e' =>
      exact ⟨⟨rfl, rfl, kept.trans noDiagnostics⟩, (results_of_consume_error met).trans noResults⟩
    | ok outcome => cases failed

theorem feed_aborts (silent : p.Silent) (failed : (p.feed token).1 = some e) :
    (p.feed token).2.Aborted ∧ ((p.feed token).2.results = #[] ∨
      token.isEof = true ∧ p.TripsLate token e (p.feed token).2.results) := by
  cases runs : p.isRunning with
  | false =>
    rw [feed_of_stopped runs] at failed
    cases failed
  | true =>
    rw [feed_of_running runs] at failed ⊢
    cases ended : token.isEof with
    | true =>
      simp only [ended, ↓reduceIte] at failed ⊢
      obtain ⟨aborted, results⟩ := finishAt_aborts silent runs failed
      exact ⟨aborted, results.imp_right fun late => ⟨trivial, late⟩⟩
    | false =>
      have aborts := @take_aborts p token e silent runs
      simp only [ended, Bool.false_eq_true, ↓reduceIte] at failed ⊢
      generalize p.take token = r at failed aborts ⊢
      obtain ⟨error?, q⟩ := r
      cases error? with
      | none => cases failed
      | some e' =>
        obtain ⟨aborted, results⟩ := aborts failed
        exact ⟨aborted, .inl results⟩

theorem finish_aborts (silent : p.Silent) (failed : p.finish.1 = some e) :
    p.finish.2.Aborted ∧ (p.finish.2.results = #[] ∨
      p.TripsLate (Grammar.endMarker p.last) e p.finish.2.results) := by
  cases runs : p.isRunning with
  | false =>
    rw [finish_of_stopped runs] at failed
    cases failed
  | true =>
    rw [Parser.finish, if_pos runs] at failed ⊢
    exact finishAt_aborts silent runs failed

theorem feedAll_aborts {tokens : List Token} (plain : ∀ token ∈ tokens, token.isEof = false)
    (silent : p.Silent) (failed : p.feedAll tokens = (some e, q)) :
    q.Aborted ∧ q.results = #[] := by
  induction tokens generalizing p with
  | nil => cases failed
  | cons token tokens ih =>
    have aborts := @feed_aborts p token e silent
    have still := silent.feed token
    cases fed : p.feed token with
    | mk error? p' =>
      rw [fed] at aborts still
      cases error? with
      | some e' =>
        rw [feedAll_cons_of_error fed] at failed
        cases failed
        obtain ⟨aborted, results⟩ := aborts rfl
        refine ⟨aborted, results.resolve_right ?_⟩
        rintro ⟨ended, -⟩
        exact Bool.noConfusion ((plain token List.mem_cons_self).symm.trans ended)
      | none =>
        rw [feedAll_cons_of_none fed] at failed
        exact ih (fun t mem => plain t (List.mem_cons_of_mem token mem)) still failed

/-- The call ends the input: it lets `q` meet the end marker `eof`. -/
inductive Ends (p : Parser) : Action → Parser → Token → Prop where
  | feed {eof : Token} (marker : eof.isEof = true) : Ends p (.feed eof) p eof
  | finish : Ends p .finish p (Grammar.endMarker p.last)
  | parse {σ : Type} [TokenSource σ] {s : σ} {q : Parser}
      (alive : p.Survives (TokenSource.readAll s).1 q) :
    Ends p (.parse s) q (Grammar.endMarker q.last)

theorem Silent.feedAll {tokens : List Token} (silent : p.Silent)
    (fed : p.feedAll tokens = (none, q)) : q.Silent := by
  induction tokens generalizing p with
  | nil =>
    cases fed
    exact silent
  | cons token tokens ih =>
    have still := silent.feed token
    cases first : p.feed token with
    | mk error? p' =>
      rw [first] at still
      cases error? with
      | some e =>
        rw [feedAll_cons_of_error first] at fed
        cases fed
      | none =>
        rw [feedAll_cons_of_none first] at fed
        exact ih still fed

theorem parse_aborts {σ : Type} [TokenSource σ] {s : σ} (silent : p.Silent)
    (failed : (p.parse s).1 = some e) :
    (p.parse s).2.1.Aborted ∧ ((p.parse s).2.1.results = #[] ∨
      ∃ q, p.Survives (TokenSource.readAll s).1 q ∧
        q.TripsLate (Grammar.endMarker q.last) e (p.parse s).2.1.results) := by
  have plain := TokenSource.plain_of_readAll s
  have pulled := parse_eq p s
  generalize (p.parse s).2.1 = r at pulled ⊢
  rw [failed] at pulled
  cases fed : p.feedAll (TokenSource.readAll s).1 with
  | mk error? q =>
    simp only [fed] at pulled
    cases error? with
    | some e' =>
      cases pulled
      obtain ⟨aborted, results⟩ := feedAll_aborts plain silent fed
      exact ⟨aborted, .inl results⟩
    | none =>
      have still := silent.feedAll fed
      cases runs : q.isRunning with
      | false =>
        simp only [runs] at pulled
        cases pulled
      | true =>
        simp only [runs, ↓reduceIte] at pulled
        split at pulled
        · -- nothing was resolved for an error of the source
          cases pulled
          obtain ⟨results, diagnostics⟩ := still runs
          exact ⟨⟨rfl, rfl, diagnostics⟩, .inl results⟩
        · have aborts := finish_aborts (e := e) still
          rw [← pulled] at aborts
          obtain ⟨aborted, results⟩ := aborts rfl
          exact ⟨aborted, results.imp_right fun late => ⟨q, ⟨fed, runs⟩, late⟩⟩

def WasSetUp (p : Parser) : Prop :=
  ∃ p₀ pattern start actions, p = (setup p₀ pattern start).after actions

theorem WasSetUp.silent (h : p.WasSetUp) : p.Silent := by
  obtain ⟨p₀, pattern, start, actions, rfl⟩ := h
  exact Silent.after (p := p₀.setup pattern start) (fun _ => ⟨rfl, rfl⟩) actions

theorem Aborted.stopped (h : p.Aborted) : p.isRunning = false := by
  rw [isRunning, h.status]
  rfl

/-- An error of a call on a parser that was set up leaves it halted, without threads and without
diagnostics. It has no results either, unless the error comes up late at the end of the input: then
what the complete threads have yielded stays, though nothing is known of the others. -/
theorem error_leaves_results_only_at_the_end (h : p.WasSetUp) (a : Action)
    (failed : (p.act a).1.error? = some e) :
    (p.act a).2.isRunning = false ∧ (p.act a).2.Aborted ∧ ((p.act a).2.results = #[] ∨
      ∃ q eof, p.Ends a q eof ∧ q.TripsLate eof e (p.act a).2.results) := by
  have silent := h.silent
  cases a with
  | setup => cases failed
  | feed token =>
    obtain ⟨aborted, results⟩ := feed_aborts silent failed
    refine ⟨aborted.stopped, aborted, results.imp_right ?_⟩
    rintro ⟨ended, late⟩
    exact ⟨p, token, .feed ended, late⟩
  | finish =>
    obtain ⟨aborted, results⟩ := finish_aborts silent failed
    exact ⟨aborted.stopped, aborted, results.imp_right fun late => ⟨p, _, .finish, late⟩⟩
  | parse s =>
    obtain ⟨aborted, results⟩ := parse_aborts silent failed
    refine ⟨aborted.stopped, aborted, results.imp_right ?_⟩
    rintro ⟨q, alive, late⟩
    exact ⟨q, _, .parse alive, late⟩
  | takeResults => cases failed
  | takeDiagnostics => cases failed

def wordOrPastEnd : Pattern :=
  .branch [Builder.wordPattern, .sequence 0 none [Builder.wordPattern, .token ⟨.eof, none⟩ [],
    .branch [Builder.wordPattern, Builder.wordPattern, Builder.wordPattern] []] .listOf []] []

def twoAllowed : Parser :=
  ofGrammar ⟨["main"], [("main", wordOrPastEnd)], [], some "main"⟩ { maxThreads := 2 }

def pastEnd : Parser := (twoAllowed.setup wordOrPastEnd .detached).after [.feed wordA]

/-- At the end of the input one of the two threads yields a result, the other goes on to three. -/
theorem third_thread_past_the_end :
    ∃ e, pastEnd.WasSetUp ∧ (pastEnd.act .finish).1.error? = some e ∧
      (pastEnd.act .finish).2.isRunning = false ∧ (pastEnd.act .finish).2.Aborted ∧
      ∃ q eof, pastEnd.Ends .finish q eof ∧
        q.TripsLate eof e (pastEnd.act .finish).2.results := by
  have setUp : pastEnd.WasSetUp := ⟨twoAllowed, wordOrPastEnd, .detached, [.feed wordA], rfl⟩
  have failed : (pastEnd.act .finish).1.error?.isSome = true := by decide +kernel
  have left : (pastEnd.act .finish).2.results.isEmpty = false := by decide +kernel
  obtain ⟨e, failed⟩ := Option.isSome_iff_exists.mp failed
  obtain ⟨stopped, aborted, results⟩ := error_leaves_results_only_at_the_end setUp .finish failed
  refine ⟨e, setUp, failed, stopped, aborted, results.resolve_left ?_⟩
  intro none
  rw [none] at left
  cases left

theorem result_beside_an_error :
    pastEnd.finish.1.isSome = true ∧ pastEnd.finish.2.results.size = 1 := by
  decide +kernel

end Parser

end Lockstep
