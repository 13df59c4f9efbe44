import Lockstep.Proofs.Enumeration

set_option autoImplicit false

/-!
A weave keeps track of all partial derivations. Its strands are tagged with the choices that led to
them. One step lemma for each operation says what the waiting derivations make of the next token,
and the run lemma at the end what any number of tokens leaves behind.
-/

namespace Lockstep

open Grammar (lastPlace lastPlace_append partial_concat_iff consumes_concat_iff)

def select {α : Type} (keeps : Waiting → Bool) (f : Waiting → α) (ds : List (Choices × Waiting)) :
    List (Choices × α) :=
  ds.filterMap fun (w, x) => if keeps x then some (w, f x) else none

def takers (token : Token) (last : Position) : List (Choices × Waiting) → List (Choices × Strand) :=
  select (fun x => x.takes token last) fun x => x.advance token

def completions (eof : Token) (last : Position) :
    List (Choices × Waiting) → List (Choices × Capture) :=
  select (fun x => x.isComplete eof last) fun x => Frame.outermost x.frames

def failuresAt (token : Token) (last : Position) (ds : List (Choices × Waiting)) : List Failure :=
  ds.flatMap fun (_, x) => x.failures token last

def closingFailuresAt (eof : Token) (last : Position) (ds : List (Choices × Waiting)) :
    List Failure :=
  ds.flatMap fun (_, x) => x.closingFailures eof last

section

variable {α : Type} {keeps : Waiting → Bool} {f : Waiting → α} {ds : List (Choices × Waiting)}

theorem mem_select_iff {w : Choices} {y : α} :
    (w, y) ∈ select keeps f ds ↔ ∃ x, (w, x) ∈ ds ∧ keeps x = true ∧ y = f x := by
  rw [select, List.mem_filterMap]
  constructor
  · rintro ⟨⟨w', x⟩, mem, same⟩
    simp only [Option.ite_none_right_eq_some] at same
    obtain ⟨kept, same⟩ := same
    cases same
    exact ⟨x, mem, kept, rfl⟩
  · rintro ⟨x, mem, kept, rfl⟩
    exact ⟨(w, x), mem, if_pos kept⟩

theorem ordered_select (ordered : Ordered ds) : Ordered (select keeps f ds) := by
  refine List.Pairwise.filterMap _ ?_ ordered
  rintro ⟨w, x⟩ ⟨w', x'⟩ before a mem b mem'
  simp only [Option.ite_none_right_eq_some, Option.some.injEq] at mem mem'
  rw [← mem.2, ← mem'.2]
  exact before

theorem map_snd_select :
    (select keeps f ds).map Prod.snd =
      (ds.map Prod.snd).flatMap fun x => if keeps x then [f x] else [] := by
  induction ds with
  | nil => rfl
  | cons d ds ih =>
    rw [List.map_cons, List.flatMap_cons, ← ih]
    cases kept : keeps d.2 with
    | true =>
      simp only [select, List.filterMap_cons, kept, ↓reduceIte, List.map_cons, List.singleton_append]
    | false =>
      simp only [select, List.filterMap_cons, kept, Bool.false_eq_true, ↓reduceIte, List.nil_append]

end

section

variable {g : Grammar} {pattern : Pattern} {start : Position} {tokens : List Token} {token : Token}
  {ds : List (Choices × Waiting)}

theorem mem_takers_iff {last : Position} {w : Choices} {t : Strand} :
    (w, t) ∈ takers token last ds ↔
      ∃ x, (w, x) ∈ ds ∧ x.takes token last = true ∧ t = x.advance token :=
  mem_select_iff

/-- What takes a token goes on to all partial derivations with one token more. -/
theorem partial_concat_iff_reached (all : Enumerates ds (g.Partial pattern start tokens))
    (w : Choices) (x : Waiting) :
    g.Partial pattern start (tokens ++ [token]) w x ↔
      Reached g (lastPlace start (tokens ++ [token]))
        (takers token (lastPlace start tokens).endPoint ds) w x := by
  rw [partial_concat_iff]
  constructor
  · rintro ⟨u, v, y, rfl, before, takes, reaches⟩
    exact ⟨u, y.advance token, v,
      mem_takers_iff.mpr ⟨y, (all.mem_iff u y).mpr before, takes, rfl⟩, rfl, reaches⟩
  · rintro ⟨u, t, v, mem, rfl, reaches⟩
    obtain ⟨y, waits, takes, rfl⟩ := mem_takers_iff.mp mem
    exact ⟨u, v, y, rfl, (all.mem_iff u y).mp waits, takes, reaches⟩

theorem enumerates_nil_of_not_consumes (stuck : ¬ g.Consumes pattern start tokens) :
    Enumerates [] (g.Partial pattern start tokens) := by
  refine ⟨.nil, ?_⟩
  intro w x
  exact iff_of_false List.not_mem_nil fun waits => stuck waits.consumes

theorem takers_ne_nil_iff (all : Enumerates ds (g.Partial pattern start tokens)) :
    takers token (lastPlace start tokens).endPoint ds ≠ [] ↔
      g.Consumes pattern start (tokens ++ [token]) := by
  rw [consumes_concat_iff]
  constructor
  · intro some
    obtain ⟨⟨w, t⟩, mem⟩ := List.exists_mem_of_ne_nil _ some
    obtain ⟨x, waits, takes, -⟩ := mem_takers_iff.mp mem
    exact ⟨w, x, (all.mem_iff w x).mp waits, takes⟩
  · rintro ⟨w, x, before, takes⟩
    have mem := mem_takers_iff.mpr ⟨x, (all.mem_iff w x).mpr before, takes, rfl⟩
    exact List.ne_nil_of_mem mem

end

namespace Weave

/-- The strands are what the derivations of `pattern` that took all of `tokens` have come to; `ts`
has them with their choices. -/
structure Tracks (v : Weave) (pattern : Pattern) (start : Position) (tokens : List Token)
    (ts : List (Choices × Strand)) : Prop where
  strands_eq : v.strands = ts.map Prod.snd
  ordered : Ordered ts
  last_eq : v.last = lastPlace start tokens
  partial_iff : ∀ w x,
    v.grammar.Partial pattern start tokens w x ↔ Reached v.grammar v.last ts w x

variable {v v' : Weave} {pattern : Pattern} {start : Position} {tokens : List Token}
  {token eof : Token} {ts : List (Choices × Strand)}

theorem ofPattern_tracks (g : Grammar) (limits : Limits) (pattern : Pattern) (start : Position) :
    (Weave.ofPattern g limits pattern start).Tracks pattern start []
      [([], ⟨.ofPattern pattern, []⟩)] := by
  refine ⟨rfl, List.pairwise_singleton _ _, rfl, ?_⟩
  intro w x
  rw [Grammar.partial_nil_iff, reached_cons_iff]
  constructor
  · intro reaches
    exact .inl ⟨w, rfl, reaches⟩
  · rintro (⟨v, rfl, reaches⟩ | ⟨u, t, v, mem, -⟩)
    · exact reaches
    · cases mem

structure Retains (v v' : Weave) : Prop where
  grammar_eq : v'.grammar = v.grammar
  last_eq : v'.last = v.last
  status_eq : v'.status = v.status

theorem Tracks.resolve {ready : List Waiting} (h : v.Tracks pattern start tokens ts)
    (ok : v.resolve token = (.ok ready, v')) :
    v.Retains v' ∧ v'.results = v.results ∧ ∃ ds, ready = ds.map Prod.snd ∧
      Enumerates ds (v.grammar.Partial pattern start tokens) := by
  simp only [Weave.resolve] at ok
  split at ok
  · cases ok
  · next outcome =>
    cases ok
    obtain ⟨ds, same, all⟩ :=
      Phase.resolveStrands_enumerates rfl outcome h.strands_eq.symm h.ordered
    exact ⟨⟨rfl, rfl, rfl⟩, rfl, ds, same, all.congr fun w x => (h.partial_iff w x).symm⟩

theorem Tracks.consume {survivors : List Strand} {failures : List Failure}
    (h : v.Tracks pattern start tokens ts)
    (ok : v.consume token = (.ok (survivors, failures), v')) :
    let last := (lastPlace start tokens).endPoint
    v.Retains v' ∧ ∃ ds, Enumerates ds (v.grammar.Partial pattern start tokens) ∧
      survivors = (takers token last ds).map Prod.snd ∧ failures = failuresAt token last ds ∧
      v'.results = v.results ++
        if token.isEof then (completions token last ds).map Prod.snd else [] := by
  simp only [Weave.consume] at ok
  split at ok
  · cases ok
  · next ready v₁ resolved =>
    obtain ⟨retains, results, ds, rfl, all⟩ := h.resolve resolved
    cases ok
    rw [← results, retains.last_eq, h.last_eq]
    refine ⟨⟨retains.grammar_eq, retains.last_eq, retains.status_eq⟩, ds, all, ?_, ?_, ?_⟩
    · rw [takers, map_snd_select, List.flatMap_map]
      rfl
    · rw [failuresAt, List.map_map, List.flatMap_map]
      rfl
    · refine congrArg (v₁.results ++ ·) ?_
      rw [completions, map_snd_select, List.flatMap_map]
      cases marked : token.isEof with
      | true => simp only [Waiting.meet, marked, Bool.true_and, ↓reduceIte]
      | false =>
        simp only [Waiting.meet, marked, Bool.false_and, Bool.false_eq_true, ↓reduceIte]
        exact List.flatMap_eq_nil_iff.mpr fun _ _ => rfl

theorem Tracks.complete {failures failures' : List Failure}
    (h : v.Tracks pattern start tokens ts) (ok : v.complete eof failures = (.ok failures', v')) :
    let last := (lastPlace start tokens).endPoint
    v.Retains v' ∧ ∃ es, Enumerates es (v.grammar.Partial pattern start tokens) ∧
      failures' = failures ++ closingFailuresAt eof last es ∧
      v'.results = v.results ++ (completions eof last es).map Prod.snd := by
  simp only [Weave.complete] at ok
  split at ok
  · next noStrand =>
    cases ok
    rw [List.isEmpty_iff, h.strands_eq, List.map_eq_nil_iff] at noStrand
    have none : Enumerates [] (v.grammar.Partial pattern start tokens) := by
      have reached : Enumerates [] (Reached v.grammar v.last []) := .nil
      rw [← noStrand] at reached
      exact reached.congr fun w x => (h.partial_iff w x).symm
    exact ⟨⟨rfl, rfl, rfl⟩, [], none, (List.append_nil _).symm, (List.append_nil _).symm⟩
  · split at ok
    · cases ok
    · next ready v₁ resolved =>
      obtain ⟨retains, results, es, rfl, all⟩ := h.resolve resolved
      cases ok
      rw [← results, retains.last_eq, h.last_eq]
      refine ⟨⟨retains.grammar_eq, retains.last_eq, retains.status_eq⟩, es, all, ?_, ?_⟩
      · rw [closingFailuresAt, List.map_map, List.flatMap_map]
        rfl
      · refine congrArg (v₁.results ++ ·) ?_
        rw [completions, map_snd_select, List.flatMap_map]
        rfl

theorem tracks_takers {g : Grammar} {ds : List (Choices × Waiting)}
    (all : Enumerates ds (g.Partial pattern start tokens)) (grammar_eq : v.grammar = g)
    (strands_eq : v.strands =
      (takers token (lastPlace start tokens).endPoint ds).map Prod.snd)
    (last_eq : v.last = lastPlace start (tokens ++ [token])) :
    v.Tracks pattern start (tokens ++ [token])
      (takers token (lastPlace start tokens).endPoint ds) := by
  refine ⟨strands_eq, ordered_select all.ordered, last_eq, ?_⟩
  intro w x
  rw [grammar_eq, last_eq]
  exact partial_concat_iff_reached all w x

/-- After a token, the weave tracks the derivations that took it; if there is none, it has halted
and reports why. -/
theorem Tracks.take (h : v.Tracks pattern start tokens ts) (plain : token.isEof = false)
    (ok : v.take token = (none, v')) :
    v'.grammar = v.grammar ∧ v'.results = v.results ∧
      ∃ ds, Enumerates ds (v.grammar.Partial pattern start tokens) ∧
        ((v.grammar.Consumes pattern start (tokens ++ [token]) ∧ v'.status = v.status ∧
            ∃ ts', v'.Tracks pattern start (tokens ++ [token]) ts') ∨
          (¬ v.grammar.Consumes pattern start (tokens ++ [token]) ∧ v'.status = .halted ∧
            v'.diagnostics =
              Failure.report (failuresAt token (lastPlace start tokens).endPoint ds) token)) := by
  simp only [Weave.take] at ok
  split at ok
  · cases ok
  · next survivors failures v₁ consumed =>
    obtain ⟨retains, ds, all, survivors_eq, rfl, results⟩ := h.consume consumed
    simp only [plain, Bool.false_eq_true, ↓reduceIte, List.append_nil] at results
    have live : takers token _ ds ≠ [] ↔ _ := takers_ne_nil_iff all
    have place : lastPlace start (tokens ++ [token]) = token.position := by
      rw [lastPlace_append]
      simp only [lastPlace, plain, Bool.false_eq_true, ↓reduceIte]
    cases survivors with
    | nil =>
      cases ok
      refine ⟨retains.grammar_eq, results, ds, all, .inr ⟨?_, rfl, rfl⟩⟩
      intro consumes
      exact live.mpr consumes (List.map_eq_nil_iff.mp survivors_eq.symm)
    | cons t survivors =>
      cases ok
      refine ⟨retains.grammar_eq, results, ds, all, .inl ⟨?_, retains.status_eq, ?_⟩⟩
      · refine live.mp fun none => ?_
        rw [none] at survivors_eq
        cases survivors_eq
      · exact ⟨_, tracks_takers all retains.grammar_eq survivors_eq place.symm⟩

theorem Tracks.closed {v₁ v₂ : Weave} {survivors : List Strand} {failures failures' : List Failure}
    (h : v.Tracks pattern start tokens ts) (marker : eof.isEof = true)
    (consumed : v.consume eof = (.ok (survivors, failures), v₁))
    (completed : Weave.complete { v₁ with strands := survivors } eof failures =
      (.ok failures', v₂)) :
    let last := (lastPlace start tokens).endPoint
    ∃ ds es, Enumerates ds (v.grammar.Partial pattern start tokens) ∧
      Enumerates es (v.grammar.Partial pattern start (tokens ++ [eof])) ∧
      failures' = failuresAt eof last ds ++ closingFailuresAt eof last es ∧
      v₂.results = v.results ++ (completions eof last ds).map Prod.snd ++
        (completions eof last es).map Prod.snd := by
  have place : lastPlace start (tokens ++ [eof]) = lastPlace start tokens :=
    Grammar.lastPlace_marked start tokens marker
  obtain ⟨retains, ds, all, survivors_eq, rfl, results⟩ := h.consume consumed
  simp only [marker, ↓reduceIte] at results
  have tracks : { v₁ with strands := survivors }.Tracks pattern start (tokens ++ [eof]) _ :=
    tracks_takers all retains.grammar_eq survivors_eq
      (by rw [place, ← h.last_eq]; exact retains.last_eq)
  obtain ⟨-, es, all', rfl, results'⟩ := tracks.complete completed
  rw [place] at results' ⊢
  rw [retains.grammar_eq] at all'
  exact ⟨ds, es, all, all', rfl, results'.trans (congrArg (· ++ _) results)⟩

/-- At the end of the input, the complete derivations give the results; if there is none, the weave
has halted and reports why. -/
theorem Tracks.finishAt (h : v.Tracks pattern start tokens ts) (marker : eof.isEof = true)
    (ok : v.finishAt eof = (none, v')) :
    let last := (lastPlace start tokens).endPoint
    ∃ ds es, Enumerates ds (v.grammar.Partial pattern start tokens) ∧
      Enumerates es (v.grammar.Partial pattern start (tokens ++ [eof])) ∧
      v'.results = v.results ++ (completions eof last ds).map Prod.snd ++
        (completions eof last es).map Prod.snd ∧
      ((v'.results ≠ [] ∧ v'.status = .finished) ∨
        (v'.results = [] ∧ v'.status = .halted ∧
          v'.diagnostics =
            Failure.report (failuresAt eof last ds ++ closingFailuresAt eof last es) eof)) := by
  simp only [Weave.finishAt] at ok
  split at ok
  · cases ok
  · next survivors failures v₁ consumed =>
    split at ok
    · cases ok
    · next failures v₂ completed =>
      obtain ⟨ds, es, all, all', rfl, collected⟩ := h.closed marker consumed completed
      cases found : v₂.results with
      | nil =>
        simp only [Weave.countNodes, found, List.isEmpty_nil, ↓reduceIte] at ok
        cases ok
        exact ⟨ds, es, all, all', found.symm.trans collected, .inr ⟨rfl, rfl, rfl⟩⟩
      | cons c cs =>
        simp only [Weave.countNodes, found, List.isEmpty_cons, Bool.false_eq_true, ↓reduceIte] at ok
        cases ok
        refine ⟨ds, es, all, all', found.symm.trans collected, .inl ⟨?_, rfl⟩⟩
        exact List.cons_ne_nil c cs

/-- What feeding `tokens` leaves, if no call gives an error: the weave runs as long as some
derivation takes all of them, and has no results yet. -/
structure Fed (v : Weave) (g : Grammar) (pattern : Pattern) (start : Position)
    (tokens : List Token) : Prop where
  grammar_eq : v.grammar = g
  results_eq : v.results = []
  running_iff : v.isRunning = true ↔ g.Consumes pattern start tokens
  tracks : v.isRunning = true → ∃ ts, v.Tracks pattern start tokens ts

variable {g : Grammar}

theorem ofPattern_fed (g : Grammar) (limits : Limits) (pattern : Pattern) (start : Position) :
    (Weave.ofPattern g limits pattern start).Fed g pattern start [] where
  grammar_eq := rfl
  results_eq := rfl
  running_iff := ⟨fun _ => Grammar.consumes_nil g pattern start, fun _ => rfl⟩
  tracks _ := ⟨_, ofPattern_tracks g limits pattern start⟩

theorem fed_of_not_running (grammar_eq : v.grammar = g) (results_eq : v.results = [])
    (halted : v.isRunning = false) (stuck : ¬ g.Consumes pattern start tokens) :
    v.Fed g pattern start tokens := by
  have stopped : ¬ v.isRunning = true := Bool.eq_false_iff.mp halted
  exact ⟨grammar_eq, results_eq, iff_of_false stopped stuck, fun runs => absurd runs stopped⟩

theorem Fed.not_consumes (h : v.Fed g pattern start tokens) (halted : v.isRunning = false) :
    ¬ g.Consumes pattern start tokens := by
  intro consumes
  have runs := h.running_iff.mpr consumes
  rw [halted] at runs
  cases runs

/-- One more token. When the weave halts at it, it reports why each derivation fails. -/
theorem Fed.feed (h : v.Fed g pattern start tokens) (plain : token.isEof = false)
    (ok : v.feed token = (none, v')) :
    v'.Fed g pattern start (tokens ++ [token]) ∧
      (v.isRunning = true → v'.isRunning = false → v'.status = .halted ∧
        ∃ ds, Enumerates ds (g.Partial pattern start tokens) ∧
          v'.diagnostics =
            Failure.report (failuresAt token (lastPlace start tokens).endPoint ds) token) := by
  cases runs : v.isRunning with
  | false =>
    rw [Weave.feed_of_stopped runs] at ok
    cases ok
    have stuck : ¬ g.Consumes pattern start (tokens ++ [token]) :=
      fun consumes => h.not_consumes runs (Grammar.consumes_of_concat consumes)
    exact ⟨fed_of_not_running h.grammar_eq h.results_eq runs stuck,
      fun running => absurd running Bool.false_ne_true⟩
  | true =>
    rw [Weave.feed_of_plain runs plain] at ok
    obtain ⟨ts, tracks⟩ := h.tracks runs
    obtain ⟨grammar_eq, results_eq, ds, all, next⟩ := tracks.take plain ok
    rw [h.grammar_eq] at grammar_eq all next
    rw [h.results_eq] at results_eq
    rcases next with ⟨consumes, status, tracks'⟩ | ⟨stuck, status, report⟩
    · have runs' : v'.isRunning = true := by
        rw [Weave.isRunning, status]
        exact runs
      refine ⟨⟨grammar_eq, results_eq, iff_of_true runs' consumes, fun _ => tracks'⟩, ?_⟩
      intro _ halted
      rw [runs'] at halted
      cases halted
    · have halted : v'.isRunning = false := by
        rw [Weave.isRunning, status]
        rfl
      exact ⟨fed_of_not_running grammar_eq results_eq halted stuck,
        fun _ _ => ⟨status, ds, all, report⟩⟩

theorem Fed.feedAll {more : List Token} (h : v.Fed g pattern start tokens)
    (plain : ∀ token ∈ more, token.isEof = false) (ok : v.feedAll more = (none, v')) :
    v'.Fed g pattern start (tokens ++ more) := by
  induction more generalizing v tokens with
  | nil =>
    cases ok
    rw [List.append_nil]
    exact h
  | cons token more ih =>
    simp only [Weave.feedAll] at ok
    split at ok
    · cases ok
    · next v₁ fed =>
      have next := (h.feed (plain token List.mem_cons_self) fed).1
      have rest := ih next (fun t mem => plain t (List.mem_cons_of_mem token mem)) ok
      rw [List.append_assoc] at rest
      exact rest

/-- The end of the input. The results are what the complete derivations yield, first of those that
did not take the end marker; when there is none, the weave halts and reports why each derivation
fails. -/
theorem Fed.finishAt (h : v.Fed g pattern start tokens) (runs : v.isRunning = true)
    (marker : eof.isEof = true) (ok : v.finishAt eof = (none, v')) :
    let last := (lastPlace start tokens).endPoint
    ∃ ds es, Enumerates ds (g.Partial pattern start tokens) ∧
      Enumerates es (g.Partial pattern start (tokens ++ [eof])) ∧
      v'.results = (completions eof last ds).map Prod.snd ++
        (completions eof last es).map Prod.snd ∧
      ((v'.results ≠ [] ∧ v'.status = .finished) ∨
        (v'.results = [] ∧ v'.status = .halted ∧
          v'.diagnostics =
            Failure.report (failuresAt eof last ds ++ closingFailuresAt eof last es) eof)) := by
  obtain ⟨ts, tracks⟩ := h.tracks runs
  obtain ⟨ds, es, all, all', collected, ended⟩ := tracks.finishAt marker ok
  rw [h.results_eq, List.nil_append] at collected
  rw [h.grammar_eq] at all all'
  exact ⟨ds, es, all, all', collected, ended⟩

theorem Fed.finish_eq (h : v.Fed g pattern start tokens) (runs : v.isRunning = true) :
    v.finish = v.finishAt (Grammar.endMarker (lastPlace start tokens)) := by
  obtain ⟨ts, tracks⟩ := h.tracks runs
  simp only [Weave.finish, runs, ↓reduceIte]
  rw [tracks.last_eq]
  rfl

/-- Whether or not the weave still runs at the end of the input, its results are what the complete
derivations yield. -/
theorem Fed.finish (h : v.Fed g pattern start tokens) (ok : v.finish = (none, v')) :
    let eof := Grammar.endMarker (lastPlace start tokens)
    let last := (lastPlace start tokens).endPoint
    ∃ ds es, Enumerates ds (g.Partial pattern start tokens) ∧
      Enumerates es (g.Partial pattern start (tokens ++ [eof])) ∧
      v'.results = (completions eof last ds ++ completions eof last es).map Prod.snd := by
  intro eof last
  cases runs : v.isRunning with
  | true =>
    rw [h.finish_eq runs] at ok
    obtain ⟨ds, es, all, all', results, -⟩ := h.finishAt runs rfl ok
    rw [← List.map_append] at results
    exact ⟨ds, es, all, all', results⟩
  | false =>
    -- All derivations have died on the way, so there is none to enumerate.
    have stuck := h.not_consumes runs
    have stuck' : ¬ g.Consumes pattern start (tokens ++ [eof]) :=
      fun consumes => stuck (Grammar.consumes_of_concat consumes)
    simp only [Weave.finish, runs, Bool.false_eq_true, ↓reduceIte] at ok
    cases ok
    exact ⟨[], [], enumerates_nil_of_not_consumes stuck, enumerates_nil_of_not_consumes stuck',
      h.results_eq⟩

end Weave

end Lockstep
