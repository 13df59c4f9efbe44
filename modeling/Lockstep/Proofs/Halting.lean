import Lockstep.Proofs.Compaction
import Lockstep.Proofs.Diagnostics
import Lockstep.Proofs.Termination

set_option autoImplicit false

namespace Lockstep

open Grammar (lastPlace endMarker)

/-- The token that is met in the call by a parser whose last token stands at `last`. -/
def Call.token (last : Position) : Call → Token
  | .feed token => token
  | .finish => endMarker last

theorem Enumerates.unique {α : Type} {xs ys : List (Choices × α)} {P : Choices → α → Prop}
    (h : Enumerates xs P) (h' : Enumerates ys P) : xs = ys := by
  have same : xs.Perm ys :=
    (List.perm_ext_iff_of_nodup h.ordered.nodup.of_map h'.ordered.nodup.of_map).mpr
      fun (w, x) => (h.mem_iff w x).trans (h'.mem_iff w x).symm
  exact same.eq_of_pairwise (fun _ _ _ _ before back => absurd back before.asymm) h.ordered
    h'.ordered

namespace Parser

def called (p : Parser) (calls : List Call) : Parser := calls.foldl (fun p c => (p.call c).2) p

def lost (p : Parser) (token : Token) : List Failure :=
  match p.consume token with
  | (.error _, _) => []
  | (.ok (survivors, failed), q) =>
    if token.isEof then
      match Parser.complete { q with threads := survivors.toList } token failed with
      | (.error _, _) => []
      | (.ok failed, q) => q.failures failed
    else q.failures failed

/-- The parser halts in the call with the number `i`, which lets it meet `token`, and `fs` are the
failures there. -/
inductive HaltsAt : Parser → List Call → Nat → Token → List Failure → Prop where
  | now {p : Parser} {c : Call} {calls : List Call} (runs : p.isRunning = true)
      (halted : (p.call c).2.status = .halted) :
    HaltsAt p (c :: calls) 0 (c.token p.last) (p.lost (c.token p.last))
  | later {p : Parser} {c : Call} {calls : List Call} {i : Nat} {token : Token} {fs : List Failure}
      (more : HaltsAt (p.call c).2 calls i token fs) :
    HaltsAt p (c :: calls) (i + 1) token fs

variable {p : Parser} {token : Token} {c : Call} {calls : List Call} {i : Nat} {fs : List Failure}

theorem call_of_stopped (stopped : p.isRunning = false) (c : Call) : p.call c = (none, p) := by
  cases c with
  | feed token => exact feed_of_stopped stopped token
  | finish => exact finish_of_stopped stopped

theorem called_of_stopped (stopped : p.isRunning = false) (calls : List Call) :
    p.called calls = p := by
  induction calls with
  | nil => rfl
  | cons c calls ih =>
    rw [called, List.foldl_cons, call_of_stopped stopped]
    exact ih

theorem not_haltsAt_of_stopped (stopped : p.isRunning = false) : ¬ p.HaltsAt calls i token fs := by
  intro halts
  induction halts with
  | now runs => exact Bool.noConfusion (stopped.symm.trans runs)
  | later _ ih =>
    rw [call_of_stopped stopped] at ih
    exact ih stopped

theorem call_eq_feed (runs : p.isRunning = true) (c : Call) :
    p.call c = p.feed (c.token p.last) := by
  cases c with
  | feed token => rfl
  | finish =>
    exact finish_eq_feed runs

theorem diagnostics_of_finishAt {eof : Token} (marker : eof.isEof = true)
    (ok : (p.finishAt eof).1 = none) (halted : (p.finishAt eof).2.status = .halted) :
    (p.finishAt eof).2.diagnostics = Failure.report (p.lost eof) eof := by
  simp only [finishAt, lost, marker, ↓reduceIte] at ok halted ⊢
  generalize p.consume eof = r at *
  obtain ⟨outcome, q⟩ := r
  cases outcome with
  | error e => cases ok
  | ok outcome =>
    obtain ⟨survivors, failed⟩ := outcome
    simp only at ok halted ⊢
    generalize Parser.complete { q with threads := survivors.toList } eof failed = r at *
    obtain ⟨outcome, q'⟩ := r
    cases outcome with
    | error e => cases ok
    | ok failed =>
      simp only at ok halted ⊢
      split
      · rfl
      · next some =>
        rw [if_neg some] at halted
        cases halted

theorem diagnostics_of_take (runs : p.isRunning = true) (plain : token.isEof = false)
    (ok : (p.take token).1 = none) (halted : (p.take token).2.status = .halted) :
    (p.take token).2.diagnostics = Failure.report (p.lost token) token := by
  have kept := (p.consume_keeps token).1
  simp only [take, lost, plain, Bool.false_eq_true, ↓reduceIte] at ok halted ⊢
  generalize p.consume token = r at *
  obtain ⟨outcome, q⟩ := r
  cases outcome with
  | error e => cases ok
  | ok outcome =>
    simp only at ok halted kept ⊢
    split
    · rfl
    · next some =>
      rw [if_neg some] at halted
      have running : p.status = .running := beq_iff_eq.mp runs
      rw [countToken, countNodes] at halted
      exact Status.noConfusion (running.symm.trans (kept.symm.trans halted))

theorem diagnostics_of_halted (runs : p.isRunning = true) (ok : (p.feed token).1 = none)
    (halted : (p.feed token).2.status = .halted) :
    (p.feed token).2.diagnostics = Failure.report (p.lost token) token := by
  rw [feed_of_running runs] at ok halted ⊢
  cases ended : token.isEof with
  | true =>
    simp only [ended, ↓reduceIte] at ok halted ⊢
    exact diagnostics_of_finishAt ended ok halted
  | false =>
    simp only [ended, Bool.false_eq_true, ↓reduceIte] at ok halted ⊢
    have reports := @diagnostics_of_take p token runs ended
    generalize p.take token = r at *
    obtain ⟨error?, q⟩ := r
    cases error? with
    | some e => cases ok
    | none =>
      simp only at ok halted reports ⊢
      split
      · next due =>
        rw [if_pos due] at halted
        exact reports trivial halted
      · next notDue =>
        rw [if_neg notDue] at halted
        exact reports trivial halted

theorem ok_cons_iff : (∀ o ∈ p.observed (c :: calls), o.error? = none) ↔
    (p.call c).1 = none ∧ ∀ o ∈ (p.call c).2.observed calls, o.error? = none := by
  rw [observed, List.forall_mem_cons]
  rfl

theorem HaltsAt.diagnostics_eq (h : p.HaltsAt calls i token fs)
    (ok : ∀ o ∈ p.observed calls, o.error? = none) :
    (p.called calls).diagnostics = Failure.report fs token := by
  induction h with
  | @now p c calls runs halted =>
    have here := (ok_cons_iff.mp ok).1
    have stopped : (p.call c).2.isRunning = false := by
      rw [isRunning, halted]
      rfl
    have rest : p.called (c :: calls) = (p.call c).2 := called_of_stopped stopped calls
    rw [rest]
    rw [call_eq_feed runs] at here halted ⊢
    exact diagnostics_of_halted runs here halted
  | later _ ih => exact ih (ok_cons_iff.mp ok).2

end Parser

namespace Grammar

/-- The derivations of `pattern` that wait after `tokens` are `ds`, and `es` wait after `token` as
well. None goes on there: none takes `token`, or it ends the input and none is complete. -/
structure Stops (g : Grammar) (pattern : Pattern) (start : Position) (tokens : List Token)
    (token : Token) (ds es : List (Choices × Waiting)) : Prop where
  all : Enumerates ds (g.Partial pattern start tokens)
  later : Enumerates es (g.Partial pattern start (tokens ++ [token]))
  stuck : token.isEof = false → ¬ g.Consumes pattern start (tokens ++ [token])
  incomplete : token.isEof = true →
    ∀ marked w capture, ¬ g.Completes pattern start tokens token marked w capture

/-- Some derivations of `pattern` take `tokens`, and all of them fail at `token`, for the reasons
`fs`. -/
def Fails (g : Grammar) (pattern : Pattern) (start : Position) (tokens : List Token) (token : Token)
    (fs : List Failure) : Prop :=
  g.Consumes pattern start tokens ∧ ∃ ds es, g.Stops pattern start tokens token ds es ∧
    fs = failuresAt token (lastPlace start tokens).endPoint ds ++
      closingFailuresAt token (lastPlace start tokens).endPoint es

theorem Fails.unique {g : Grammar} {pattern : Pattern} {start : Position} {tokens : List Token}
    {token : Token} {fs fs' : List Failure} (h : g.Fails pattern start tokens token fs)
    (h' : g.Fails pattern start tokens token fs') : fs = fs' := by
  obtain ⟨-, ds, es, stops, rfl⟩ := h
  obtain ⟨-, ds', es', stops', rfl⟩ := h'
  rw [stops.all.unique stops'.all, stops.later.unique stops'.later]

inductive Halts (g : Grammar) (pattern : Pattern) (start : Position) :
    List Token → List Call → Nat → Token → List Failure → Prop where
  | now {tokens : List Token} {c : Call} {token : Token} {calls : List Call} {fs : List Failure}
      (met : c.token (lastPlace start tokens) = token)
      (fails : g.Fails pattern start tokens token fs) :
    g.Halts pattern start tokens (c :: calls) 0 token fs
  | later {tokens : List Token} {token token' : Token} {calls : List Call} {i : Nat}
      {fs : List Failure} (plain : token.isEof = false)
      (more : g.Halts pattern start (tokens ++ [token]) calls i token' fs) :
    g.Halts pattern start tokens (.feed token :: calls) (i + 1) token' fs

/-- When `tokens` have been taken, the derivations of `pattern` yield the captures by the end of the
input that is among the calls that follow; before it they yield nothing. -/
inductive Yields (g : Grammar) (pattern : Pattern) (start : Position) :
    List Token → List Call → List Capture → Prop where
  | nothing {tokens : List Token} : g.Yields pattern start tokens [] []
  | token {tokens : List Token} {token : Token} {calls : List Call} {captures : List Capture}
      (plain : token.isEof = false)
      (more : g.Yields pattern start (tokens ++ [token]) calls captures) :
    g.Yields pattern start tokens (.feed token :: calls) captures
  | ending {tokens : List Token} {c : Call} {eof : Token} {calls : List Call}
      {ds es : List (Choices × Waiting)} (met : c.token (lastPlace start tokens) = eof)
      (marker : eof.isEof = true) (all : Enumerates ds (g.Partial pattern start tokens))
      (all' : Enumerates es (g.Partial pattern start (tokens ++ [eof]))) :
    g.Yields pattern start tokens (c :: calls)
      ((completions eof (lastPlace start tokens).endPoint ds).map Prod.snd ++
        (completions eof (lastPlace start tokens).endPoint es).map Prod.snd)

end Grammar

namespace Parser

variable {g : Grammar} {pattern : Pattern} {start : Position} {tokens : List Token}
  {p q : Parser} {token eof : Token} {c : Call} {calls : List Call} {i : Nat} {fs : List Failure}

theorem last_of_fed (tracked : p.weave.Fed g pattern start tokens) (runs : p.isRunning = true) :
    p.last = lastPlace start tokens := by
  obtain ⟨ts, tracks⟩ := tracked.tracks runs
  exact tracks.last_eq

theorem lost_of_plain (sound : p.Sound) (tracked : p.weave.Fed g pattern start tokens)
    (runs : p.isRunning = true) (plain : token.isEof = false) (ok : (p.feed token).1 = none) :
    ∃ ds, Enumerates ds (g.Partial pattern start tokens) ∧
      p.lost token = failuresAt token (lastPlace start tokens).endPoint ds := by
  obtain ⟨ts, tracks⟩ := tracked.tracks runs
  obtain ⟨-, -, -, same⟩ := consume_sim sound token
  rw [feed_of_running runs] at ok
  simp only [lost, plain, Bool.false_eq_true, ↓reduceIte, take] at ok ⊢
  generalize p.consume token = r at ok same ⊢
  obtain ⟨outcome, q⟩ := r
  cases outcome with
  | error e => cases ok
  | ok outcome =>
    obtain ⟨-, ds, all, -, failures, -⟩ := tracks.consume same
    rw [tracked.grammar_eq] at all
    exact ⟨ds, all, failures⟩

theorem lost_of_marker (sound : p.Sound) (tracked : p.weave.Fed g pattern start tokens)
    (runs : p.isRunning = true) (marker : eof.isEof = true) (ok : (p.feed eof).1 = none) :
    ∃ ds es, Enumerates ds (g.Partial pattern start tokens) ∧
      Enumerates es (g.Partial pattern start (tokens ++ [eof])) ∧
      p.lost eof = failuresAt eof (lastPlace start tokens).endPoint ds ++
        closingFailuresAt eof (lastPlace start tokens).endPoint es := by
  obtain ⟨ts, tracks⟩ := tracked.tracks runs
  obtain ⟨soundStore, -, within, same⟩ := consume_sim sound eof
  rw [feed_of_running runs] at ok
  simp only [lost, marker, ↓reduceIte, finishAt] at ok ⊢
  generalize p.consume eof = r at ok soundStore within same ⊢
  obtain ⟨outcome, q⟩ := r
  cases outcome with
  | error e => cases ok
  | ok outcome =>
    obtain ⟨survivors, failed⟩ := outcome
    obtain ⟨survivorsWithin, failedWithin⟩ := within survivors failed rfl
    obtain ⟨-, same'⟩ := complete_sim (p := { q with threads := survivors.toList })
      ⟨soundStore, survivorsWithin⟩ eof failedWithin
    simp only at ok ⊢
    generalize Parser.complete { q with threads := survivors.toList } eof failed = r at ok same' ⊢
    obtain ⟨outcome, q'⟩ := r
    cases outcome with
    | error e => cases ok
    | ok failed' =>
      obtain ⟨ds, es, all, all', failures, -⟩ := tracks.closed marker same same'
      rw [tracked.grammar_eq] at all all'
      exact ⟨ds, es, all, all', failures⟩

theorem fails_of_halted (sound : p.Sound) (tracked : p.weave.Fed g pattern start tokens)
    (runs : p.isRunning = true) (ok : (p.feed token).1 = none)
    (halted : (p.feed token).2.status = .halted) :
    g.Fails pattern start tokens token (p.lost token) := by
  cases ended : token.isEof with
  | false =>
    obtain ⟨halts, -⟩ := haltsAs_feed_iff sound tracked ended (eq_none_snd ok)
    obtain ⟨consumes, stuck⟩ := halts.mp ⟨runs, halted⟩
    obtain ⟨ds, all, same⟩ := lost_of_plain sound tracked runs ended ok
    refine ⟨consumes, ds, [], ⟨all, enumerates_nil_of_not_consumes stuck, fun _ => stuck, ?_⟩, ?_⟩
    · exact fun marker => Bool.noConfusion (ended.symm.trans marker)
    · exact same.trans (List.append_nil _).symm
  | true =>
    obtain ⟨halts, -⟩ := haltsAs_end_iff sound tracked (.inl ⟨ended, eq_none_snd ok⟩)
    obtain ⟨consumes, none⟩ := halts.mp ⟨runs, halted⟩
    obtain ⟨ds, es, all, later, same⟩ := lost_of_marker sound tracked runs ended ok
    refine ⟨consumes, ds, es, ⟨all, later, ?_, fun _ => none⟩, same⟩
    exact fun plain => Bool.noConfusion (plain.symm.trans ended)

theorem halted_of_fails (sound : p.Sound) (tracked : p.weave.Fed g pattern start tokens)
    (ok : (p.feed token).1 = none) (fails : g.Fails pattern start tokens token fs) :
    p.isRunning = true ∧ (p.feed token).2.status = .halted ∧ p.lost token = fs := by
  have halts : p.isRunning = true ∧ (p.feed token).2.status = .halted := by
    obtain ⟨consumes, ds, es, stops, -⟩ := fails
    cases ended : token.isEof with
    | false =>
      obtain ⟨halts, -⟩ := haltsAs_feed_iff sound tracked ended (eq_none_snd ok)
      exact halts.mpr ⟨consumes, stops.stuck ended⟩
    | true =>
      obtain ⟨halts, -⟩ := haltsAs_end_iff sound tracked (.inl ⟨ended, eq_none_snd ok⟩)
      exact halts.mpr ⟨consumes, stops.incomplete ended⟩
  obtain ⟨runs, halted⟩ := halts
  exact ⟨runs, halted, (fails_of_halted sound tracked runs ok halted).unique fails⟩

theorem call_eq_feed_of_fed (tracked : p.weave.Fed g pattern start tokens) (c : Call) :
    p.call c = p.feed (c.token (lastPlace start tokens)) := by
  cases runs : p.isRunning with
  | true => rw [call_eq_feed runs, last_of_fed tracked runs]
  | false => rw [call_of_stopped runs, feed_of_stopped runs]

theorem stopped_of_marker (marker : eof.isEof = true) : (p.feed eof).2.isRunning = false := by
  cases runs : p.isRunning with
  | true =>
    rw [feed_of_running runs, if_pos marker]
    exact finishAt_stops p eof
  | false =>
    rw [feed_of_stopped runs]
    exact runs

theorem fed_of_plain (sound : p.Sound) (tracked : p.weave.Fed g pattern start tokens)
    (plain : token.isEof = false) (ok : (p.feed token).1 = none) :
    (p.feed token).2.Sound ∧ (p.feed token).2.weave.Fed g pattern start (tokens ++ [token]) := by
  obtain ⟨sound', same⟩ := feed_sim sound token
  rw [ok] at same
  exact ⟨sound', (tracked.feed plain same).1⟩

theorem results_of_marker (sound : p.Sound) (tracked : p.weave.Fed g pattern start tokens)
    (marker : eof.isEof = true) (ok : (p.feed eof).1 = none) :
    ∃ ds es, Enumerates ds (g.Partial pattern start tokens) ∧
      Enumerates es (g.Partial pattern start (tokens ++ [eof])) ∧
      (p.feed eof).2.results.toList =
        (completions eof (lastPlace start tokens).endPoint ds).map Prod.snd ++
          (completions eof (lastPlace start tokens).endPoint es).map Prod.snd := by
  cases runs : p.isRunning with
  | true =>
    have running : p.weave.isRunning = true := runs
    obtain ⟨-, same⟩ := feed_sim sound eof
    rw [ok, Weave.feed_of_marker running marker] at same
    obtain ⟨ds, es, all, all', results, -⟩ := tracked.finishAt runs marker same
    exact ⟨ds, es, all, all', results⟩
  | false =>
    -- All derivations have died on the way, so there is none to enumerate.
    have stuck := tracked.not_consumes runs
    have stuck' : ¬ g.Consumes pattern start (tokens ++ [eof]) :=
      fun consumes => stuck (Grammar.consumes_of_concat consumes)
    rw [feed_of_stopped runs]
    exact ⟨[], [], enumerates_nil_of_not_consumes stuck, enumerates_nil_of_not_consumes stuck',
      tracked.results_eq⟩

/-- A run in which no call gives an error halts where the derivations fail. -/
theorem haltsAt_iff (sound : p.Sound) (tracked : p.weave.Fed g pattern start tokens)
    (ok : ∀ o ∈ p.observed calls, o.error? = none) :
    p.HaltsAt calls i token fs ↔ g.Halts pattern start tokens calls i token fs := by
  induction calls generalizing p tokens i with
  | nil => exact iff_of_false nofun nofun
  | cons c calls ih =>
    obtain ⟨here, rest⟩ := ok_cons_iff.mp ok
    have met := call_eq_feed_of_fed tracked c
    rw [met] at here rest
    constructor
    · intro halts
      cases halts with
      | now runs halted =>
        rw [met] at halted
        rw [last_of_fed tracked runs]
        exact .now rfl (fails_of_halted sound tracked runs here halted)
      | later more =>
        rw [met] at more
        cases ended : (c.token (lastPlace start tokens)).isEof with
        | true => exact (not_haltsAt_of_stopped (stopped_of_marker ended) more).elim
        | false =>
          obtain ⟨sound', tracked'⟩ := fed_of_plain sound tracked ended here
          cases c with
          | feed token => exact .later ended ((ih sound' tracked' rest).mp more)
          | finish => cases ended
    · intro halts
      cases halts with
      | now met' fails =>
        subst met'
        obtain ⟨runs, halted, rfl⟩ := halted_of_fails sound tracked here fails
        rw [← met] at halted
        have last := last_of_fed tracked runs
        rw [← last]
        exact .now runs halted
      | later plain more =>
        obtain ⟨sound', tracked'⟩ := fed_of_plain sound tracked plain here
        exact .later ((ih sound' tracked' rest).mpr more)

theorem yields_results (sound : p.Sound) (tracked : p.weave.Fed g pattern start tokens)
    (ok : ∀ o ∈ p.observed calls, o.error? = none) :
    g.Yields pattern start tokens calls (p.called calls).results.toList := by
  induction calls generalizing p tokens with
  | nil =>
    have none : (p.called []).results.toList = [] := tracked.results_eq
    rw [none]
    exact .nothing
  | cons c calls ih =>
    obtain ⟨here, rest⟩ := ok_cons_iff.mp ok
    have met := call_eq_feed_of_fed tracked c
    rw [met] at here rest
    have next : p.called (c :: calls) =
        (p.feed (c.token (lastPlace start tokens))).2.called calls := by
      rw [called, List.foldl_cons, met]
      rfl
    rw [next]
    cases ended : (c.token (lastPlace start tokens)).isEof with
    | false =>
      obtain ⟨sound', tracked'⟩ := fed_of_plain sound tracked ended here
      cases c with
      | feed token => exact .token ended (ih sound' tracked' rest)
      | finish => cases ended
    | true =>
      obtain ⟨ds, es, all, all', results⟩ := results_of_marker sound tracked ended here
      rw [called_of_stopped (stopped_of_marker ended), results]
      exact .ending rfl ended all all'

end Parser

end Lockstep
