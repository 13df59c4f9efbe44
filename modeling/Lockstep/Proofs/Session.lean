import Lockstep.Proofs.Compaction
import Lockstep.Proofs.Reachable

set_option autoImplicit false

namespace Lockstep

inductive Action : Type 1 where
  | setup (pattern : Pattern) (start : Position)
  | feed (token : Token)
  | finish
  | parse {σ : Type} [TokenSource σ] (tokens : σ)
  | takeResults
  | takeDiagnostics

inductive Reply : Type 1 where
  | done
  | status (error? : Option ParseError)
  /-- The source of the tokens is left as `rest`. -/
  | pulled {σ : Type} (error? : Option ParseError) (rest : σ)
  | results (captures : List Capture)
  | diagnostics (diagnostics : List Diagnostic)

namespace Reply

def error? : Reply → Option ParseError
  | .status error? => error?
  | .pulled error? _ => error?
  | _ => none

end Reply

namespace Parser

def act (p : Parser) : Action → Reply × Parser
  | .setup pattern start => (.done, p.setup pattern start)
  | .feed token => (.status (p.feed token).1, (p.feed token).2)
  | .finish => (.status p.finish.1, p.finish.2)
  | @Action.parse _ _ tokens =>
    (.pulled (p.parse tokens).1 (p.parse tokens).2.2, (p.parse tokens).2.1)
  | .takeResults => (.results p.takeResults.1, p.takeResults.2)
  | .takeDiagnostics => (.diagnostics p.takeDiagnostics.1, p.takeDiagnostics.2)

def after (p : Parser) (actions : List Action) : Parser := actions.foldl (fun p a => (p.act a).2) p

def reported (p : Parser) : List Action → List (Reply × Observation)
  | [] => []
  | a :: actions =>
    let (reply, q) := p.act a
    (reply, q.observe reply.error?) :: q.reported actions

def IsFor (g : Grammar) (limits : Limits) (p : Parser) : Prop := p.grammar = g ∧ p.limits = limits

section

variable {g : Grammar} {limits : Limits} {p : Parser} (h : p.IsFor g limits)
include h

theorem IsFor.resolve (token : Token) : (p.resolve token).2.IsFor g limits := by
  simp only [Parser.resolve]
  split
  · exact h
  · exact h

theorem IsFor.consume (token : Token) : (p.consume token).2.IsFor g limits := by
  have resolved := h.resolve token
  simp only [Parser.consume]
  generalize p.resolve token = r at resolved
  obtain ⟨outcome, q⟩ := r
  cases outcome with
  | error e => exact resolved
  | ok ready => exact resolved

theorem IsFor.complete (eof : Token) (failed : Array Failed) :
    (p.complete eof failed).2.IsFor g limits := by
  have resolved := h.resolve eof
  simp only [Parser.complete]
  split
  · exact h
  · generalize p.resolve eof = r at resolved
    obtain ⟨outcome, q⟩ := r
    cases outcome with
    | error e => exact resolved
    | ok ready => exact resolved

theorem IsFor.finishAt (eof : Token) : (p.finishAt eof).2.IsFor g limits := by
  have consumed := h.consume eof
  simp only [Parser.finishAt]
  generalize p.consume eof = r at consumed
  obtain ⟨outcome, q⟩ := r
  cases outcome with
  | error e => exact consumed
  | ok outcome =>
    have completed := IsFor.complete (p := { q with threads := outcome.1.toList }) consumed eof
      outcome.2
    simp only
    generalize Parser.complete _ eof outcome.2 = r at completed
    obtain ⟨outcome, q⟩ := r
    cases outcome with
    | error e => exact completed
    | ok failed =>
      simp only
      split
      · exact completed
      · exact completed

theorem IsFor.take (token : Token) : (p.take token).2.IsFor g limits := by
  have consumed := h.consume token
  simp only [Parser.take]
  generalize p.consume token = r at consumed
  obtain ⟨outcome, q⟩ := r
  cases outcome with
  | error e => exact consumed
  | ok outcome =>
    simp only
    split
    · exact consumed
    · exact consumed

theorem IsFor.feed (token : Token) : (p.feed token).2.IsFor g limits := by
  simp only [Parser.feed]
  split
  · exact h
  · split
    · exact h.finishAt token
    · have taken := h.take token
      generalize p.take token = r at taken
      obtain ⟨error?, q⟩ := r
      cases error? with
      | some e => exact taken
      | none =>
        simp only
        split
        · exact taken
        · exact taken

theorem IsFor.finish : p.finish.2.IsFor g limits := by
  simp only [Parser.finish]
  split
  · exact h.finishAt _
  · exact h

theorem IsFor.parse {σ : Type} [TokenSource σ] (tokens : σ) :
    (p.parse tokens).2.1.IsFor g limits :=
  @parse_keeps _ _ p (IsFor g limits) (fun _ token h => h.feed token) (fun _ h => h.finish)
    (fun _ h => h) h tokens

theorem IsFor.act (a : Action) : (p.act a).2.IsFor g limits := by
  cases a with
  | setup pattern start => exact h
  | feed token => exact h.feed token
  | finish => exact h.finish
  | parse tokens => exact h.parse tokens
  | takeResults => exact h
  | takeDiagnostics => exact h

theorem IsFor.after (actions : List Action) : (p.after actions).IsFor g limits := by
  induction actions generalizing p with
  | nil => exact h
  | cons a actions ih => exact ih (h.act a)

end

structure Alike (p q : Parser) : Prop where
  sound : p.Sound
  sound' : q.Sound
  weave_eq : p.weave = q.weave

/-- Two parsers for one grammar under the same limits are alike once they are set up. -/
theorem alike_setup {g : Grammar} {limits : Limits} {p q : Parser} (h : p.IsFor g limits)
    (h' : q.IsFor g limits) (pattern : Pattern) (start : Position) :
    (p.setup pattern start).Alike (q.setup pattern start) := by
  obtain ⟨sound, same⟩ := setup_sim p pattern start
  obtain ⟨sound', same'⟩ := setup_sim q pattern start
  exact ⟨sound, sound', by rw [same, same', h.1, h.2, h'.1, h'.2]⟩

section

variable {p q : Parser} (h : p.Alike q)
include h

theorem Alike.isRunning_eq : p.isRunning = q.isRunning :=
  congrArg Weave.isRunning h.weave_eq

theorem Alike.feed (token : Token) :
    (p.feed token).1 = (q.feed token).1 ∧ (p.feed token).2.Alike (q.feed token).2 := by
  obtain ⟨sound, same⟩ := feed_sim h.sound token
  obtain ⟨sound', same'⟩ := feed_sim h.sound' token
  rw [h.weave_eq, same'] at same
  exact ⟨(congrArg Prod.fst same).symm, sound, sound', (congrArg Prod.snd same).symm⟩

theorem Alike.finish : p.finish.1 = q.finish.1 ∧ p.finish.2.Alike q.finish.2 := by
  obtain ⟨sound, same⟩ := finish_sim h.sound
  obtain ⟨sound', same'⟩ := finish_sim h.sound'
  rw [h.weave_eq, same'] at same
  exact ⟨(congrArg Prod.fst same).symm, sound, sound', (congrArg Prod.snd same).symm⟩

theorem Alike.halt : p.halt.Alike q.halt := by
  obtain ⟨sound, same⟩ := halt_sim h.sound.1
  obtain ⟨sound', same'⟩ := halt_sim h.sound'.1
  exact ⟨sound, sound', by rw [same, same', h.weave_eq]⟩

theorem Alike.parse {σ : Type} [TokenSource σ] (tokens : σ) :
    (p.parse tokens).1 = (q.parse tokens).1 ∧ (p.parse tokens).2.2 = (q.parse tokens).2.2 ∧
      (p.parse tokens).2.1.Alike (q.parse tokens).2.1 := by
  cases runs : p.isRunning with
  | false =>
    have runs' := h.isRunning_eq.symm.trans runs
    rw [parse_of_stopped runs, parse_of_stopped runs']
    exact ⟨rfl, rfl, h⟩
  | true =>
    induction tokens using TokenSource.pull_induction generalizing p q with
    | failed s fault s' step =>
      have runs' := h.isRunning_eq.symm.trans runs
      rw [parse_of_error runs step, parse_of_error runs' step]
      exact ⟨rfl, rfl, h.halt⟩
    | ended s token s' step marker =>
      have runs' := h.isRunning_eq.symm.trans runs
      rw [parse_of_end runs step marker, parse_of_end runs' step marker]
      exact ⟨h.finish.1, rfl, h.finish.2⟩
    | pulled s token s' step plain ih =>
      have runs' := h.isRunning_eq.symm.trans runs
      obtain ⟨error_eq, alike⟩ := h.feed token
      rw [parse_of_token runs step plain, parse_of_token runs' step plain]
      generalize p.feed token = r at *
      generalize q.feed token = r' at *
      obtain ⟨error?, p'⟩ := r
      obtain ⟨error?', q'⟩ := r'
      cases error_eq
      cases error? with
      | some e => exact ⟨rfl, rfl, alike⟩
      | none =>
        cases still : p'.isRunning with
        | true => exact ih alike still
        | false =>
          have still' := alike.isRunning_eq.symm.trans still
          simp only [parse_of_stopped still, parse_of_stopped still']
          exact ⟨trivial, trivial, alike⟩

theorem Alike.observe_eq (error? : Option ParseError) : p.observe error? = q.observe error? := by
  rw [observe_weave, observe_weave, h.weave_eq]

theorem Alike.act (a : Action) : (p.act a).1 = (q.act a).1 ∧ (p.act a).2.Alike (q.act a).2 := by
  have results : p.results.toList = q.results.toList := congrArg Weave.results h.weave_eq
  have diagnostics : p.diagnostics = q.diagnostics := congrArg Weave.diagnostics h.weave_eq
  cases a with
  | setup pattern start =>
    have grammar_eq : p.grammar = q.grammar := congrArg Weave.grammar h.weave_eq
    have limits_eq : p.limits = q.limits := congrArg Weave.limits h.weave_eq
    exact ⟨rfl, alike_setup ⟨grammar_eq, limits_eq⟩ ⟨rfl, rfl⟩ pattern start⟩
  | feed token =>
    obtain ⟨error_eq, alike⟩ := h.feed token
    exact ⟨congrArg Reply.status error_eq, alike⟩
  | finish =>
    obtain ⟨error_eq, alike⟩ := h.finish
    exact ⟨congrArg Reply.status error_eq, alike⟩
  | parse tokens =>
    obtain ⟨error_eq, rest_eq, alike⟩ := h.parse tokens
    refine ⟨?_, alike⟩
    simp only [Parser.act, error_eq, rest_eq]
  | takeResults =>
    refine ⟨congrArg Reply.results results, h.sound, h.sound', ?_⟩
    exact congrArg (fun v : Weave => { v with results := [] }) h.weave_eq
  | takeDiagnostics =>
    refine ⟨congrArg Reply.diagnostics diagnostics, h.sound, h.sound', ?_⟩
    exact congrArg (fun v : Weave => { v with diagnostics := [] }) h.weave_eq

theorem Alike.reported_eq (actions : List Action) : p.reported actions = q.reported actions := by
  induction actions generalizing p q with
  | nil => rfl
  | cons a actions ih =>
    obtain ⟨reply_eq, alike⟩ := h.act a
    simp only [reported, reply_eq, alike.observe_eq, ih alike]

end

/-- Whatever was called on a parser before, once it is set up it returns and shows at every call what
a new parser does. -/
theorem setup_forgets_history (g : Grammar) (limits : Limits) (history : List Action)
    (pattern : Pattern) (start : Position) (actions : List Action) :
    ((ofGrammar g limits).after history).reported (.setup pattern start :: actions) =
      (ofGrammar g limits).reported (.setup pattern start :: actions) := by
  have fresh : (ofGrammar g limits).IsFor g limits := ⟨rfl, rfl⟩
  have alike := alike_setup (fresh.after history) fresh pattern start
  simp only [reported, act]
  rw [alike.observe_eq, alike.reported_eq]

end Parser

end Lockstep
