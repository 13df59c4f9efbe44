import Lockstep.Proofs.Session

set_option autoImplicit false

namespace Lockstep

def Limits.AtMost (limits limits' : Limits) : Prop :=
  limits.maxThreads ≤ limits'.maxThreads ∧ limits.maxExpansions ≤ limits'.maxExpansions

theorem Phase.resolveStrands_under {p : Phase} {limits' : Limits} (more : p.limits.AtMost limits')
    {budget budget' : Nat} (enough : budget ≤ budget') {work : List Strand}
    {ready ready' : List Waiting} {branches made : Nat}
    (ok : (p.resolveStrands budget work ready branches made).outcome = .ok ready') :
    Phase.resolveStrands { p with limits := limits' } budget' work ready branches made =
      p.resolveStrands budget work ready branches made := by
  induction budget generalizing budget' work ready branches made with
  | zero =>
    cases work with
    | nil => cases budget' <;> rfl
    | cons t work => cases ok
  | succ budget ih =>
    obtain ⟨budget', rfl⟩ : ∃ n, budget' = n + 1 := ⟨budget' - 1, by omega⟩
    have enough : budget ≤ budget' := Nat.le_of_succ_le_succ enough
    cases work with
    | nil => rfl
    | cons t work =>
      simp only [resolveStrands] at ok ⊢
      generalize t.expand p.grammar p.marker = expansion at ok
      obtain ⟨move, k⟩ := expansion
      cases move with
      | ready w =>
        cases goal : w.goal with
        | accepted =>
          simp only [goal] at ok ⊢
          exact ih enough ok
        | token spec =>
          simp only [goal] at ok ⊢
          split at ok
          · next room =>
            have room' : ready.length < limits'.maxThreads := Nat.lt_of_lt_of_le room more.1
            rw [if_pos room, if_pos room']
            exact ih enough ok
          · cases ok
      | moved u => exact ih enough ok
      | split us => exact ih enough ok
      | unknown name => cases ok

namespace Weave

def under (limits' : Limits) (v : Weave) : Weave := { v with limits := limits' }

variable {limits' : Limits} {v w : Weave} {token eof : Token}

theorem resolve_under {ready : List Waiting} (more : v.limits.AtMost limits')
    (ok : v.resolve token = (.ok ready, w)) :
    (v.under limits').resolve token = (.ok ready, w.under limits') ∧ w.limits = v.limits := by
  let phase : Phase := ⟨v.grammar, v.limits, .empty v.last.endPoint, token.position⟩
  simp only [resolve] at ok
  cases outcome : (phase.resolveStrands v.limits.maxExpansions v.strands [] v.metrics.branches
    v.allocated).outcome with
  | error e =>
    rw [outcome] at ok
    cases ok
  | ok ready' =>
    have same := Phase.resolveStrands_under more more.2 outcome
    simp only [phase] at same outcome
    rw [outcome] at ok
    cases ok
    refine ⟨?_, rfl⟩
    simp only [resolve, under, same, outcome]

theorem consume_under {survivors : List Strand} {failures : List Failure}
    (more : v.limits.AtMost limits') (ok : v.consume token = (.ok (survivors, failures), w)) :
    (v.under limits').consume token = (.ok (survivors, failures), w.under limits') ∧
      w.limits = v.limits := by
  simp only [consume] at ok
  cases resolved : v.resolve token with
  | mk outcome u =>
    rw [resolved] at ok
    cases outcome with
    | error e => cases ok
    | ok ready =>
      obtain ⟨same, kept⟩ := resolve_under more resolved
      cases ok
      refine ⟨?_, kept⟩
      simp only [consume, same]
      rfl

theorem complete_under {failures failures' : List Failure} (more : v.limits.AtMost limits')
    (ok : v.complete eof failures = (.ok failures', w)) :
    (v.under limits').complete eof failures = (.ok failures', w.under limits') ∧
      w.limits = v.limits := by
  have strands : (v.under limits').strands = v.strands := rfl
  simp only [complete, strands] at ok ⊢
  split at ok
  · next none =>
    cases ok
    rw [if_pos none]
    exact ⟨rfl, rfl⟩
  · next some =>
    rw [if_neg some]
    cases resolved : v.resolve eof with
    | mk outcome u =>
      rw [resolved] at ok
      cases outcome with
      | error e => cases ok
      | ok ready =>
        obtain ⟨same, kept⟩ := resolve_under more resolved
        cases ok
        rw [same]
        exact ⟨rfl, kept⟩

theorem finishAt_under (more : v.limits.AtMost limits') (ok : v.finishAt eof = (none, w)) :
    (v.under limits').finishAt eof = (none, w.under limits') := by
  simp only [finishAt] at ok ⊢
  cases consumed : v.consume eof with
  | mk outcome u =>
    rw [consumed] at ok
    cases outcome with
    | error e => cases ok
    | ok outcome =>
      obtain ⟨survivors, failures⟩ := outcome
      obtain ⟨same, kept⟩ := consume_under more consumed
      rw [same]
      simp only at ok ⊢
      cases completed : Weave.complete { u with strands := survivors } eof failures with
      | mk outcome u' =>
        rw [completed] at ok
        cases outcome with
        | error e => cases ok
        | ok failures' =>
          have more' : Limits.AtMost { u with strands := survivors }.limits limits' := by
            rw [← kept] at more
            exact more
          have same' : Weave.complete { u.under limits' with strands := survivors } eof failures =
              (.ok failures', u'.under limits') := (complete_under more' completed).1
          rw [same']
          simp only [countNodes, under] at ok ⊢
          by_cases none : u'.results.isEmpty = true
          · simp only [none, ↓reduceIte] at ok ⊢
            cases ok
            rfl
          · simp only [none, Bool.false_eq_true, ↓reduceIte] at ok ⊢
            cases ok
            rfl

theorem take_under (more : v.limits.AtMost limits') (ok : v.take token = (none, w)) :
    (v.under limits').take token = (none, w.under limits') := by
  simp only [take] at ok ⊢
  cases consumed : v.consume token with
  | mk outcome u =>
    rw [consumed] at ok
    cases outcome with
    | error e => cases ok
    | ok outcome =>
      obtain ⟨survivors, failures⟩ := outcome
      obtain ⟨same, -⟩ := consume_under more consumed
      rw [same]
      cases ok
      simp only
      split
      · rfl
      · rfl

theorem feed_under (more : v.limits.AtMost limits') (ok : v.feed token = (none, w)) :
    (v.under limits').feed token = (none, w.under limits') := by
  have running : (v.under limits').isRunning = v.isRunning := rfl
  simp only [feed, running] at ok ⊢
  split at ok
  · next stopped =>
    cases ok
    rw [if_pos stopped]
  · next runs =>
    rw [if_neg runs]
    split at ok
    · next ended =>
      rw [if_pos ended]
      exact finishAt_under more ok
    · next plain =>
      rw [if_neg plain]
      exact take_under more ok

theorem finish_under (more : v.limits.AtMost limits') (ok : v.finish = (none, w)) :
    (v.under limits').finish = (none, w.under limits') := by
  have running : (v.under limits').isRunning = v.isRunning := rfl
  simp only [finish, running] at ok ⊢
  split at ok
  · next runs =>
    rw [if_pos runs]
    exact finishAt_under more ok
  · next stopped =>
    cases ok
    rw [if_neg stopped]

end Weave

namespace Parser

/-- The parser `q` runs as the weave of `p` does under higher limits. -/
structure Freer (limits limits' : Limits) (p q : Parser) : Prop where
  sound : p.Sound
  sound' : q.Sound
  limits_eq : p.limits = limits
  weave_eq : q.weave = p.weave.under limits'

section

variable {limits limits' : Limits} {p q : Parser}

theorem freer_setup (grammar_eq : q.grammar = p.grammar) (limits_eq : p.limits = limits)
    (limits_eq' : q.limits = limits') (pattern : Pattern) (start : Position) :
    Freer limits limits' (p.setup pattern start) (q.setup pattern start) := by
  obtain ⟨sound, same⟩ := setup_sim p pattern start
  obtain ⟨sound', same'⟩ := setup_sim q pattern start
  refine ⟨sound, sound', limits_eq, ?_⟩
  rw [same, same', grammar_eq, limits_eq']
  rfl

theorem Freer.isRunning_eq (h : Freer limits limits' p q) : q.isRunning = p.isRunning :=
  congrArg Weave.isRunning h.weave_eq

theorem Freer.observe_eq (h : Freer limits limits' p q) (error? : Option ParseError) :
    q.observe error? = p.observe error? := by
  rw [observe_weave, observe_weave, h.weave_eq]
  rfl

variable (more : limits.AtMost limits') (h : Freer limits limits' p q)
include more h

theorem Freer.atMost : p.weave.limits.AtMost limits' := by
  rw [← h.limits_eq] at more
  exact more

theorem Freer.feed {token : Token} (ok : (p.feed token).1 = none) :
    (q.feed token).1 = none ∧ Freer limits limits' (p.feed token).2 (q.feed token).2 := by
  obtain ⟨sound, same⟩ := feed_sim h.sound token
  obtain ⟨sound', same'⟩ := feed_sim h.sound' token
  have kept : (p.feed token).2.IsFor p.grammar p.limits := IsFor.feed ⟨rfl, rfl⟩ token
  rw [ok] at same
  have freer := Weave.feed_under (h.atMost more) same
  rw [← h.weave_eq, same'] at freer
  exact ⟨congrArg Prod.fst freer, sound, sound', kept.2.trans h.limits_eq, congrArg Prod.snd freer⟩

theorem Freer.finish (ok : p.finish.1 = none) :
    q.finish.1 = none ∧ Freer limits limits' p.finish.2 q.finish.2 := by
  obtain ⟨sound, same⟩ := finish_sim h.sound
  obtain ⟨sound', same'⟩ := finish_sim h.sound'
  have kept : p.finish.2.IsFor p.grammar p.limits := IsFor.finish ⟨rfl, rfl⟩
  rw [ok] at same
  have freer := Weave.finish_under (h.atMost more) same
  rw [← h.weave_eq, same'] at freer
  exact ⟨congrArg Prod.fst freer, sound, sound', kept.2.trans h.limits_eq, congrArg Prod.snd freer⟩

theorem Freer.parse {σ : Type} [TokenSource σ] {tokens : σ} (ok : (p.parse tokens).1 = none) :
    (q.parse tokens).1 = none ∧ (q.parse tokens).2.2 = (p.parse tokens).2.2 ∧
      Freer limits limits' (p.parse tokens).2.1 (q.parse tokens).2.1 := by
  cases runs : p.isRunning with
  | false =>
    have runs' := h.isRunning_eq.trans runs
    rw [parse_of_stopped runs, parse_of_stopped runs']
    exact ⟨rfl, rfl, h⟩
  | true =>
    induction tokens using TokenSource.pull_induction generalizing p q with
    | failed s fault s' step =>
      rw [parse_of_error runs step] at ok
      cases ok
    | ended s token s' step marker =>
      have runs' := h.isRunning_eq.trans runs
      rw [parse_of_end runs step marker] at ok ⊢
      rw [parse_of_end runs' step marker]
      obtain ⟨ok', freer⟩ := h.finish more ok
      exact ⟨ok', rfl, freer⟩
    | pulled s token s' step plain ih =>
      have runs' := h.isRunning_eq.trans runs
      have fed : (p.feed token).1 = none → (q.feed token).1 = none ∧
        Freer limits limits' (p.feed token).2 (q.feed token).2 := h.feed more
      rw [parse_of_token runs step plain] at ok ⊢
      rw [parse_of_token runs' step plain]
      generalize p.feed token = r at *
      generalize q.feed token = r' at *
      obtain ⟨error?, p'⟩ := r
      obtain ⟨error?', q'⟩ := r'
      cases error? with
      | some e => cases ok
      | none =>
        obtain ⟨ok', freer⟩ := fed rfl
        cases ok'
        cases still : p'.isRunning with
        | true => exact ih freer ok still
        | false =>
          have still' := freer.isRunning_eq.trans still
          simp only [parse_of_stopped still, parse_of_stopped still']
          exact ⟨trivial, trivial, freer⟩

theorem Freer.act {a : Action} (ok : (p.act a).1.error? = none) :
    (q.act a).1 = (p.act a).1 ∧ Freer limits limits' (p.act a).2 (q.act a).2 := by
  cases a with
  | setup pattern start =>
    have grammar_eq : q.grammar = p.grammar := congrArg Weave.grammar h.weave_eq
    have limits_eq' : q.limits = limits' := congrArg Weave.limits h.weave_eq
    exact ⟨rfl, freer_setup grammar_eq h.limits_eq limits_eq' pattern start⟩
  | feed token =>
    obtain ⟨ok', freer⟩ := h.feed more ok
    exact ⟨congrArg Reply.status (ok'.trans ok.symm), freer⟩
  | finish =>
    obtain ⟨ok', freer⟩ := h.finish more ok
    exact ⟨congrArg Reply.status (ok'.trans ok.symm), freer⟩
  | parse tokens =>
    obtain ⟨ok', rest_eq, freer⟩ := h.parse more ok
    have error_eq : (q.parse tokens).1 = (p.parse tokens).1 := ok'.trans ok.symm
    refine ⟨?_, freer⟩
    simp only [Parser.act, error_eq, rest_eq]
  | takeResults =>
    have results : q.results.toList = p.results.toList := congrArg Weave.results h.weave_eq
    refine ⟨congrArg Reply.results results, h.sound, h.sound', h.limits_eq, ?_⟩
    exact congrArg (fun v : Weave => { v with results := [] }) h.weave_eq
  | takeDiagnostics =>
    have diagnostics : q.diagnostics = p.diagnostics := congrArg Weave.diagnostics h.weave_eq
    refine ⟨congrArg Reply.diagnostics diagnostics, h.sound, h.sound', h.limits_eq, ?_⟩
    exact congrArg (fun v : Weave => { v with diagnostics := [] }) h.weave_eq

theorem Freer.reported_eq {actions : List Action}
    (ok : ∀ r ∈ p.reported actions, r.1.error? = none) :
    q.reported actions = p.reported actions := by
  induction actions generalizing p q with
  | nil => rfl
  | cons a actions ih =>
    simp only [reported, List.forall_mem_cons] at ok
    obtain ⟨reply_eq, freer⟩ := h.act more ok.1
    simp only [reported, reply_eq, freer.observe_eq, ih freer ok.2]

end

/-- A run in which no call gives an error is the same, call by call, under higher limits: the same is
returned, so no error either, and the same is seen. -/
theorem reported_of_higher_limits (g : Grammar) {limits limits' : Limits}
    (threads : limits.maxThreads ≤ limits'.maxThreads)
    (expansions : limits.maxExpansions ≤ limits'.maxExpansions) (pattern : Pattern)
    (start : Position) (actions : List Action)
    (ok : ∀ r ∈ ((ofGrammar g limits).setup pattern start).reported actions, r.1.error? = none) :
    ((ofGrammar g limits').setup pattern start).reported actions =
      ((ofGrammar g limits).setup pattern start).reported actions := by
  have freer : Freer limits limits' ((ofGrammar g limits).setup pattern start)
      ((ofGrammar g limits').setup pattern start) :=
    freer_setup (p := ofGrammar g limits) (q := ofGrammar g limits') rfl rfl rfl pattern start
  exact freer.reported_eq ⟨threads, expansions⟩ ok

theorem one_word_under_two_limits :
    (∀ r ∈ ((ofGrammar wordItems ⟨3, 40⟩).setup itemsOrLast .detached).reported
        [.feed wordA, .finish], r.1.error? = none) ∧
      ((ofGrammar wordItems {}).setup itemsOrLast .detached).reported [.feed wordA, .finish] =
        ((ofGrammar wordItems ⟨3, 40⟩).setup itemsOrLast .detached).reported
          [.feed wordA, .finish] := by
  have ok : ∀ r ∈ ((ofGrammar wordItems ⟨3, 40⟩).setup itemsOrLast .detached).reported
      [.feed wordA, .finish], r.1.error? = none := by decide +kernel
  exact ⟨ok, reported_of_higher_limits wordItems (by decide) (by decide) itemsOrLast .detached
    [.feed wordA, .finish] ok⟩

end Parser

end Lockstep
