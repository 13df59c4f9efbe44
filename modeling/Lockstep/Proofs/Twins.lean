import Lockstep.Proofs.Halting
import Lockstep.Proofs.Closure

set_option autoImplicit false

/-!
Runs that cannot be told apart. Two patterns are twins if the derivations of one wait where those of
the other do, for the same goal and under the same guards, whatever the sequences around them are
called. Parsers that start from twins take the same tokens, halt at the same call, and have the same
results in the same order. What they report there may only differ in the names of sequences.
-/

namespace Lockstep

open Grammar (lastPlace)

/-- The same guards, and if `strict` in the same order. -/
structure SameGuards (strict : Prop) (gs gs' : List Predicate) : Prop where
  perm : gs.Perm gs'
  eq : strict → gs = gs'

namespace SameGuards

variable {strict : Prop} {gs gs' hs hs' : List Predicate}

theorem refl (strict : Prop) (gs : List Predicate) : SameGuards strict gs gs := ⟨.refl gs, fun _ => rfl⟩

theorem of_eq (same : gs = gs') : SameGuards strict gs gs' := same ▸ refl strict gs

theorem symm (h : SameGuards strict gs gs') : SameGuards strict gs' gs :=
  ⟨h.perm.symm, fun inOrder => (h.eq inOrder).symm⟩

theorem trans (h : SameGuards strict gs gs') (k : SameGuards strict gs' hs) :
    SameGuards strict gs hs :=
  ⟨h.perm.trans k.perm, fun inOrder => (h.eq inOrder).trans (k.eq inOrder)⟩

theorem append (h : SameGuards strict gs gs') (k : SameGuards strict hs hs') :
    SameGuards strict (gs ++ hs) (gs' ++ hs') :=
  ⟨h.perm.append k.perm, fun inOrder => by rw [h.eq inOrder, k.eq inOrder]⟩

theorem all_eq (h : SameGuards strict gs gs') (test : Predicate → Bool) :
    gs.all test = gs'.all test := by
  rw [Bool.eq_iff_iff, List.all_eq_true, List.all_eq_true]
  exact forall_congr' fun guard => imp_congr_left h.perm.mem_iff

end SameGuards

namespace Waiting

structure Alike (strict : Prop) (x x' : Waiting) : Prop where
  goal_eq : x.goal = x'.goal
  guards : SameGuards strict x.guards x'.guards
  result_eq : x.goal = .accepted → Frame.outermost x.frames = Frame.outermost x'.frames

variable {strict : Prop} {x x' : Waiting} (token : Token) (last : Position)

theorem Alike.symm (h : x.Alike strict x') : x'.Alike strict x :=
  ⟨h.goal_eq.symm, h.guards.symm, fun done => (h.result_eq (h.goal_eq.trans done)).symm⟩

theorem Alike.isNone_refusal?_eq (h : x.Alike strict x') :
    (x.refusal? token last).isNone = (x'.refusal? token last).isNone := by
  rw [isNone_refusal?, isNone_refusal?, h.guards.all_eq]

theorem Alike.isComplete_eq (h : x.Alike strict x') :
    x.isComplete token last = x'.isComplete token last := by
  rw [isComplete, isComplete, h.goal_eq, h.isNone_refusal?_eq]

theorem outermost_eq_of_isComplete (h : x.Alike strict x') (complete : x.isComplete token last = true) :
    Frame.outermost x.frames = Frame.outermost x'.frames := by
  refine h.result_eq ?_
  cases goal : x.goal with
  | accepted => rfl
  | token spec =>
    simp only [isComplete, goal] at complete
    cases complete

theorem Alike.causes_eq (h : x.Alike strict x') (inOrder : strict) :
    (x.failures token last).map Failure.cause = (x'.failures token last).map Failure.cause := by
  simp only [failures, List.map_map, refusal?, mismatch?, h.goal_eq, h.guards.eq inOrder]
  rfl

theorem Alike.closingCauses_eq (h : x.Alike strict x') (inOrder : strict) :
    (x.closingFailures token last).map Failure.cause =
      (x'.closingFailures token last).map Failure.cause := by
  simp only [closingFailures, List.map_map, refusal?, shortfall?, h.goal_eq, h.guards.eq inOrder]
  rfl

end Waiting

def Paired (strict : Prop) : List (Choices × Waiting) → List (Choices × Waiting) → Prop :=
  List.Forall₂ fun d d' => d.1 = d'.1 ∧ d.2.Alike strict d'.2

section

variable {strict : Prop} {ds ds' : List (Choices × Waiting)} {token : Token} {last : Position}

theorem completions_paired (h : Paired strict ds ds') :
    completions token last ds = completions token last ds' := by
  induction h with
  | nil => rfl
  | @cons d d' ds ds' first _ ih =>
    obtain ⟨w, x⟩ := d
    obtain ⟨w', x'⟩ := d'
    obtain ⟨rfl, alike⟩ := first
    simp only [completions, select, List.filterMap_cons] at ih ⊢
    rw [← alike.isComplete_eq token last, ih]
    cases complete : x.isComplete token last with
    | false => simp only [Bool.false_eq_true, ↓reduceIte]
    | true =>
      simp only [↓reduceIte, Waiting.outermost_eq_of_isComplete token last alike complete]

theorem causesAt_paired (h : Paired strict ds ds') (inOrder : strict) :
    (failuresAt token last ds).map Failure.cause =
        (failuresAt token last ds').map Failure.cause ∧
      (closingFailuresAt token last ds).map Failure.cause =
        (closingFailuresAt token last ds').map Failure.cause := by
  induction h with
  | nil => exact ⟨rfl, rfl⟩
  | cons first _ ih =>
    simp only [failuresAt, closingFailuresAt, List.flatMap_cons, List.map_append] at ih ⊢
    rw [first.2.causes_eq token last inOrder, first.2.closingCauses_eq token last inOrder, ih.1, ih.2]
    exact ⟨rfl, rfl⟩

end

namespace Grammar

section

variable {g : Grammar} {s s₁ s₂ : Spot} {c c₁ c₂ : Cursor} {u u' v v' w w' : Choices}

theorem Stride.unique (first : g.Stride s c u s₁ c₁) (second : g.Stride s c u' s₂ c₂)
    (same : u ++ v = u' ++ v') : u = u' ∧ v = v' ∧ s₁ = s₂ ∧ c₁ = c₂ := by
  cases first with
  | token next =>
    cases second with
    | token next' =>
      rw [next] at next'
      cases next'
      exact ⟨rfl, same, rfl, rfl⟩
    | deferred defers => cases defers
  | nothing =>
    cases second with
    | nothing => exact ⟨rfl, same, rfl, rfl⟩
    | deferred defers => cases defers
  | sequence =>
    cases second with
    | sequence => exact ⟨rfl, same, rfl, rfl⟩
    | deferred defers => cases defers
  | branch option =>
    cases second with
    | branch option' =>
      obtain ⟨rfl, rfl⟩ := List.cons.inj same
      rw [option] at option'
      cases option'
      exact ⟨rfl, rfl, rfl, rfl⟩
    | deferred defers => cases defers
  | deferred defers unfolds =>
    cases second with
    | deferred _ unfolds' =>
      rw [unfolds] at unfolds'
      cases unfolds'
      exact ⟨rfl, same, rfl, rfl⟩
    | _ => cases defers

theorem Walk.unique {x x' : Waiting} (walk : g.Walk s c w s₁ c₁) (walk' : g.Walk s c w' s₂ c₂)
    (same : w = w') (dry : c₁.rest = []) (dry' : c₂.rest = [])
    (waits : s₁.waiting? c₁.pending = some x) (waits' : s₂.waiting? c₂.pending = some x') :
    x = x' := by
  induction walk generalizing w' with
  | stay =>
    cases walk' with
    | stay =>
      rw [waits] at waits'
      exact Option.some.inj waits'
    | stride first =>
      rw [first.waiting?_eq_none dry] at waits
      cases waits
  | stride first more ih =>
    cases walk' with
    | stay =>
      rw [first.waiting?_eq_none dry'] at waits'
      cases waits'
    | stride first' more' =>
      obtain ⟨rfl, same, rfl, rfl⟩ := first.unique first' same
      exact ih more' same dry waits

theorem Partial.unique {pattern : Pattern} {start : Position} {tokens : List Token}
    {x x' : Waiting} (h : g.Partial pattern start tokens w x)
    (h' : g.Partial pattern start tokens w x') : x = x' := by
  obtain ⟨s, c, walk, dry, waits⟩ := h
  obtain ⟨s', c', walk', dry', waits'⟩ := h'
  exact walk.unique walk' rfl dry dry' waits waits'

end

structure Twins (strict : Prop) (g : Grammar) (p : Pattern) (g' : Grammar) (q : Pattern)
    (start : Position) : Prop where
  waits : ∀ tokens w x, g.Partial p start tokens w x →
    ∃ x', g'.Partial q start tokens w x' ∧ x.Alike strict x'
  waits' : ∀ tokens w x', g'.Partial q start tokens w x' →
    ∃ x, g.Partial p start tokens w x ∧ x.Alike strict x'
  consumes_iff : ∀ tokens, g.Consumes p start tokens ↔ g'.Consumes q start tokens

section

variable {strict : Prop} {g g' : Grammar} {p q : Pattern} {start : Position}
  {tokens : List Token} {token : Token} {fs : List Failure} {calls : List Call} {i : Nat}
  {ds : List (Choices × Waiting)}

theorem Twins.symm (h : Twins strict g p g' q start) : Twins strict g' q g p start where
  waits tokens w x before :=
    let ⟨x', after, alike⟩ := h.waits' tokens w x before
    ⟨x', after, alike.symm⟩
  waits' tokens w x before :=
    let ⟨x', after, alike⟩ := h.waits tokens w x before
    ⟨x', after, alike.symm⟩
  consumes_iff tokens := (h.consumes_iff tokens).symm

variable (twins : Twins strict g p g' q start)
include twins

/-- What enumerates the derivations of one is paired with what enumerates those of the other. -/
theorem Twins.enumerates (all : Enumerates ds (g.Partial p start tokens)) :
    ∃ ds', Enumerates ds' (g'.Partial q start tokens) ∧ Paired strict ds ds' := by
  have each : ∀ d : Choices × Waiting, ∃ x', d ∈ ds →
      g'.Partial q start tokens d.1 x' ∧ d.2.Alike strict x' := by
    rintro ⟨w, x⟩
    by_cases mem : (w, x) ∈ ds
    · obtain ⟨x', waits⟩ := twins.waits tokens w x ((all.mem_iff w x).mp mem)
      exact ⟨x', fun _ => waits⟩
    · exact ⟨x, fun here => absurd here mem⟩
  -- Choices determine a waiting derivation, so the twins that are chosen are all there are.
  choose twin found using each
  refine ⟨ds.map fun d => (d.1, twin d), ⟨?_, ?_⟩, ?_⟩
  · rw [Ordered, List.pairwise_map]
    exact all.ordered
  · intro w x'
    rw [List.mem_map]
    constructor
    · rintro ⟨⟨w, x⟩, mem, same⟩
      cases same
      exact (found _ mem).1
    · intro waits
      obtain ⟨x, before, -⟩ := twins.waits' tokens w x' waits
      have mem := (all.mem_iff w x).mpr before
      exact ⟨(w, x), mem, congrArg (Prod.mk w) ((found _ mem).1.unique waits)⟩
  · rw [Paired, List.forall₂_map_right_iff, List.forall₂_same]
    exact fun d mem => ⟨rfl, (found d mem).2⟩

theorem Twins.not_completes {eof : Token} (marker : eof.isEof = true)
    (none : ∀ marked w capture, ¬ g.Completes p start tokens eof marked w capture) :
    ∀ marked w capture, ¬ g'.Completes q start tokens eof marked w capture := by
  intro marked w capture completes
  obtain ⟨x', waits', complete, rfl⟩ := (completes_iff marker).mp completes
  obtain ⟨x, waits, alike⟩ := twins.waits' _ w x' waits'
  rw [← alike.isComplete_eq] at complete
  exact none marked w _ ((completes_iff marker).mpr ⟨x, waits, complete, rfl⟩)

/-- The derivations of both fail at the same token, for the same causes. -/
theorem Twins.fails (h : g.Fails p start tokens token fs) :
    ∃ fs', g'.Fails q start tokens token fs' ∧
      (strict → fs.map Failure.cause = fs'.map Failure.cause) := by
  obtain ⟨consumes, ds, es, stops, rfl⟩ := h
  obtain ⟨ds', all, paired⟩ := twins.enumerates stops.all
  obtain ⟨es', later, paired'⟩ := twins.enumerates stops.later
  refine ⟨_, ⟨(twins.consumes_iff tokens).mp consumes, ds', es', ⟨all, later, ?_, ?_⟩, rfl⟩, ?_⟩
  · exact fun plain goes => stops.stuck plain ((twins.consumes_iff _).mpr goes)
  · exact fun marker => twins.not_completes marker (stops.incomplete marker)
  · intro inOrder
    rw [List.map_append, List.map_append, (causesAt_paired paired inOrder).1,
      (causesAt_paired paired' inOrder).2]

theorem Twins.halts (h : g.Halts p start tokens calls i token fs) :
    ∃ fs', g'.Halts q start tokens calls i token fs' ∧
      (strict → fs.map Failure.cause = fs'.map Failure.cause) := by
  induction h with
  | now met fails =>
    obtain ⟨fs', fails', causes⟩ := twins.fails fails
    exact ⟨fs', .now met fails', causes⟩
  | later plain _ ih =>
    obtain ⟨fs', halts', causes⟩ := ih
    exact ⟨fs', .later plain halts', causes⟩

theorem Twins.yields {rs rs' : List Capture} (h : g.Yields p start tokens calls rs)
    (h' : g'.Yields q start tokens calls rs') : rs = rs' := by
  induction h generalizing rs' with
  | nothing =>
    cases h'
    rfl
  | token plain _ ih =>
    cases h' with
    | token _ more => exact ih more
    | ending met marker =>
      subst met
      exact Bool.noConfusion (plain.symm.trans marker)
  | ending met marker all later =>
    subst met
    cases h' with
    | token plain => exact Bool.noConfusion (plain.symm.trans marker)
    | ending met' _ all' later' =>
      subst met'
      obtain ⟨ds', enumerates, paired⟩ := twins.enumerates all
      obtain ⟨es', enumerates', paired'⟩ := twins.enumerates later
      rw [all'.unique enumerates, later'.unique enumerates', completions_paired paired,
        completions_paired paired']

end

end Grammar

def ParseError.isLimit : ParseError → Bool
  | .threadLimit _ _ => true
  | .expansionLimit _ _ => true
  | _ => false

namespace Parser

def KeepsLimits (p : Parser) (calls : List Call) : Prop :=
  ∀ o ∈ p.observed calls, ∀ e, o.error? = some e → e.isLimit = false

/-- After the calls, one parser stands as the other does: it runs as well or has stopped as well, with
the same results, or with diagnostics, which come from the same call and, if `strict`, from the same
causes. -/
structure Concurs (strict : Prop) (calls : List Call) (p p' : Parser) : Prop where
  results_eq : (p.called calls).results = (p'.called calls).results
  isRunning_eq : (p.called calls).isRunning = (p'.called calls).isRunning
  hasError_eq : (p.called calls).hasError = (p'.called calls).hasError
  halts : ∀ i token fs, p.HaltsAt calls i token fs → ∃ fs', p'.HaltsAt calls i token fs' ∧
    (strict → fs.map Failure.cause = fs'.map Failure.cause)
  halts' : ∀ i token fs', p'.HaltsAt calls i token fs' → ∃ fs, p.HaltsAt calls i token fs ∧
    (strict → fs.map Failure.cause = fs'.map Failure.cause)

section

variable {defined : String → Prop} {g : Grammar} {clean : Bool} {p : Parser} {calls : List Call}

theorem Settled.call (h : p.Settled defined g clean) (closed : g.Closed defined) (c : Call) :
    (p.call c).2.Settled defined g (clean && (p.call c).1.isNone) ∧
      ∀ e, (p.call c).1 = some e → e.Arises defined g := by
  cases c with
  | feed token => exact h.feed closed token
  | finish => exact h.finish closed

theorem Settled.called (h : p.Settled defined g clean) (closed : g.Closed defined)
    (ok : ∀ o ∈ p.observed calls, o.error? = none) : (p.called calls).Settled defined g clean := by
  induction calls generalizing p with
  | nil => exact h
  | cons c calls ih =>
    obtain ⟨here, rest⟩ := ok_cons_iff.mp ok
    have next := (h.call closed c).1
    rw [here, Option.isNone_none, Bool.and_true] at next
    exact ih next rest

/-- When all names are names of rules, limits are all that gives errors. -/
theorem Settled.ok_of_keepsLimits (h : p.Settled g.Defines g clean) (closed : g.Closed g.Defines)
    (keeps : p.KeepsLimits calls) : ∀ o ∈ p.observed calls, o.error? = none := by
  induction calls generalizing p clean with
  | nil => exact fun o mem => absurd mem List.not_mem_nil
  | cons c calls ih =>
    obtain ⟨here, rest⟩ := List.forall_mem_cons.mp keeps
    obtain ⟨next, arises⟩ := h.call closed c
    refine ok_cons_iff.mpr ⟨?_, ih next rest⟩
    cases outcome : (p.call c).1 with
    | none => rfl
    | some e =>
      have kept : e.isLimit = false := here e outcome
      have arose := arises e outcome
      cases e with
      | threadLimit => cases kept
      | expansionLimit => cases kept
      | unknownPattern name => exact absurd arose (Grammar.not_arises_unknown name)
      | _ => cases arose

theorem runs_or_halts_of_plain {token : Token} (runs : p.isRunning = true)
    (plain : token.isEof = false) (ok : (p.feed token).1 = none) :
    (p.feed token).2.isRunning = true ∨ (p.feed token).2.status = .halted := by
  have compacted : ∀ q : Parser, (if q.isCompactionDue then q.compact else q).status = q.status := by
    intro q
    split <;> rfl
  have kept := (p.consume_keeps token).1
  rw [feed_of_running runs, plain] at ok ⊢
  simp only [Bool.false_eq_true, ↓reduceIte, take] at ok ⊢
  generalize p.consume token = r at kept ok ⊢
  obtain ⟨outcome, q⟩ := r
  cases outcome with
  | error e => cases ok
  | ok outcome =>
    simp only [isRunning, compacted] at runs ok kept ⊢
    split
    · exact .inr rfl
    · exact .inl ((congrArg (· == Status.running) kept).trans runs)

theorem isRunning_called_iff (ok : ∀ o ∈ p.observed calls, o.error? = none) :
    (p.called calls).isRunning = true ↔ p.isRunning = true ∧
      (∀ c ∈ calls, ∃ token, c = .feed token ∧ token.isEof = false) ∧
      ∀ i token fs, ¬ p.HaltsAt calls i token fs := by
  induction calls generalizing p with
  | nil =>
    refine ⟨fun runs => ⟨runs, fun c mem => absurd mem List.not_mem_nil, ?_⟩, And.left⟩
    rintro i token fs ⟨⟩
  | cons c calls ih =>
    obtain ⟨here, rest⟩ := ok_cons_iff.mp ok
    cases runs : p.isRunning with
    | false =>
      rw [called_of_stopped runs, runs]
      exact iff_of_false Bool.false_ne_true fun h => Bool.false_ne_true h.1
    | true =>
      have next : p.called (c :: calls) = (p.call c).2.called calls := rfl
      rw [next, ih rest, List.forall_mem_cons]
      cases c with
      | finish =>
        refine iff_of_false ?_ ?_
        · rintro ⟨on, -⟩
          exact Bool.false_ne_true ((finish_stops p).symm.trans on)
        · rintro ⟨-, ⟨⟨_, same, -⟩, -⟩, -⟩
          cases same
      | feed token =>
        cases ended : token.isEof with
        | true =>
          refine iff_of_false ?_ ?_
          · rintro ⟨on, -⟩
            exact Bool.false_ne_true ((stopped_of_marker ended).symm.trans on)
          · rintro ⟨-, ⟨⟨_, same, plain⟩, -⟩, -⟩
            cases same
            exact Bool.false_ne_true (plain.symm.trans ended)
        | false =>
          constructor
          · rintro ⟨on, plain, more⟩
            refine ⟨rfl, ⟨⟨token, rfl, ended⟩, plain⟩, ?_⟩
            intro i t fs halts
            cases halts with
            | now _ halted =>
              rw [isRunning, halted] at on
              cases on
            | later later => exact more _ _ _ later
          · rintro ⟨-, ⟨-, plain⟩, none⟩
            refine ⟨?_, plain, fun i t fs later => none (i + 1) t fs (.later later)⟩
            rcases runs_or_halts_of_plain runs ended here with on | halted
            · exact on
            · exact absurd (HaltsAt.now (c := .feed token) runs halted) (none 0 _ _)

end

section

variable {g : Grammar} {p : Parser} {pattern : Pattern} {start : Position} {calls : List Call}

theorem setup_settled (same : p.grammar = g) (proper : pattern.Proper g.Defines)
    (start : Position) : (p.setup pattern start).Settled g.Defines g true := by
  obtain ⟨sound, weave⟩ := setup_sim p pattern start
  refine ⟨sound, ?_⟩
  rw [weave, same]
  exact Weave.ofPattern_settled proper p.limits start

theorem setup_fed (same : p.grammar = g) (pattern : Pattern) (start : Position) :
    (p.setup pattern start).Sound ∧ (p.setup pattern start).weave.Fed g pattern start [] := by
  obtain ⟨sound, weave⟩ := setup_sim p pattern start
  rw [weave, same]
  exact ⟨sound, Weave.ofPattern_fed _ _ _ _⟩

theorem Settled.hasError_iff {defined : String → Prop} (h : p.Settled defined g true) :
    p.hasError = true ↔ p.isRunning = false ∧ p.results = #[] := by
  have stands := h.stands
  constructor
  · intro error
    obtain ⟨none, some⟩ := stands.hasError_iff.mp error
    refine ⟨?_, none⟩
    cases runs : p.isRunning with
    | true => exact absurd (stands.running runs).2.2 some
    | false => rfl
  · rintro ⟨stopped, none⟩
    rcases (stands.stopped rfl stopped).2 with ⟨some, -⟩ | ⟨-, -, error⟩
    · exact absurd none some
    · exact error

/-- Parsers that start from twins go through the same calls alike. -/
theorem concurs_of_twins {strict : Prop} {g' : Grammar} {p' : Parser} {pattern' : Pattern}
    (twins : Grammar.Twins strict g pattern g' pattern' start) (same : p.grammar = g)
    (same' : p'.grammar = g') (closed : g.Closed g.Defines) (closed' : g'.Closed g'.Defines)
    (proper : pattern.Proper g.Defines) (proper' : pattern'.Proper g'.Defines)
    (keeps : (p.setup pattern start).KeepsLimits calls)
    (keeps' : (p'.setup pattern' start).KeepsLimits calls) :
    Concurs strict calls (p.setup pattern start) (p'.setup pattern' start) := by
  have settled := setup_settled same proper start
  have settled' := setup_settled same' proper' start
  obtain ⟨sound, tracked⟩ := setup_fed same pattern start
  obtain ⟨sound', tracked'⟩ := setup_fed same' pattern' start
  have ok := settled.ok_of_keepsLimits closed keeps
  have ok' := settled'.ok_of_keepsLimits closed' keeps'
  have halts : ∀ i token fs, (p.setup pattern start).HaltsAt calls i token fs →
      ∃ fs', (p'.setup pattern' start).HaltsAt calls i token fs' ∧
        (strict → fs.map Failure.cause = fs'.map Failure.cause) := by
    intro i token fs halts
    obtain ⟨fs', halts', causes⟩ := twins.halts ((haltsAt_iff sound tracked ok).mp halts)
    exact ⟨fs', (haltsAt_iff sound' tracked' ok').mpr halts', causes⟩
  have halts' : ∀ i token fs', (p'.setup pattern' start).HaltsAt calls i token fs' →
      ∃ fs, (p.setup pattern start).HaltsAt calls i token fs ∧
        (strict → fs.map Failure.cause = fs'.map Failure.cause) := by
    intro i token fs' halts'
    obtain ⟨fs, halts, causes⟩ := twins.symm.halts ((haltsAt_iff sound' tracked' ok').mp halts')
    exact ⟨fs, (haltsAt_iff sound tracked ok).mpr halts, fun inOrder => (causes inOrder).symm⟩
  have results : ((p.setup pattern start).called calls).results =
      ((p'.setup pattern' start).called calls).results :=
    Array.toList_inj.mp
      (twins.yields (yields_results sound tracked ok) (yields_results sound' tracked' ok'))
  have running : ((p.setup pattern start).called calls).isRunning =
      ((p'.setup pattern' start).called calls).isRunning := by
    rw [Bool.eq_iff_iff, isRunning_called_iff ok, isRunning_called_iff ok']
    refine and_congr (iff_of_true rfl rfl) (and_congr_right fun _ => ⟨?_, ?_⟩)
    · intro none i token fs' halted
      obtain ⟨fs, halted, -⟩ := halts' i token fs' halted
      exact none i token fs halted
    · intro none i token fs halted
      obtain ⟨fs', halted, -⟩ := halts i token fs halted
      exact none i token fs' halted
  refine ⟨results, running, ?_, halts, halts'⟩
  rw [Bool.eq_iff_iff, (settled.called closed ok).hasError_iff,
    (settled'.called closed' ok').hasError_iff, results, running]

end

end Parser

end Lockstep
