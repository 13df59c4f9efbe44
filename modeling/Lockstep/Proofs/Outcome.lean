import Lockstep.Proofs.Proper

set_option autoImplicit false

namespace Lockstep

namespace Failure

theorem groupMessages_ne_nil (token : Token) {causes : List Cause} {cause : Cause}
    (mem : cause ∈ causes) : groupMessages token causes ≠ [] := by
  cases cause with
  | expected what =>
    have listed : what ∈ (causes.filterMap Cause.expected?).eraseDups :=
      List.mem_eraseDups.mpr (List.mem_filterMap.mpr ⟨_, mem, rfl⟩)
    simp only [groupMessages]
    generalize (causes.filterMap Cause.expected?).eraseDups = expected at listed
    match expected with
    | [_] => simp [expectation]
    | _ :: _ :: _ => simp [expectation]
  | refused message =>
    have listed : message ∈ (causes.filterMap Cause.refused?).eraseDups :=
      List.mem_eraseDups.mpr (List.mem_filterMap.mpr ⟨_, mem, rfl⟩)
    exact List.ne_nil_of_mem (List.mem_append_right _ listed)

theorem report_ne_nil (token : Token) {failures : List Failure} (failed : failures ≠ []) :
    report failures token ≠ [] := by
  obtain ⟨f, mem⟩ := List.exists_mem_of_ne_nil failures failed
  intro silent
  simp only [report, List.flatMap_eq_nil_iff, List.map_eq_nil_iff] at silent
  let outer := Trail.shared (failures.map trail)
  have cause : (f.trail.dropOuter outer, f.cause) ∈
      failures.map fun f => (f.trail.dropOuter outer, f.cause) := List.mem_map.mpr ⟨f, mem, rfl⟩
  refine groupMessages_ne_nil token (List.mem_map.mpr ⟨_, List.mem_filter.mpr ⟨cause, ?_⟩, rfl⟩)
    (silent _ (List.mem_eraseDups.mpr (List.mem_map.mpr ⟨_, cause, rfl⟩)))
  exact beq_self_eq_true _

end Failure

namespace Waiting

variable {defined : String → Prop}

def Proper (defined : String → Prop) (w : Waiting) : Prop := ∀ f ∈ w.frames, f.Proper defined

theorem meet_proper {w : Waiting} (h : w.Proper defined) (token : Token) (last : Position) :
    ∀ t ∈ (w.meet token last).survivors, t.spot.Proper defined := by
  intro t mem
  simp only [meet] at mem
  split at mem
  · rw [List.mem_singleton.mp mem]
    exact Frame.proper_advance _ h
  · cases mem

/-- At a token a derivation goes on, fails, or is a result. -/
theorem meet_leaves (w : Waiting) (token : Token) (last : Position) :
    (w.meet token last).survivors ≠ [] ∨ (w.meet token last).failures ≠ [] ∨
      (w.meet token last).results ≠ [] := by
  obtain ⟨goal, frames, guards⟩ := w
  cases refusal : refusal? ⟨goal, frames, guards⟩ token last with
  | some cause =>
    refine .inr (.inl ?_)
    simp [meet, failures, refusal]
  | none =>
    cases goal with
    | token spec =>
      cases accepts : spec.accepts token with
      | true => exact .inl (by simp [meet, takes, refusal, accepts])
      | false => exact .inr (.inl (by simp [meet, failures, mismatch?, accepts]))
    | accepted =>
      cases ended : token.isEof with
      | true => exact .inr (.inr (by simp [meet, isComplete, refusal, ended]))
      | false => exact .inr (.inl (by simp [meet, failures, mismatch?, ended]))

theorem meet_results {w : Waiting} {token : Token} (plain : token.isEof = false)
    (last : Position) : (w.meet token last).results = [] := by
  simp only [meet, plain, Bool.false_and, Bool.false_eq_true, ↓reduceIte]

theorem close_leaves (w : Waiting) (eof : Token) (last : Position) :
    (w.close eof last).failures ≠ [] ∨ (w.close eof last).results ≠ [] := by
  obtain ⟨goal, frames, guards⟩ := w
  cases goal with
  | token spec => exact .inl (by simp [close, closingFailures, shortfall?])
  | accepted =>
    cases refusal : refusal? ⟨.accepted, frames, guards⟩ eof last with
    | some cause => exact .inl (by simp [close, closingFailures, refusal])
    | none => exact .inr (by simp [close, isComplete, refusal])

end Waiting

/-- The errors that may come up while a parse goes on: a limit is hit, or a name that is `defined`
is the name of no rule. -/
def ParseError.Arises (defined : String → Prop) (g : Grammar) : ParseError → Prop
  | .threadLimit _ _ => True
  | .expansionLimit _ _ => True
  | .unknownPattern name => defined name ∧ g.lookup? name = none
  | _ => False

def Resolved.Settled (defined : String → Prop) (g : Grammar) (any : Prop) :
    Except ParseError (List Waiting) → Prop
  | .error e => e.Arises defined g
  | .ok ready => (∀ w ∈ ready, w.Proper defined) ∧ (any → ready ≠ [])

/-- Resolving loses no strand: each comes to wait, moves on or splits into others. -/
theorem Phase.resolveStrands_settled {defined : String → Prop} (p : Phase)
    (closed : p.grammar.Closed defined) (budget : Nat) (work : List Strand) (ready : List Waiting)
    (branches made : Nat) (proper : ∀ t ∈ work, t.spot.Proper defined)
    (readyProper : ∀ w ∈ ready, w.Proper defined) :
    Resolved.Settled defined p.grammar (work ≠ [] ∨ ready ≠ [])
      (p.resolveStrands budget work ready branches made).outcome := by
  induction budget generalizing work ready branches made with
  | zero =>
    cases work with
    | nil => exact ⟨readyProper, fun any => any.resolve_left fun h => h rfl⟩
    | cons t work => trivial
  | succ budget ih =>
    cases work with
    | nil => exact ⟨readyProper, fun any => any.resolve_left fun h => h rfl⟩
    | cons t work =>
      obtain ⟨here, rest⟩ := List.forall_mem_cons.mp proper
      have expanded := Strand.expand_proper closed p.marker here
      simp only [resolveStrands]
      generalize t.expand p.grammar p.marker = expansion at expanded
      obtain ⟨move, k⟩ := expansion
      -- Whatever comes next, something is left of `t`.
      have onwards : ∀ (work' : List Strand) (ready' : List Waiting) (branches' made' : Nat),
          (∀ t ∈ work', t.spot.Proper defined) → (∀ w ∈ ready', w.Proper defined) →
          work' ≠ [] ∨ ready' ≠ [] →
          Resolved.Settled defined p.grammar (t :: work ≠ [] ∨ ready ≠ [])
            (p.resolveStrands budget work' ready' branches' made').outcome := by
        intro work' ready' branches' made' proper' readyProper' left
        have next := ih work' ready' branches' made' proper' readyProper'
        generalize (p.resolveStrands budget work' ready' branches' made').outcome = outcome at next
        cases outcome with
        | error e => exact next
        | ok ready'' => exact ⟨next.1, fun _ => next.2 left⟩
      cases move with
      | ready w =>
        have pushed : ∀ x ∈ ready ++ [w], x.Proper defined := by
          intro x mem
          rcases List.mem_append.mp mem with old | new
          · exact readyProper x old
          · rw [List.mem_singleton.mp new]
            exact expanded
        have later := onwards work (ready ++ [w]) branches (made + k) rest pushed
          (.inr (List.append_ne_nil_of_right_ne_nil ready (List.cons_ne_nil w [])))
        cases goal : w.goal with
        | accepted => simpa only [goal] using later
        | token spec =>
          simp only [goal]
          split
          · exact later
          · trivial
      | moved u =>
        exact onwards (u :: work) ready branches (made + k)
          (List.forall_mem_cons.mpr ⟨expanded, rest⟩) readyProper (.inl (List.cons_ne_nil u work))
      | split us =>
        refine onwards (us ++ work) ready (branches + 1) (made + k) ?_ readyProper
          (.inl (List.append_ne_nil_of_left_ne_nil expanded.1 work))
        intro u mem
        rcases List.mem_append.mp mem with new | old
        · exact expanded.2 u new
        · exact rest u old
      | unknown name => exact expanded

namespace Weave

/-- How a weave for `g` may stand; `clean` says that no call since its setup gave an error. -/
structure Settled (defined : String → Prop) (g : Grammar) (clean : Bool) (v : Weave) : Prop where
  grammar_eq : v.grammar = g
  proper : ∀ t ∈ v.strands, t.spot.Proper defined
  running : v.isRunning = true → v.strands ≠ [] ∧ v.results = [] ∧ v.diagnostics = []
  stopped : v.isRunning = false → v.strands = []
  outcome : clean = true → v.isRunning = false →
    (v.results ≠ [] ∧ v.diagnostics = []) ∨ (v.results = [] ∧ v.diagnostics ≠ [])

variable {defined : String → Prop} {g : Grammar} {clean : Bool} {v : Weave}

theorem ofPattern_settled {pattern : Pattern} (proper : pattern.Proper defined) (limits : Limits)
    (start : Position) : (ofPattern g limits pattern start).Settled defined g true := by
  refine ⟨rfl, ?_, fun _ => ⟨List.cons_ne_nil _ _, rfl, rfl⟩, ?_, ?_⟩
  · intro t mem
    rw [List.mem_singleton.mp mem]
    exact Spot.ofPattern_proper proper
  · intro stopped
    cases stopped
  · intro _ stopped
    cases stopped

theorem halt_settled (same : v.grammar = g) : v.halt.Settled defined g false := by
  refine ⟨same, fun _ mem => absurd mem List.not_mem_nil, ?_, fun _ => rfl, ?_⟩
  · intro runs
    cases runs
  · intro isClean
    cases isClean

theorem resolve_settled (closed : v.grammar.Closed defined)
    (proper : ∀ t ∈ v.strands, t.spot.Proper defined) (token : Token) :
    Resolved.Settled defined v.grammar (v.strands ≠ []) (v.resolve token).1 ∧
      ∃ metrics allocated, (v.resolve token).2 = { v with strands := [], metrics, allocated } := by
  let phase : Phase := ⟨v.grammar, v.limits, .empty v.last.endPoint, token.position⟩
  have settled := phase.resolveStrands_settled closed
    v.limits.maxExpansions v.strands [] v.metrics.branches v.allocated proper
    fun _ mem => absurd mem List.not_mem_nil
  simp only [resolve]
  generalize Phase.resolveStrands _ _ _ _ _ _ = r at settled
  obtain ⟨outcome, branches, made⟩ := r
  cases outcome with
  | error e => exact ⟨settled, _, _, rfl⟩
  | ok ready => exact ⟨⟨settled.1, fun any => settled.2 (.inl any)⟩, _, _, rfl⟩

theorem gathered_ne_nil (fates : List Fate) (any : fates ≠ [])
    (leaves : ∀ f ∈ fates, f.survivors ≠ [] ∨ f.failures ≠ [] ∨ f.results ≠ []) :
    fates.flatMap Fate.survivors ≠ [] ∨ fates.flatMap Fate.failures ≠ [] ∨
      fates.flatMap Fate.results ≠ [] := by
  obtain ⟨f, mem⟩ := List.exists_mem_of_ne_nil fates any
  rcases leaves f mem with some | some | some
  · exact .inl fun none => some (List.flatMap_eq_nil_iff.mp none f mem)
  · exact .inr (.inl fun none => some (List.flatMap_eq_nil_iff.mp none f mem))
  · exact .inr (.inr fun none => some (List.flatMap_eq_nil_iff.mp none f mem))

/-- What is left of the strands of `v` when all of them have met a token. -/
structure Leaves (defined : String → Prop) (v : Weave) (survivors : List Strand)
    (failures : List Failure) (results : List Capture) : Prop where
  proper : ∀ t ∈ survivors, t.spot.Proper defined
  some : v.strands ≠ [] → survivors ≠ [] ∨ failures ≠ [] ∨ results ≠ []

section

variable {v' : Weave} {token eof : Token} {e : ParseError} {survivors : List Strand}
  {failures failures' : List Failure} (closed : v.grammar.Closed defined)
  (proper : ∀ t ∈ v.strands, t.spot.Proper defined)
include closed proper

theorem consume_of_error (failed : v.consume token = (.error e, v')) :
    e.Arises defined v.grammar ∧ v'.grammar = v.grammar := by
  obtain ⟨settled, metrics, allocated, same⟩ := resolve_settled closed proper token
  simp only [consume] at failed
  generalize v.resolve token = r at *
  obtain ⟨outcome, w⟩ := r
  cases outcome with
  | error e' =>
    cases failed
    exact ⟨settled, (congrArg grammar same :)⟩
  | ok ready => cases failed

theorem consume_of_ok (ok : v.consume token = (.ok (survivors, failures), v')) :
    ∃ results metrics allocated, v' = { v with
        strands := [], results := v.results ++ results, metrics, allocated } ∧
      v.Leaves defined survivors failures results ∧ (token.isEof = false → results = []) := by
  obtain ⟨settled, metrics, allocated, same⟩ := resolve_settled closed proper token
  simp only [consume] at ok
  generalize v.resolve token = r at *
  obtain ⟨outcome, w⟩ := r
  cases outcome with
  | error e => cases ok
  | ok ready =>
    subst same
    cases ok
    refine ⟨_, metrics, _, rfl, ⟨?_, ?_⟩, ?_⟩
    · intro t mem
      obtain ⟨fate, here, inside⟩ := List.mem_flatMap.mp mem
      obtain ⟨w, waits, rfl⟩ := List.mem_map.mp here
      exact Waiting.meet_proper (settled.1 w waits) token _ t inside
    · intro any
      refine gathered_ne_nil _ (fun none => settled.2 any (List.map_eq_nil_iff.mp none)) ?_
      intro fate mem
      obtain ⟨w, -, rfl⟩ := List.mem_map.mp mem
      exact w.meet_leaves token _
    · intro plain
      refine List.flatMap_eq_nil_iff.mpr fun fate mem => ?_
      obtain ⟨w, -, rfl⟩ := List.mem_map.mp mem
      exact Waiting.meet_results plain _

theorem complete_of_error (failed : v.complete eof failures = (.error e, v')) :
    e.Arises defined v.grammar ∧ v'.grammar = v.grammar := by
  obtain ⟨settled, metrics, allocated, same⟩ := resolve_settled closed proper eof
  simp only [complete] at failed
  split at failed
  · cases failed
  · generalize v.resolve eof = r at *
    obtain ⟨outcome, w⟩ := r
    cases outcome with
    | error e' =>
      cases failed
      exact ⟨settled, (congrArg grammar same :)⟩
    | ok ready => cases failed

theorem complete_of_ok (ok : v.complete eof failures = (.ok failures', v')) :
    ∃ more results metrics allocated, failures' = failures ++ more ∧
      v' = { v with strands := [], results := v.results ++ results, metrics, allocated } ∧
      (v.strands ≠ [] → more ≠ [] ∨ results ≠ []) := by
  obtain ⟨settled, metrics, allocated, same⟩ := resolve_settled closed proper eof
  simp only [complete] at ok
  split at ok
  · next none =>
    cases ok
    refine ⟨[], [], v.metrics, v.allocated, (List.append_nil _).symm, ?_, ?_⟩
    · rw [List.append_nil, ← List.isEmpty_iff.mp none]
    · exact fun any => absurd (List.isEmpty_iff.mp none) any
  · generalize v.resolve eof = r at *
    obtain ⟨outcome, w⟩ := r
    cases outcome with
    | error e => cases ok
    | ok ready =>
      subst same
      cases ok
      refine ⟨_, _, metrics, _, rfl, rfl, ?_⟩
      intro any
      have left := gathered_ne_nil (ready.map (Waiting.close eof v.last.endPoint))
        (fun none => settled.2 any (List.map_eq_nil_iff.mp none)) fun fate mem => by
          obtain ⟨w, -, rfl⟩ := List.mem_map.mp mem
          exact .inr (w.close_leaves eof _)
      refine left.resolve_left fun some => some (List.flatMap_eq_nil_iff.mpr fun fate mem => ?_)
      obtain ⟨w, -, rfl⟩ := List.mem_map.mp mem
      rfl

end

def Settles (defined : String → Prop) (g : Grammar) (clean : Bool)
    (r : Option ParseError × Weave) : Prop :=
  r.2.Settled defined g (clean && r.1.isNone) ∧ ∀ e, r.1 = some e → e.Arises defined g

theorem settles_halt {e : ParseError} (same : v.grammar = g) (arises : e.Arises defined g) :
    Settles defined g clean (some e, v.halt) := by
  refine ⟨?_, ?_⟩
  · rw [Option.isNone_some, Bool.and_false]
    exact halt_settled same
  · intro e' found
    cases found
    exact arises

theorem Settled.settles_same (h : v.Settled defined g clean) :
    Settles defined g clean (none, v) := by
  refine ⟨?_, fun e found => nomatch found⟩
  rw [Option.isNone_none, Bool.and_true]
  exact h

theorem settles_ended (same : v.grammar = g) (noStrands : v.strands = [])
    (noDiagnostics : v.diagnostics = []) {failures : List Failure}
    (some : failures ≠ [] ∨ v.results ≠ []) (eof : Token) :
    Settles defined g clean (if v.results.isEmpty then (none, v.reject failures eof)
      else (none, { v with status := .finished })) := by
  have proper : ∀ t ∈ v.strands, t.spot.Proper defined := by
    rw [noStrands]
    exact fun _ mem => absurd mem List.not_mem_nil
  split
  · next none =>
    have empty := List.isEmpty_iff.mp none
    refine ⟨⟨same, proper, ?_, fun _ => noStrands, ?_⟩, fun e found => nomatch found⟩
    · intro runs
      cases runs
    · intro _ _
      exact .inr ⟨empty, Failure.report_ne_nil eof (some.resolve_right fun h => h empty)⟩
  · next yielded =>
    refine ⟨⟨same, proper, ?_, fun _ => noStrands, ?_⟩, fun e found => nomatch found⟩
    · intro runs
      cases runs
    · intro _ _
      exact .inl ⟨fun empty => yielded (List.isEmpty_iff.mpr empty), noDiagnostics⟩

theorem Settled.finishAt (h : v.Settled defined g clean) (closed : g.Closed defined)
    (runs : v.isRunning = true) (eof : Token) : Settles defined g clean (v.finishAt eof) := by
  obtain ⟨rfl, proper, running, -, -⟩ := h
  obtain ⟨alive, noResults, noDiagnostics⟩ := running runs
  simp only [Weave.finishAt]
  cases consumed : v.consume eof with
  | mk outcome w =>
    cases outcome with
    | error e =>
      obtain ⟨arises, same⟩ := consume_of_error closed proper consumed
      exact settles_halt same arises
    | ok outcome =>
      obtain ⟨survivors, failures⟩ := outcome
      obtain ⟨results, metrics, allocated, same, left, -⟩ := consume_of_ok closed proper consumed
      simp only
      generalize start : { w with strands := survivors } = u
      have grammar_eq : u.grammar = v.grammar := by rw [← start, same]
      have strands_eq : u.strands = survivors := by rw [← start]
      have results_eq : u.results = results := by rw [← start, same, noResults]; rfl
      have diagnostics_eq : u.diagnostics = [] := by rw [← start, same]; exact noDiagnostics
      have closed' : u.grammar.Closed defined := grammar_eq ▸ closed
      have proper' : ∀ t ∈ u.strands, t.spot.Proper defined := strands_eq ▸ left.proper
      cases completed : u.complete eof failures with
      | mk outcome w =>
        cases outcome with
        | error e =>
          obtain ⟨arises, same⟩ := complete_of_error closed' proper' completed
          exact settles_halt (same.trans grammar_eq) (grammar_eq ▸ arises)
        | ok failures' =>
          obtain ⟨more, results', metrics', allocated', rfl, rfl, left'⟩ :=
            complete_of_ok closed' proper' completed
          rw [strands_eq] at left'
          have some : failures ++ more ≠ [] ∨ u.results ++ results' ≠ [] := by
            rw [results_eq]
            rcases left.some alive with survives | failed | yielded
            · rcases left' survives with failed | yielded
              · exact .inl (List.append_ne_nil_of_right_ne_nil _ failed)
              · exact .inr (List.append_ne_nil_of_right_ne_nil _ yielded)
            · exact .inl (List.append_ne_nil_of_left_ne_nil failed _)
            · exact .inr (List.append_ne_nil_of_left_ne_nil yielded _)
          refine settles_ended ?_ rfl ?_ ?_ eof
          · exact grammar_eq
          · exact diagnostics_eq
          · exact some

theorem Settled.take (h : v.Settled defined g clean) (closed : g.Closed defined)
    (runs : v.isRunning = true) {token : Token} (plain : token.isEof = false) :
    Settles defined g clean (v.take token) := by
  obtain ⟨rfl, proper, running, -, -⟩ := h
  obtain ⟨alive, noResults, noDiagnostics⟩ := running runs
  simp only [Weave.take]
  cases consumed : v.consume token with
  | mk outcome w =>
    cases outcome with
    | error e =>
      obtain ⟨arises, same⟩ := consume_of_error closed proper consumed
      exact settles_halt (v := w.countToken) same arises
    | ok outcome =>
      obtain ⟨survivors, failures⟩ := outcome
      obtain ⟨results, metrics, allocated, rfl, left, none⟩ := consume_of_ok closed proper consumed
      obtain rfl := none plain
      simp only [noResults, List.append_nil, countNodes, countToken]
      split
      · next dead =>
        have empty := List.isEmpty_iff.mp dead
        have failed : failures ≠ [] := by
          rcases left.some alive with survives | failed | yielded
          · exact absurd empty survives
          · exact failed
          · exact absurd rfl yielded
        refine ⟨⟨rfl, left.proper, ?_, fun _ => empty, ?_⟩, fun e found => nomatch found⟩
        · intro runs
          cases runs
        · intro _ _
          exact .inr ⟨rfl, Failure.report_ne_nil token failed⟩
      · next survive =>
        have survives : survivors ≠ [] := fun empty => survive (List.isEmpty_iff.mpr empty)
        refine ⟨⟨rfl, left.proper, fun _ => ⟨survives, rfl, noDiagnostics⟩, ?_, ?_⟩,
          fun e found => nomatch found⟩
        · intro stopped
          exact absurd runs (Bool.eq_false_iff.mp stopped)
        · intro _ stopped
          exact absurd runs (Bool.eq_false_iff.mp stopped)

theorem Settled.feed (h : v.Settled defined g clean) (closed : g.Closed defined) (token : Token) :
    Settles defined g clean (v.feed token) := by
  simp only [Weave.feed]
  cases runs : v.isRunning with
  | false => exact h.settles_same
  | true =>
    simp only [Bool.not_true, Bool.false_eq_true, ↓reduceIte]
    cases ended : token.isEof with
    | true => exact h.finishAt closed runs token
    | false => exact h.take closed runs ended

theorem Settled.finish (h : v.Settled defined g clean) (closed : g.Closed defined) :
    Settles defined g clean v.finish := by
  simp only [Weave.finish]
  cases runs : v.isRunning with
  | false => exact h.settles_same
  | true => exact h.finishAt closed runs _

end Weave

end Lockstep
