import Lockstep.Proofs.Results

set_option autoImplicit false

namespace Lockstep

open Grammar (lastPlace endMarker)

namespace Weave

variable {v v' : Weave} {g : Grammar} {pattern : Pattern} {start : Position} {tokens : List Token}
  {token eof : Token}

theorem not_completes_iff {ds es : List (Choices × Waiting)} (marker : eof.isEof = true)
    (all : Enumerates ds (g.Partial pattern start tokens))
    (all' : Enumerates es (g.Partial pattern start (tokens ++ [eof]))) :
    (completions eof (lastPlace start tokens).endPoint ds).map Prod.snd ++
        (completions eof (lastPlace start tokens).endPoint es).map Prod.snd = [] ↔
      ∀ marked w capture, ¬ g.Completes pattern start tokens eof marked w capture := by
  have unmarked : Enumerates _ (g.Completes pattern start tokens eof false) :=
    enumerates_completions marker all
  have marked : Enumerates _ (g.Completes pattern start tokens eof true) :=
    enumerates_completions marker all'
  rw [List.append_eq_nil_iff, List.map_eq_nil_iff, List.map_eq_nil_iff]
  constructor
  · rintro ⟨none, none'⟩ (_ | _) w capture complete
    · have mem := (unmarked.mem_iff w capture).mpr complete
      rw [none] at mem
      cases mem
    · have mem := (marked.mem_iff w capture).mpr complete
      rw [none'] at mem
      cases mem
  · intro none
    refine ⟨List.eq_nil_iff_forall_not_mem.mpr ?_, List.eq_nil_iff_forall_not_mem.mpr ?_⟩
    · rintro ⟨w, capture⟩ mem
      exact none false w capture ((unmarked.mem_iff w capture).mp mem)
    · rintro ⟨w, capture⟩ mem
      exact none true w capture ((marked.mem_iff w capture).mp mem)

theorem Fed.halted_iff (h : v.Fed g pattern start tokens) (runs : v.isRunning = true)
    (marker : eof.isEof = true) (ok : v.finishAt eof = (none, v')) :
    let last := (lastPlace start tokens).endPoint
    (v'.status = .halted ↔
      ∀ marked w capture, ¬ g.Completes pattern start tokens eof marked w capture) ∧
    (v'.status = .halted →
      ∃ ds es, Enumerates ds (g.Partial pattern start tokens) ∧
        Enumerates es (g.Partial pattern start (tokens ++ [eof])) ∧
        v'.diagnostics =
          Failure.report (failuresAt eof last ds ++ closingFailuresAt eof last es) eof) := by
  obtain ⟨ds, es, all, all', results, ended⟩ := h.finishAt runs marker ok
  intro last
  rw [← not_completes_iff marker all all', ← results]
  rcases ended with ⟨some, status⟩ | ⟨none, status, report⟩
  · have notHalted : v'.status ≠ .halted := by
      rw [status]
      exact Status.noConfusion
    exact ⟨iff_of_false notHalted some, fun halted => absurd halted notHalted⟩
  · exact ⟨iff_of_true status none, fun _ => ⟨ds, es, all, all', report⟩⟩

end Weave

namespace Parser

def HaltsAs (p q : Parser) : Prop := p.isRunning = true ∧ q.status = .halted

variable {p₀ p q : Parser} {pattern : Pattern} {start : Position} {tokens : List Token}
  {token eof : Token}

/-- The input of `p` ends with the marker `eof`, which is fed or stands for the end, and leaves
`q`. -/
def EndsAt (p : Parser) (eof : Token) (q : Parser) : Prop :=
  (eof.isEof = true ∧ p.feed eof = (none, q)) ∨
    (eof = endMarker p.last ∧ p.finish = (none, q))

theorem haltsAs_feed_iff {g : Grammar} (sound : p.Sound)
    (tracked : p.weave.Fed g pattern start tokens) (plain : token.isEof = false)
    (ok : p.feed token = (none, q)) :
    let last := (lastPlace start tokens).endPoint
    (p.HaltsAs q ↔
      g.Consumes pattern start tokens ∧ ¬ g.Consumes pattern start (tokens ++ [token])) ∧
    (p.HaltsAs q → ∃ ds, Enumerates ds (g.Partial pattern start tokens) ∧
      q.diagnostics = Failure.report (failuresAt token last ds) token) := by
  have same := (feed_sim sound token).2
  rw [ok] at same
  obtain ⟨next, stops⟩ := tracked.feed plain same
  have stopped : q.status = .halted → q.weave.isRunning = false := by
    intro status
    rw [Weave.isRunning, show q.weave.status = .halted from status]
    rfl
  refine ⟨⟨?_, ?_⟩, ?_⟩
  · rintro ⟨runs, status⟩
    exact ⟨tracked.running_iff.mp runs, next.not_consumes (stopped status)⟩
  · rintro ⟨consumes, stuck⟩
    have runs := tracked.running_iff.mpr consumes
    have halted : q.weave.isRunning = false :=
      Bool.eq_false_iff.mpr fun runs' => stuck (next.running_iff.mp runs')
    exact ⟨runs, (stops runs halted).1⟩
  · rintro ⟨runs, status⟩
    exact (stops runs (stopped status)).2

theorem haltsAs_end_iff {g : Grammar} (sound : p.Sound)
    (tracked : p.weave.Fed g pattern start tokens) (ok : p.EndsAt eof q) :
    let last := (lastPlace start tokens).endPoint
    (p.HaltsAs q ↔ g.Consumes pattern start tokens ∧
      ∀ marked w capture, ¬ g.Completes pattern start tokens eof marked w capture) ∧
    (p.HaltsAs q → ∃ ds es, Enumerates ds (g.Partial pattern start tokens) ∧
      Enumerates es (g.Partial pattern start (tokens ++ [eof])) ∧
      q.diagnostics =
        Failure.report (failuresAt eof last ds ++ closingFailuresAt eof last es) eof) := by
  cases runs : p.weave.isRunning with
  | false =>
    have idle : ¬ p.HaltsAs q := fun halts => Bool.eq_false_iff.mp runs halts.1
    refine ⟨iff_of_false idle ?_, fun halts => absurd halts idle⟩
    rintro ⟨consumes, -⟩
    exact tracked.not_consumes runs consumes
  | true =>
    have finished : eof.isEof = true ∧ p.weave.finishAt eof = (none, q.weave) := by
      rcases ok with ⟨marker, ok⟩ | ⟨rfl, ok⟩
      · have same := (feed_sim sound eof).2
        rw [ok, Weave.feed_of_marker runs marker] at same
        exact ⟨marker, same⟩
      · have same := (finish_sim sound).2
        rw [ok, Weave.finish_of_running runs] at same
        exact ⟨rfl, same⟩
    obtain ⟨halts, reports⟩ := tracked.halted_iff runs finished.1 finished.2
    refine ⟨⟨?_, ?_⟩, fun halted => reports halted.2⟩
    · rintro ⟨-, status⟩
      exact ⟨tracked.running_iff.mp runs, halts.mp status⟩
    · rintro ⟨-, none⟩
      exact ⟨runs, halts.mpr none⟩

/-- When no call gives an error, a parser halts at a token exactly if some derivation takes all
tokens before it and none takes it too, and at the end of the input exactly if some derivation takes
all tokens and none is complete. Its diagnostics then report the failures of all derivations under
way, in the order of their choices, and at the end also of those that took the end marker. -/
theorem diagnostics_are_exact (plain : ∀ token ∈ tokens, token.isEof = false)
    (fed : (p₀.setup pattern start).feedAll tokens = (none, p)) :
    let g := p₀.grammar
    let last := (lastPlace start tokens).endPoint
    (∀ token q, token.isEof = false → p.feed token = (none, q) →
      (p.HaltsAs q ↔
        g.Consumes pattern start tokens ∧ ¬ g.Consumes pattern start (tokens ++ [token])) ∧
      (p.HaltsAs q → ∃ ds, Enumerates ds (g.Partial pattern start tokens) ∧
        q.diagnostics = Failure.report (failuresAt token last ds) token)) ∧
    (∀ eof q, p.EndsAt eof q →
      (p.HaltsAs q ↔ g.Consumes pattern start tokens ∧
        ∀ marked w capture, ¬ g.Completes pattern start tokens eof marked w capture) ∧
      (p.HaltsAs q → ∃ ds es, Enumerates ds (g.Partial pattern start tokens) ∧
        Enumerates es (g.Partial pattern start (tokens ++ [eof])) ∧
        q.diagnostics =
          Failure.report (failuresAt eof last ds ++ closingFailuresAt eof last es) eof)) := by
  obtain ⟨sound, tracked⟩ := weave_fed plain fed
  refine ⟨?_, ?_⟩
  · intro token q plain ok
    exact haltsAs_feed_iff sound tracked plain ok
  · intro eof q ok
    exact haltsAs_end_iff sound tracked ok

def wordThenEnds : Pattern :=
  .sequence 0 (some "ended")
    [.reference "item" [], .token ⟨.eof, none⟩ [], .token ⟨.eof, none⟩ []] (.nth 0) []

def fedUnended : Option ParseError × Parser :=
  ((ofGrammar wordItems {}).setup wordThenEnds .detached).feedAll [wordA]

theorem diagnostics_of_unended_word :
    fedUnended.1 = none ∧ (fedUnended.2.feed wordA).1 = none ∧ fedUnended.2.finish.1 = none ∧
      fedUnended.2.HaltsAs (fedUnended.2.feed wordA).2 ∧
      fedUnended.2.HaltsAs fedUnended.2.finish.2 ∧
      (∃ ds, Enumerates ds (wordItems.Partial wordThenEnds .detached [wordA]) ∧
        (fedUnended.2.feed wordA).2.diagnostics =
          Failure.report (failuresAt wordA (lastPlace .detached [wordA]).endPoint ds) wordA) ∧
      ∃ ds es, Enumerates ds (wordItems.Partial wordThenEnds .detached [wordA]) ∧
        Enumerates es (wordItems.Partial wordThenEnds .detached
          ([wordA] ++ [endMarker fedUnended.2.last])) ∧
        fedUnended.2.finish.2.diagnostics =
          Failure.report (failuresAt (endMarker fedUnended.2.last)
              (lastPlace .detached [wordA]).endPoint ds ++
            closingFailuresAt (endMarker fedUnended.2.last)
              (lastPlace .detached [wordA]).endPoint es) (endMarker fedUnended.2.last) := by
  have plain : ∀ token ∈ [wordA], token.isEof = false := by decide
  have fed : fedUnended.1 = none := by decide +kernel
  have ok : (fedUnended.2.feed wordA).1 = none := by decide +kernel
  have ended : fedUnended.2.finish.1 = none := by decide +kernel
  have runs : fedUnended.2.isRunning = true := by decide +kernel
  have atToken : (fedUnended.2.feed wordA).2.status = .halted := by decide +kernel
  have atEnd : fedUnended.2.finish.2.status = .halted := by decide +kernel
  have reports := diagnostics_are_exact plain (eq_none_snd fed : fedUnended = _)
  refine ⟨fed, ok, ended, ⟨runs, atToken⟩, ⟨runs, atEnd⟩, ?_, ?_⟩
  · exact (reports.1 wordA _ rfl (eq_none_snd ok)).2 ⟨runs, atToken⟩
  · exact (reports.2 (endMarker fedUnended.2.last) _ (.inr ⟨rfl, eq_none_snd ended⟩)).2 ⟨runs, atEnd⟩

end Parser

end Lockstep
