import Lockstep.Proofs.Blindness
import Mathlib.Data.List.Find
import Mathlib.Data.List.Forall2

set_option autoImplicit false

/-!
Two derivations that mirror each other: the same, step by step, but for the positions in what they
have captured, in matchers that cannot see positions. A step of one is mirrored by the step of the
other, so what a strand is expanded to is mirrored, and the derivations that wait for a token fare
alike at tokens of one kind and value.
-/

namespace Lockstep

open Capture (unplaced)

/-- The two frames are the same but for positions, and cannot see any. -/
structure Frame.Mirrors (f f' : Frame) : Prop where
  sequence_eq : f.sequence = f'.sequence
  captured_eq : f.captured.map unplaced = f'.captured.map unplaced
  builds : f.sequence.build.Blind
  parts : ∀ m ∈ f.sequence.parts, m.Blind

inductive Spot.Mirrors : Spot → Spot → Prop where
  | next {m : Matcher} {fs fs' : List Frame} (blind : m.Blind)
      (frames : List.Forall₂ Frame.Mirrors fs fs') :
    Mirrors (.next m fs) (.next m fs')
  | done {fs fs' : List Frame} (frames : List.Forall₂ Frame.Mirrors fs fs') :
    Mirrors (.done fs) (.done fs')

namespace Frame

section

variable {f f' : Frame} {c c' : Capture} (h : f.Mirrors f')
include h

theorem Mirrors.next?_eq : f.next? = f'.next? := by
  have lengths := congrArg List.length h.captured_eq
  rw [List.length_map, List.length_map] at lengths
  rw [next?, next?, h.sequence_eq, lengths]

theorem Mirrors.next {m : Matcher} (next : f.next? = some m) : m.Blind :=
  h.parts m (List.mem_of_getElem? next)

theorem Mirrors.add (same : c.unplaced = c'.unplaced) : (f.add c).Mirrors (f'.add c') := by
  refine ⟨h.sequence_eq, ?_, h.builds, h.parts⟩
  simp only [Frame.add, List.map_append, List.map_cons, List.map_nil, h.captured_eq, same]

theorem Mirrors.capture_eq : f.capture.unplaced = f'.capture.unplaced := by
  rw [capture, capture, ← h.sequence_eq]
  exact h.builds _ _ h.captured_eq

end

variable {fs fs' : List Frame} {c c' : Capture}

theorem trail_mirrored (h : List.Forall₂ Mirrors fs fs') : trail fs = trail fs' := by
  induction h with
  | nil => rfl
  | cons first _ ih =>
    simp only [trail, List.flatMap_cons] at ih ⊢
    rw [ih, first.sequence_eq]

theorem enclose_mirrored (h : List.Forall₂ Mirrors fs fs') (same : c.unplaced = c'.unplaced) :
    (enclose c fs).unplaced = (enclose c' fs').unplaced := by
  induction h generalizing c c' with
  | nil => exact same
  | cons first _ ih => exact ih (first.add same).capture_eq

theorem outermost_mirrored (h : List.Forall₂ Mirrors fs fs') :
    (outermost fs).unplaced = (outermost fs').unplaced := by
  cases h with
  | nil => rfl
  | cons first rest => exact enclose_mirrored rest first.capture_eq

theorem climb_mirrored (h : List.Forall₂ Mirrors fs fs') (same : c.unplaced = c'.unplaced) :
    Option.Rel Spot.Mirrors (climb c fs) (climb c' fs') := by
  induction h generalizing c c' with
  | nil => exact .none
  | @cons f f' fs fs' first rest ih =>
    have added := first.add same
    cases next : (f.add c).next? with
    | some m =>
      rw [climb_of_next fs next, climb_of_next fs' (added.next?_eq.symm.trans next)]
      exact .some (.next (added.next next) (.cons added rest))
    | none =>
      rw [climb_of_finished fs next, climb_of_finished fs' (added.next?_eq.symm.trans next)]
      exact ih added.capture_eq

theorem settle_mirrored (h : List.Forall₂ Mirrors fs fs') :
    (settle fs).Mirrors (settle fs') := by
  cases h with
  | nil => exact .done .nil
  | @cons f f' fs fs' first rest =>
    cases next : f.next? with
    | some m =>
      simp only [settle, next, first.next?_eq.symm.trans next]
      exact .next (first.next next) (.cons first rest)
    | none =>
      have climbs := climb_mirrored rest first.capture_eq
      simp only [settle, next, first.next?_eq.symm.trans next]
      generalize climb f.capture fs = s? at climbs ⊢
      generalize climb f'.capture fs' = s?' at climbs ⊢
      cases climbs with
      | some mirrors => exact mirrors
      | none => exact .done (.cons first rest)

theorem advance_mirrored (h : List.Forall₂ Mirrors fs fs') (same : c.unplaced = c'.unplaced) :
    (advance c fs).Mirrors (advance c' fs') := by
  cases h with
  | nil => exact .done .nil
  | cons first rest => exact settle_mirrored (.cons (first.add same) rest)

theorem resumed_mirrored (h : List.Forall₂ Mirrors fs fs') : resumed fs = resumed fs' := by
  cases h with
  | nil => rfl
  | @cons f f' fs fs' first rest =>
    have climbs := climb_mirrored rest first.capture_eq
    rw [resumed, resumed, first.next?_eq]
    generalize climb f.capture fs = s? at climbs ⊢
    generalize climb f'.capture fs' = s?' at climbs ⊢
    cases climbs <;> rfl

theorem advanced_mirrored (h : List.Forall₂ Mirrors fs fs') (same : c.unplaced = c'.unplaced) :
    advanced c fs = advanced c' fs' := by
  cases h with
  | nil => rfl
  | cons first rest => rw [advanced, advanced, resumed_mirrored (.cons (first.add same) rest)]

end Frame

structure Strand.Mirrors (t t' : Strand) : Prop where
  spot : t.spot.Mirrors t'.spot
  guards_eq : t.guards = t'.guards
  blind : ∀ p ∈ t.guards, p.Blind

structure Waiting.Mirrors (w w' : Waiting) : Prop where
  goal_eq : w.goal = w'.goal
  frames : List.Forall₂ Frame.Mirrors w.frames w'.frames
  guards_eq : w.guards = w'.guards
  blind : ∀ p ∈ w.guards, p.Blind

inductive Move.Mirrors : Move → Move → Prop where
  | ready {w w' : Waiting} (mirrors : w.Mirrors w') : Mirrors (.ready w) (.ready w')
  | moved {t t' : Strand} (mirrors : t.Mirrors t') : Mirrors (.moved t) (.moved t')
  | split {ts ts' : List Strand} (mirrors : List.Forall₂ Strand.Mirrors ts ts') :
    Mirrors (.split ts) (.split ts')
  | unknown (name : String) : Mirrors (.unknown name) (.unknown name)

def Grammar.Plain (g : Grammar) : Prop := ∀ name p, g.lookup? name = some p → p.Plain

namespace Strand

variable {g : Grammar} {marker marker' : Capture} {t t' : Strand}

theorem split_mirrored {options : List Matcher} {fs fs' : List Frame} {guards : List Predicate}
    (all : ∀ m ∈ options, m.Blind) (frames : List.Forall₂ Frame.Mirrors fs fs')
    (blind : ∀ p ∈ guards, p.Blind) :
    List.Forall₂ Mirrors (options.map fun m => ⟨.next m fs, guards⟩)
      (options.map fun m => ⟨.next m fs', guards⟩) := by
  induction options with
  | nil => exact .nil
  | cons m options ih =>
    obtain ⟨first, rest⟩ := List.forall_mem_cons.mp all
    exact .cons ⟨.next first frames, rfl, blind⟩ (ih rest)

theorem Mirrors.expand (h : t.Mirrors t') (rules : g.Plain)
    (same : marker.unplaced = marker'.unplaced) :
    (t.expand g marker).1.Mirrors (t'.expand g marker').1 ∧
      (t.expand g marker).2 = (t'.expand g marker').2 := by
  obtain ⟨spot, guards⟩ := t
  obtain ⟨spot', guards'⟩ := t'
  obtain ⟨spots, same_guards, pending⟩ := h
  cases same_guards
  cases spots with
  | done frames => exact ⟨.ready ⟨rfl, frames, rfl, pending⟩, rfl⟩
  | @next m fs fs' blind frames =>
    have met : ∀ p ∈ guards ++ m.guards, p.Blind := by
      intro p mem
      rcases List.mem_append.mp mem with before | now
      · exact pending p before
      · exact blind.guards p now
    -- rules and lists have one step in common, whatever they stand for
    have deferred : m.isDeferred = true →
        (Strand.expand g marker ⟨.next m fs, guards⟩).1.Mirrors
            (Strand.expand g marker' ⟨.next m fs', guards⟩).1 ∧
          (Strand.expand g marker ⟨.next m fs, guards⟩).2 =
            (Strand.expand g marker' ⟨.next m fs', guards⟩).2 := by
      intro defers
      cases unfolds : g.unfold m with
      | ok m' =>
        rw [expand_of_unfold_ok defers unfolds, expand_of_unfold_ok defers unfolds]
        have blind' := Matcher.blind_unfold rules blind unfolds
        exact ⟨.moved ⟨.next blind' frames, rfl, met⟩, rfl⟩
      | error name =>
        rw [expand_of_unfold_error defers unfolds, expand_of_unfold_error defers unfolds]
        exact ⟨.unknown name, rfl⟩
    cases blind with
    | token => exact ⟨.ready ⟨rfl, frames, rfl, met⟩, rfl⟩
    | nothing =>
      exact ⟨.moved ⟨Frame.advance_mirrored frames same, rfl, met⟩,
        Frame.advanced_mirrored frames same⟩
    | @sequence name? parts build _ _ builds all =>
      have entered : List.Forall₂ Frame.Mirrors (⟨⟨name?, parts, build⟩, []⟩ :: fs)
          (⟨⟨name?, parts, build⟩, []⟩ :: fs') := .cons ⟨rfl, rfl, builds, all⟩ frames
      refine ⟨.moved ⟨Frame.settle_mirrored entered, rfl, met⟩, ?_⟩
      simp only [expand, Frame.resumed_mirrored entered]
    | branch _ all => exact ⟨.split (split_mirrored all frames met), rfl⟩
    | rule => exact deferred rfl
    | list => exact deferred rfl
    | tail => exact deferred rfl

end Strand

/-- Both fail with the same error but for positions, or what they give is related. -/
inductive Mirrored {α : Type} (related : α → α → Prop) :
    Except ParseError α → Except ParseError α → Prop where
  | error {e e' : ParseError} (same : e.unplaced = e'.unplaced) :
    Mirrored related (.error e) (.error e')
  | ok {a a' : α} (mirrors : related a a') : Mirrored related (.ok a) (.ok a')

structure Resolved.Mirrors (r r' : Resolved) : Prop where
  outcome : Mirrored (List.Forall₂ Waiting.Mirrors) r.outcome r'.outcome
  branches_eq : r.branches = r'.branches
  made_eq : r.made = r'.made

structure Phase.Mirrors (p p' : Phase) : Prop where
  grammar_eq : p.grammar = p'.grammar
  limits_eq : p.limits = p'.limits
  marker_eq : p.marker.unplaced = p'.marker.unplaced
  rules : p.grammar.Plain

theorem Phase.Mirrors.resolveStrands {p p' : Phase} (h : p.Mirrors p') (budget : Nat)
    {work work' : List Strand} {ready ready' : List Waiting}
    (left : List.Forall₂ Strand.Mirrors work work')
    (done : List.Forall₂ Waiting.Mirrors ready ready') (branches made : Nat) :
    (p.resolveStrands budget work ready branches made).Mirrors
      (p'.resolveStrands budget work' ready' branches made) := by
  -- Mirrored lists have the same length and mirrored strands make moves of the same form, so both
  -- loops take the same turn every time.
  induction budget generalizing work work' ready ready' branches made with
  | zero =>
    cases left with
    | nil => exact ⟨.ok done, rfl, rfl⟩
    | cons =>
      refine ⟨.error ?_, rfl, rfl⟩
      simp only [ParseError.unplaced, h.limits_eq]
  | succ budget ih =>
    cases left with
    | nil => exact ⟨.ok done, rfl, rfl⟩
    | @cons t t' work work' first rest =>
      obtain ⟨moves, counts⟩ := first.expand h.rules h.marker_eq
      rw [Phase.resolveStrands, Phase.resolveStrands, ← h.grammar_eq]
      generalize t.expand p.grammar p.marker = move at moves counts
      generalize t'.expand p.grammar p'.marker = move' at moves counts
      obtain ⟨move, k⟩ := move
      obtain ⟨move', k'⟩ := move'
      cases counts
      cases moves with
      | @ready w w' mirrors =>
        have waits := List.rel_append done (List.Forall₂.cons mirrors .nil)
        simp only [← mirrors.goal_eq, ← h.limits_eq, ← done.length_eq]
        cases w.goal with
        | accepted => exact ih rest waits branches (made + k)
        | token spec =>
          simp only
          split
          · exact ih rest waits branches (made + k)
          · exact ⟨.error rfl, rfl, rfl⟩
      | moved mirrors => exact ih (.cons mirrors rest) done branches (made + k)
      | split mirrors => exact ih (List.rel_append mirrors rest) done (branches + 1) (made + k)
      | unknown name => exact ⟨.error rfl, rfl, rfl⟩

structure Fate.Mirrors (x x' : Fate) : Prop where
  survivors : List.Forall₂ Strand.Mirrors x.survivors x'.survivors
  failures_eq : x.failures = x'.failures
  results_eq : x.results.map unplaced = x'.results.map unplaced
  made_eq : x.made = x'.made

namespace Fate

variable {xs xs' : List Fate} (h : List.Forall₂ Mirrors xs xs')
include h

theorem survivors_mirrored :
    List.Forall₂ Strand.Mirrors (xs.flatMap survivors) (xs'.flatMap survivors) :=
  List.rel_flatMap h fun _ _ mirrors => mirrors.survivors

theorem failures_mirrored : xs.flatMap failures = xs'.flatMap failures := by
  induction h with
  | nil => rfl
  | cons first _ ih => rw [List.flatMap_cons, List.flatMap_cons, first.failures_eq, ih]

theorem results_mirrored :
    (xs.flatMap results).map unplaced = (xs'.flatMap results).map unplaced := by
  induction h with
  | nil => rfl
  | cons first _ ih =>
    rw [List.flatMap_cons, List.flatMap_cons, List.map_append, List.map_append, first.results_eq,
      ih]

theorem madeBy_mirrored : madeBy xs = madeBy xs' := by
  induction h with
  | nil => rfl
  | cons first _ ih =>
    simp only [madeBy, List.foldr_cons] at ih ⊢
    rw [first.made_eq, ih]

end Fate

namespace Waiting

variable {w w' : Waiting} {token token' : Token} (h : w.Mirrors w')
  (same : token.unplaced = token'.unplaced) (last last' : Position)
include h same

theorem Mirrors.refusal?_eq : w.refusal? token last = w'.refusal? token' last' := by
  have tests : w.guards.find? (fun p => !p.test token last) =
      w.guards.find? (fun p => !p.test token' last') := by
    refine List.find?_congr fun p mem => ?_
    rw [(h.blind p mem token token' last last' same).1]
  rw [refusal?, refusal?, ← h.guards_eq, ← tests]
  cases found : w.guards.find? (fun p => !p.test token last) with
  | none => rfl
  | some p =>
    have causes := (h.blind p (List.mem_of_find?_eq_some found) token token' last last' same).2
    rw [Option.map_some, Option.map_some, causes]

theorem Mirrors.mismatch?_eq : w.mismatch? token = w'.mismatch? token' := by
  rw [mismatch?, mismatch?, ← h.goal_eq, Token.isEof_of_unplaced same]
  cases w.goal with
  | accepted => rfl
  | token spec => simp only [Token.accepts_of_unplaced same spec]

theorem Mirrors.failures_eq : w.failures token last = w'.failures token' last' := by
  rw [failures, failures, h.refusal?_eq same last last', h.mismatch?_eq same,
    Frame.trail_mirrored h.frames]

theorem Mirrors.closingFailures_eq :
    w.closingFailures token last = w'.closingFailures token' last' := by
  rw [closingFailures, closingFailures, h.refusal?_eq same last last', shortfall?, shortfall?,
    h.goal_eq, Frame.trail_mirrored h.frames]

theorem Mirrors.takes_eq : w.takes token last = w'.takes token' last' := by
  rw [takes, takes, ← h.goal_eq, h.refusal?_eq same last last']
  cases w.goal with
  | accepted => rfl
  | token spec => simp only [Token.accepts_of_unplaced same spec]

theorem Mirrors.isComplete_eq : w.isComplete token last = w'.isComplete token' last' := by
  rw [isComplete, isComplete, h.goal_eq, h.refusal?_eq same last last']

omit same in
theorem Mirrors.result_eq (complete : Bool) :
    (if complete then [Frame.outermost w.frames] else []).map unplaced =
      (if complete then [Frame.outermost w'.frames] else []).map unplaced := by
  cases complete with
  | false => rfl
  | true => exact congrArg (fun c => [c]) (Frame.outermost_mirrored h.frames)

theorem Mirrors.meet : (w.meet token last).Mirrors (w'.meet token' last') := by
  have tokens : (Capture.token token).unplaced = (Capture.token token').unplaced :=
    congrArg Capture.token same
  have taken := h.takes_eq same last last'
  refine ⟨?_, h.failures_eq same last last', ?_, ?_⟩
  · simp only [Waiting.meet, ← taken]
    split
    · exact .cons ⟨Frame.advance_mirrored h.frames tokens, rfl, Matcher.blind_unguarded⟩ .nil
    · exact .nil
  · simp only [Waiting.meet, ← h.isComplete_eq same last last', ← Token.isEof_of_unplaced same]
    exact h.result_eq _
  · simp only [Waiting.meet, ← taken, Frame.advanced_mirrored h.frames tokens]

theorem Mirrors.close : (w.close token last).Mirrors (w'.close token' last') := by
  refine ⟨.nil, h.closingFailures_eq same last last', ?_, rfl⟩
  simp only [Waiting.close, ← h.isComplete_eq same last last']
  exact h.result_eq _

end Waiting

end Lockstep
