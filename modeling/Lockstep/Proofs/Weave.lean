import Lockstep.Engine.Parser
import Lockstep.Proofs.Frame

set_option autoImplicit false

/-!
The parser without a store. A strand is a thread that holds its frames itself, so strands share
nothing, no capture is deferred and there is nothing to compact. A weave runs strands as a parser
runs threads, and counts the nodes that a store would make for them.
-/

namespace Lockstep

structure Strand where
  spot : Spot
  /-- The guards met since the last token, in order. -/
  guards : List Predicate

structure Waiting where
  goal : Goal
  frames : List Frame
  guards : List Predicate

inductive Move where
  | ready (w : Waiting)
  | moved (t : Strand)
  | split (ts : List Strand)
  | unknown (name : String)

namespace Strand

/-- One step of a strand, and how many nodes a store makes for it. -/
def expand (g : Grammar) (marker : Capture) (t : Strand) : Move × Nat :=
  match t.spot with
  | .done frames => (.ready ⟨.accepted, frames, t.guards⟩, 0)
  | .next matcher frames =>
    let guards := t.guards ++ matcher.guards
    match matcher with
    | .token spec _ => (.ready ⟨.token spec, frames, guards⟩, 0)
    | .nothing _ =>
      (.moved ⟨Frame.advance marker frames, guards⟩, Frame.advanced marker frames)
    | .sequence name? parts build _ =>
      let inner := ⟨⟨name?, parts, build⟩, []⟩ :: frames
      (.moved ⟨Frame.settle inner, guards⟩, 1 + Frame.resumed inner)
    | .branch options _ => (.split (options.map fun option => ⟨.next option frames, guards⟩), 0)
    | deferred =>
      match g.unfold deferred with
      | .ok matcher => (.moved ⟨.next matcher frames, guards⟩, 0)
      | .error name => (.unknown name, 0)

end Strand

structure Resolved where
  outcome : Except ParseError (List Waiting)
  branches : Nat
  made : Nat

namespace Phase

def resolveStrands (p : Phase) : (budget : Nat) → (work : List Strand) → (ready : List Waiting) →
    (branches made : Nat) → Resolved
  | _, [], ready, branches, made => ⟨.ok ready, branches, made⟩
  | 0, _ :: _, _, branches, made =>
    ⟨.error (.expansionLimit p.limits.maxExpansions p.position), branches, made⟩
  | budget + 1, t :: work, ready, branches, made =>
    match t.expand p.grammar p.marker with
    | (.ready w, k) =>
      match w.goal with
      | .accepted => p.resolveStrands budget work (ready ++ [w]) branches (made + k)
      | .token _ =>
        if ready.length < p.limits.maxThreads then
          p.resolveStrands budget work (ready ++ [w]) branches (made + k)
        else ⟨.error (.threadLimit p.limits.maxThreads p.position), branches, made + k⟩
    | (.moved u, k) => p.resolveStrands budget (u :: work) ready branches (made + k)
    | (.split us, k) => p.resolveStrands budget (us ++ work) ready (branches + 1) (made + k)
    | (.unknown name, k) => ⟨.error (.unknownPattern name), branches, made + k⟩

end Phase

structure Fate where
  survivors : List Strand
  failures : List Failure
  results : List Capture
  made : Nat

def Fate.madeBy (fates : List Fate) : Nat := fates.foldr (fun f n => f.made + n) 0

namespace Waiting

def refusal? (w : Waiting) (token : Token) (last : Position) : Option Cause :=
  (w.guards.find? fun guard => !guard.test token last).map fun guard => guard.failure token last

def mismatch? (w : Waiting) (token : Token) : Option Cause :=
  match w.goal with
  | .token spec => if spec.accepts token then none else some (.expected spec.render)
  | .accepted => if token.isEof then none else some Tally.endOfInput

def shortfall? (w : Waiting) : Option Cause :=
  match w.goal with
  | .token spec => some (.expected spec.render)
  | .accepted => none

/-- Why the derivation fails at `token`: by a guard, then for what it expects. -/
def failures (w : Waiting) (token : Token) (last : Position) : List Failure :=
  ((w.refusal? token last).toList ++ (w.mismatch? token).toList).map
    fun cause => ⟨Frame.trail w.frames, cause⟩

def closingFailures (w : Waiting) (eof : Token) (last : Position) : List Failure :=
  ((w.refusal? eof last).toList ++ w.shortfall?.toList).map
    fun cause => ⟨Frame.trail w.frames, cause⟩

def takes (w : Waiting) (token : Token) (last : Position) : Bool :=
  match w.goal with
  | .token spec => spec.accepts token && (w.refusal? token last).isNone
  | .accepted => false

def isComplete (w : Waiting) (eof : Token) (last : Position) : Bool :=
  match w.goal with
  | .token _ => false
  | .accepted => (w.refusal? eof last).isNone

def advance (w : Waiting) (token : Token) : Strand := ⟨Frame.advance (.token token) w.frames, []⟩

def meet (token : Token) (last : Position) (w : Waiting) : Fate where
  survivors := if w.takes token last then [w.advance token] else []
  failures := w.failures token last
  results := if token.isEof && w.isComplete token last then [Frame.outermost w.frames] else []
  made := if w.takes token last then Frame.advanced (.token token) w.frames else 0

def close (eof : Token) (last : Position) (w : Waiting) : Fate where
  survivors := []
  failures := w.closingFailures eof last
  results := if w.isComplete eof last then [Frame.outermost w.frames] else []
  made := 0

end Waiting

structure Weave where
  grammar : Grammar
  limits : Limits
  strands : List Strand
  results : List Capture
  diagnostics : List Diagnostic
  last : Position
  status : Status
  metrics : Metrics
  allocated : Nat

namespace Weave

def ofPattern (g : Grammar) (limits : Limits) (pattern : Pattern) (start : Position) : Weave where
  grammar := g
  limits := limits
  strands := [⟨.next (.lower pattern) [⟨⟨none, [.lower pattern], .nth 0⟩, []⟩], []⟩]
  results := []
  diagnostics := []
  last := start
  status := .running
  metrics := {}
  allocated := 1

def isRunning (v : Weave) : Bool := v.status == .running

def halt (v : Weave) : Weave := { v with strands := [], status := .halted }

def resolve (v : Weave) (token : Token) : Except ParseError (List Waiting) × Weave :=
  let phase : Phase := ⟨v.grammar, v.limits, .empty v.last.endPoint, token.position⟩
  let r := phase.resolveStrands v.limits.maxExpansions v.strands [] v.metrics.branches v.allocated
  let metrics := { v.metrics with branches := r.branches }
  match r.outcome with
  | .error e => (.error e, { v with strands := [], metrics, allocated := r.made })
  | .ok ready =>
    let metrics := { metrics with peakThreads := max metrics.peakThreads ready.length }
    (.ok ready, { v with strands := [], metrics, allocated := r.made })

def gather (v : Weave) (fates : List Fate) : Weave :=
  { v with
    results := v.results ++ fates.flatMap Fate.results
    allocated := v.allocated + Fate.madeBy fates }

def consume (v : Weave) (token : Token) : Except ParseError (List Strand × List Failure) × Weave :=
  match v.resolve token with
  | (.error e, v) => (.error e, v)
  | (.ok ready, v) =>
    let fates := ready.map (Waiting.meet token v.last.endPoint)
    (.ok (fates.flatMap Fate.survivors, fates.flatMap Fate.failures), v.gather fates)

def countNodes (v : Weave) : Weave :=
  { v with metrics := { v.metrics with sequencesAllocated := v.allocated } }

def countToken (v : Weave) : Weave :=
  { v with metrics := { v.metrics with tokensConsumed := v.metrics.tokensConsumed + 1 } }

def reject (v : Weave) (failures : List Failure) (token : Token) : Weave :=
  { v with diagnostics := Failure.report failures token, status := .halted }

def complete (v : Weave) (eof : Token) (failures : List Failure) :
    Except ParseError (List Failure) × Weave :=
  if v.strands.isEmpty then (.ok failures, v)
  else
    match v.resolve eof with
    | (.error e, v) => (.error e, v)
    | (.ok ready, v) =>
      let fates := ready.map (Waiting.close eof v.last.endPoint)
      (.ok (failures ++ fates.flatMap Fate.failures), v.gather fates)

def finishAt (v : Weave) (eof : Token) : Option ParseError × Weave :=
  match v.consume eof with
  | (.error e, v) => (some e, v.halt)
  | (.ok (survivors, failures), v) =>
    match { v with strands := survivors }.complete eof failures with
    | (.error e, v) => (some e, v.halt)
    | (.ok failures, v) =>
      let v := { v with strands := [] }.countNodes
      if v.results.isEmpty then (none, v.reject failures eof)
      else (none, { v with status := .finished })

def finish (v : Weave) : Option ParseError × Weave :=
  if v.isRunning then v.finishAt (.eof (v.last.endPoint.after 1)) else (none, v)

def take (v : Weave) (token : Token) : Option ParseError × Weave :=
  match v.consume token with
  | (.error e, v) => (some e, v.countToken.halt)
  | (.ok (survivors, failures), v) =>
    let v := { v.countToken.countNodes with last := token.position, strands := survivors }
    (none, if survivors.isEmpty then v.reject failures token else v)

def feed (v : Weave) (token : Token) : Option ParseError × Weave :=
  if !v.isRunning then (none, v)
  else if token.isEof then v.finishAt token
  else v.take token

def feedAll (v : Weave) : List Token → Option ParseError × Weave
  | [] => (none, v)
  | token :: tokens =>
    match v.feed token with
    | (some e, v) => (some e, v)
    | (none, v) => v.feedAll tokens

theorem feed_of_stopped {v : Weave} (stopped : v.isRunning = false) (token : Token) :
    v.feed token = (none, v) := by
  simp only [feed, stopped, Bool.not_false, ↓reduceIte]

theorem feed_of_marker {v : Weave} {eof : Token} (runs : v.isRunning = true)
    (marker : eof.isEof = true) : v.feed eof = v.finishAt eof := by
  simp only [feed, runs, marker, Bool.not_true, Bool.false_eq_true, ↓reduceIte]

theorem feed_of_plain {v : Weave} {token : Token} (runs : v.isRunning = true)
    (plain : token.isEof = false) : v.feed token = v.take token := by
  simp only [feed, runs, plain, Bool.not_true, Bool.false_eq_true, ↓reduceIte]

theorem finish_of_running {v : Weave} (runs : v.isRunning = true) :
    v.finish = v.finishAt (.eof (v.last.endPoint.after 1)) :=
  if_pos runs

theorem resolve_fst (v : Weave) (token : Token) :
    (v.resolve token).1 =
      (Phase.resolveStrands ⟨v.grammar, v.limits, .empty v.last.endPoint, token.position⟩
        v.limits.maxExpansions v.strands [] v.metrics.branches v.allocated).outcome := by
  simp only [resolve]
  split
  · next failed => exact failed.symm
  · next ok => exact ok.symm

theorem resolve_snd (v : Weave) (token : Token) :
    ∃ metrics allocated, (v.resolve token).2 = { v with strands := [], metrics, allocated } := by
  simp only [resolve]
  split
  · exact ⟨_, _, rfl⟩
  · exact ⟨_, _, rfl⟩

end Weave

end Lockstep
