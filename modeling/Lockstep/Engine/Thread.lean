import Lockstep.Matcher.Cache
import Lockstep.Store.Reading

set_option autoImplicit false

namespace Lockstep

inductive Step where
  | next (matcher : Matcher) (node : Nat)
  /-- The sequence at `node` is finished, and so are all around it. -/
  | done (node : Nat)

structure Thread where
  step : Step
  /-- The guards met since the last token, the latest first. -/
  guards : List Predicate
  /-- The nodes with slots deferred since the last token, the latest first. -/
  fresh : List Nat

inductive Goal where
  | token (spec : Spec)
  /-- The end of the input. -/
  | accepted

structure Ready where
  goal : Goal
  node : Nat
  guards : List Predicate
  fresh : List Nat

namespace Store

def stepAt (s : Store) (node : Nat) : Step :=
  match s.nextPart? node with
  | some matcher => .next matcher node
  | none => .done node

/-- The step after `node` was made. When its sequence is finished, the nearest enclosing one with
parts left is extended by it. -/
def settle (s : Store) (node : Nat) (fresh : List Nat) : Step × List Nat × Store :=
  match s.nextPart? node with
  | some matcher => (.next matcher node, fresh, s)
  | none =>
    match s.resume? node with
    | none => (.done node, fresh, s)
    | some outer =>
      let (resumed, s) := s.addFinished outer node
      (s.stepAt resumed, resumed :: fresh, s)

def advance (s : Store) (node : Nat) (capture : Capture) (fresh : List Nat) :
    Step × List Nat × Store :=
  let (node, s) := s.addCapture node capture
  s.settle node fresh

end Store

inductive Expansion where
  | ready (r : Ready)
  | moved (t : Thread)
  | split (ts : List Thread)
  | unknown (name : String)

namespace Thread

/-- One step of a thread. `marker` is captured where nothing is matched. -/
def expand (g : Grammar) (marker : Capture) (t : Thread) (s : Store) : Expansion × Store :=
  match t.step with
  | .done node => (.ready ⟨.accepted, node, t.guards, t.fresh⟩, s)
  | .next matcher node =>
    let guards := matcher.guards.reverse ++ t.guards
    match matcher with
    | .token spec _ => (.ready ⟨.token spec, node, guards, t.fresh⟩, s)
    | .nothing _ =>
      let (step, fresh, s) := s.advance node marker t.fresh
      (.moved ⟨step, guards, fresh⟩, s)
    | .sequence name? parts build _ =>
      let (child, s) := s.enter (some node) ⟨name?, parts, build⟩
      let (step, fresh, s) := s.settle child t.fresh
      (.moved ⟨step, guards, fresh⟩, s)
    | .branch options _ => (.split (options.map fun option => ⟨.next option node, guards, t.fresh⟩), s)
    | deferred =>
      match g.unfold deferred with
      | .ok matcher => (.moved ⟨.next matcher node, guards, t.fresh⟩, s)
      | .error name => (.unknown name, s)

def expandCached {g : Grammar} (cache : RuleCache g) (marker : Capture) (t : Thread) (s : Store) :
    (Expansion × Store) × RuleCache g :=
  match t.step with
  | .next (.rule name guards) node =>
    match cache.find name with
    | (some matcher, cache) =>
      ((.moved ⟨.next matcher node, guards.reverse ++ t.guards, t.fresh⟩, s), cache)
    | (none, cache) => ((.unknown name, s), cache)
  | _ => (t.expand g marker s, cache)

theorem expandCached_fst {g : Grammar} (cache : RuleCache g) (marker : Capture) (t : Thread)
    (s : Store) : (t.expandCached cache marker s).1 = t.expand g marker s := by
  obtain ⟨step, guards, fresh⟩ := t
  unfold expandCached
  split
  · next name guards' node same =>
    cases same
    have found := cache.find_fst name
    generalize cache.find name = r at found
    obtain ⟨matcher?, cache'⟩ := r
    simp only at found
    subst found
    cases known : g.lookup? name with
    | some pattern => simp only [expand, Matcher.guards, Grammar.unfold, known, Option.map_some]
    | none => simp only [expand, Grammar.unfold, known, Option.map_none]
  · rfl

end Thread

end Lockstep
