import Lockstep.Proofs.Simulation.Parser

set_option autoImplicit false

namespace Lockstep

inductive Call where
  | feed (token : Token)
  | finish

structure Observation where
  error? : Option ParseError
  results : List Capture
  diagnostics : List Diagnostic
  running : Bool
  threads : Nat
  metrics : Metrics

namespace Parser

def observe (p : Parser) (error? : Option ParseError) : Observation :=
  ⟨error?, p.results.toList, p.diagnostics, p.isRunning, p.threads.length, p.metrics⟩

def callUnder (due : Parser → Bool) (p : Parser) : Call → Option ParseError × Parser
  | .feed token => p.feedUnder due token
  | .finish => p.finish

/-- What is seen after each call from the one with number `k` on, under a policy of compaction. -/
def observedUnder (due : Nat → Parser → Bool) (k : Nat) (p : Parser) : List Call → List Observation
  | [] => []
  | call :: calls =>
    let (error?, q) := p.callUnder (due k) call
    q.observe error? :: q.observedUnder due (k + 1) calls

def call (p : Parser) : Call → Option ParseError × Parser
  | .feed token => p.feed token
  | .finish => p.finish

def observed (p : Parser) : List Call → List Observation
  | [] => []
  | call :: calls =>
    let (error?, q) := p.call call
    q.observe error? :: q.observed calls

end Parser

namespace Weave

def observe (v : Weave) (error? : Option ParseError) : Observation :=
  ⟨error?, v.results, v.diagnostics, v.isRunning, v.strands.length, v.metrics⟩

def call (v : Weave) : Call → Option ParseError × Weave
  | .feed token => v.feed token
  | .finish => v.finish

def observed (v : Weave) : List Call → List Observation
  | [] => []
  | call :: calls =>
    let (error?, v) := v.call call
    v.observe error? :: v.observed calls

end Weave

namespace Parser

variable {p : Parser}

theorem observe_weave (p : Parser) (error? : Option ParseError) :
    p.observe error? = p.weave.observe error? := by
  simp only [observe, Weave.observe, weave, List.length_map]
  rfl

theorem callUnder_sim (h : p.Sound) (due : Parser → Bool) (call : Call) :
    (p.callUnder due call).2.Sound ∧
      p.weave.call call = ((p.callUnder due call).1, (p.callUnder due call).2.weave) := by
  cases call with
  | feed token => exact feedUnder_sim h due token
  | finish => exact finish_sim h

theorem observedUnder_eq (h : p.Sound) (due : Nat → Parser → Bool) (k : Nat) (calls : List Call) :
    p.observedUnder due k calls = p.weave.observed calls := by
  induction calls generalizing p k with
  | nil => rfl
  | cons call calls ih =>
    obtain ⟨sound, same⟩ := callUnder_sim h (due k) call
    simp only [observedUnder, Weave.observed, same, observe_weave]
    rw [ih sound]

theorem observed_eq_observedUnder (p : Parser) (k : Nat) (calls : List Call) :
    p.observed calls = p.observedUnder (fun _ => isCompactionDue) k calls := by
  induction calls generalizing p k with
  | nil => rfl
  | cons call calls ih =>
    have same : p.call call = p.callUnder isCompactionDue call := by cases call <;> rfl
    simp only [observed, observedUnder, same]
    rw [← ih]

/-- Whenever the store is compacted, the run of a parser from its setup on looks the same after
every call. -/
theorem observedUnder_setup_eq_observed (p : Parser) (pattern : Pattern) (start : Position)
    (due : Nat → Parser → Bool) (calls : List Call) :
    (p.setup pattern start).observedUnder due 0 calls = (p.setup pattern start).observed calls := by
  have sound := (setup_sim p pattern start).1
  rw [observed_eq_observedUnder _ 0, observedUnder_eq sound, observedUnder_eq sound]

end Parser

end Lockstep
