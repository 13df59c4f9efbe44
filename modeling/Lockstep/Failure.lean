import Lockstep.Diagnostic
import Lockstep.Token.Basic

set_option autoImplicit false

/-!
Failures of single derivations, and how they are reported. A failure carries its trail: the names
of the sequences around it, innermost first. Failures at one token are grouped by trail; the outer
names that all trails share say nothing and are left out.
-/

namespace Lockstep

inductive Cause where
  | expected (what : String)
  /-- A predicate refused the token; holds the whole message. -/
  | refused (message : String)
  deriving DecidableEq, Repr

namespace Cause

def expected? : Cause → Option String
  | .expected what => some what
  | .refused _ => none

def refused? : Cause → Option String
  | .expected _ => none
  | .refused message => some message

end Cause

/-- Names of enclosing sequences, innermost first. -/
abbrev Trail := List String

namespace Trail

def render (t : Trail) : String := ".".intercalate t.reverse

def commonFront : List String → List String → Nat
  | x :: xs, y :: ys => if x = y then commonFront xs ys + 1 else 0
  | _, _ => 0

/-- How many outermost names `t` and `u` share, an innermost name not counted. -/
def sharedWith (t u : Trail) : Nat :=
  min (commonFront t.reverse u.reverse) (min t.length u.length - 1)

/-- How many outermost names all trails share, each keeping at least its innermost name. -/
def shared : List Trail → Nat
  | [] => 0
  | t :: ts => ts.foldl (fun n u => min n (t.sharedWith u)) (t.length - 1)

def dropOuter (n : Nat) (t : Trail) : Trail := t.take (t.length - n)

end Trail

structure Failure where
  trail : Trail
  cause : Cause
  deriving DecidableEq, Repr

namespace Failure

def expectation (token : Token) : List String → Option String
  | [] => none
  | [only] => some ("Expected " ++ only ++ ", got " ++ token.render)
  | many => some ("Expected one of \x7b" ++ ", ".intercalate many ++ "\x7d, got " ++ token.render)

/-- The messages for the causes met on one trail: one for all that was expected, then one for each
refusal. -/
def groupMessages (token : Token) (causes : List Cause) : List String :=
  (expectation token (causes.filterMap Cause.expected?).eraseDups).toList ++
    (causes.filterMap Cause.refused?).eraseDups

def context (several : Bool) (trail : Trail) : String :=
  if several && !trail.isEmpty then " (in parse as " ++ trail.render ++ ")" else ""

/-- The diagnostics for all failures at `token`, group by group in the order of first sight. -/
def report (failures : List Failure) (token : Token) : List Diagnostic :=
  let outer := Trail.shared (failures.map trail)
  let causes := failures.map fun f => (f.trail.dropOuter outer, f.cause)
  let trails := (causes.map Prod.fst).eraseDups
  trails.flatMap fun trail =>
    let group := (causes.filter fun c => c.1 == trail).map Prod.snd
    (groupMessages token group).map fun message =>
      ⟨token.position, message ++ context (trails.length > 1) trail⟩

end Failure

end Lockstep
