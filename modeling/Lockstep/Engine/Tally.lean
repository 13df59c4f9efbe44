import Lockstep.Engine.Thread

set_option autoImplicit false

namespace Lockstep

structure Failed where
  node : Nat
  cause : Cause

namespace Ready

def refusal? (r : Ready) (token : Token) (last : Position) : Option Cause :=
  (r.guards.reverse.find? fun guard => !guard.test token last).map fun guard =>
    guard.failure token last

end Ready

structure Tally where
  store : Store
  survivors : Array Thread
  failed : Array Failed
  results : Array Capture

namespace Tally

def endOfInput : Cause := .expected "EOF"

def refuse (node : Nat) (refusal? : Option Cause) (failed : Array Failed) : Array Failed :=
  match refusal? with
  | some cause => failed.push ⟨node, cause⟩
  | none => failed

def meet (token : Token) (last : Position) : Tally → Ready → Tally
  | ⟨store, survivors, failed, results⟩, r =>
    let refusal? := r.refusal? token last
    let failed := refuse r.node refusal? failed
    match r.goal with
    | .accepted =>
      if token.isEof then
        if refusal?.isSome then ⟨store, survivors, failed, results⟩
        else
          let result := store.chain r.node none
          ⟨store, survivors, failed, results.push result⟩
      else ⟨store, survivors, failed.push ⟨r.node, endOfInput⟩, results⟩
    | .token spec =>
      if spec.accepts token then
        if refusal?.isSome then ⟨store, survivors, failed, results⟩
        else
          let (step, fresh, store) := (store.forceAll r.fresh).advance r.node (.token token) []
          ⟨store, survivors.push ⟨step, [], fresh⟩, failed, results⟩
      else ⟨store, survivors, failed.push ⟨r.node, .expected spec.render⟩, results⟩

/-- The thread `r`, which took the end marker `eof`, has to be accepted now. -/
def close (eof : Token) (last : Position) : Tally → Ready → Tally
  | ⟨store, survivors, failed, results⟩, r =>
    let refusal? := r.refusal? eof last
    let failed := refuse r.node refusal? failed
    match r.goal with
    | .accepted =>
      if refusal?.isSome then ⟨store, survivors, failed, results⟩
      else
        let result := store.chain r.node none
        ⟨store, survivors, failed, results.push result⟩
    | .token spec => ⟨store, survivors, failed.push ⟨r.node, .expected spec.render⟩, results⟩

end Tally

end Lockstep
