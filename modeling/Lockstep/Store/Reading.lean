import Lockstep.Store.Basic

set_option autoImplicit false

/-!
Reading captures off the store. A deferred slot yields the capture of the chain that starts at its
inner sequence: each sequence of the chain is combined and handed to the one around it as its last
part, up to the node that the slot extends.

`captures` and `chain` say what is read where every slot goes to an older node; a slot that does not
is not followed. `build?` puts the captures in the place of slots, first those of the slots that a
slot reads, so each is built once and later nodes count as well.
-/

namespace Lockstep.Store

mutual

def capturesOnto (s : Store) (id : Nat) (later : List Capture) : List Capture :=
  match s.nodes[id]? with
  | none => later
  | some n =>
    match n.progress with
    | .entered => later
    | .extended previous slot =>
      let capture := match slot with
        | .built capture => capture
        | .deferred inner =>
          if inner < id then s.chainOnto inner (some previous) [] else Combiner.fallback []
      if previous < id then s.capturesOnto previous (capture :: later) else capture :: later
termination_by 2 * id

/-- Combines the sequence at `id`, its last part being `carried` when there is one, and the
enclosing sequences one by one, up to those inside `stop?`. -/
def chainOnto (s : Store) (id : Nat) (stop? : Option Nat) (carried : List Capture) : Capture :=
  match s.nodes[id]? with
  | none => Combiner.fallback carried
  | some n =>
    let capture := n.sequence.build (s.capturesOnto id carried)
    match n.parent? with
    | some parent =>
      if parent < id ∧ some parent ≠ stop? then s.chainOnto parent stop? [capture] else capture
    | none => capture
termination_by 2 * id + 1

end

def captures (s : Store) (id : Nat) : List Capture := s.capturesOnto id []

/-- The capture of the finished sequence `id` and of the sequences that it finishes in turn, up to
those inside `stop?`; without a stop, of the outermost one. -/
def chain (s : Store) (id : Nat) (stop? : Option Nat) : Capture := s.chainOnto id stop? []

/-- The capture of the sequence at `id`, and the node inside which it was entered. -/
def complete (s : Store) (id : Nat) : Option Nat × Capture :=
  match s.nodes[id]? with
  | some n => (n.parent?, n.sequence.build (s.captures id))
  | none => (none, Combiner.fallback [])

def force (s : Store) (id : Nat) : Store :=
  match s.nodes[id]? with
  | some ⟨parent?, sequence, .extended previous (.deferred inner), count, resume?⟩ =>
    let capture := s.chain inner (some previous)
    let node : Node := ⟨parent?, sequence, .extended previous (.built capture), count, resume?⟩
    { s with nodes := s.nodes.setIfInBounds id node }
  | _ => s

def forceAll (s : Store) (ids : List Nat) : Store := ids.foldr (fun id s => s.force id) s

def deferredAt (s : Store) (id : Nat) : List Nat :=
  match s.nodes[id]? with
  | none => []
  | some n =>
    match n.progress with
    | .entered => []
    | .extended previous slot =>
      let earlier := if previous < id then s.deferredAt previous else []
      match slot with
      | .built _ => earlier
      | .deferred _ => id :: earlier
termination_by id

def deferredAlong (s : Store) (id : Nat) (stop? : Option Nat) : List Nat :=
  match s.nodes[id]? with
  | none => []
  | some n =>
    s.deferredAt id ++
      match n.parent? with
      | some parent =>
        if parent < id ∧ some parent ≠ stop? then s.deferredAlong parent stop? else []
      | none => []
termination_by id

/-- Builds the slot at `id`, before it those that it reads, and so on down to `depth` slots that
read one another. Fails on a slot whose inner sequence is not in the store. -/
def build? : (depth : Nat) → (s : Store) → (id : Nat) → Option Store
  | 0, _, _ => none
  | depth + 1, s, id =>
    match s.nodes[id]? with
    | some ⟨_, _, .extended previous (.deferred inner), _, _⟩ =>
      if inner < s.size then
        ((s.deferredAlong inner (some previous)).foldlM (build? depth) s).map (force · id)
      else none
    | _ => some s

/-- Builds the slots at all of `ids` and those that they read. More slots than there are nodes
read one another only where one reads itself, which has no capture. -/
def buildAll? (s : Store) (ids : List Nat) : Option Store := ids.foldlM (build? (s.size + 1)) s

end Lockstep.Store
