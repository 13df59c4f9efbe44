import Lockstep.Store.Reading
import Lockstep.Store.Compaction

set_option autoImplicit false

namespace Lockstep

namespace Store

inductive Command where
  | enter (parent? : Option Nat) (sequence : Sequence)
  | addCapture (id : Nat) (capture : Capture)
  | addFinished (id inner : Nat)
  | force (id : Nat)
  | captures (id : Nat)
  | chain (id : Nat) (stop? : Option Nat)
  | complete (id : Nat)
  | trail (id : Nat)
  | inspect (id : Nat)
  | compact (roots : List Nat)
  | clear
  | count

structure Summary where
  next? : Option Matcher
  resume? : Option Nat
  parent? : Option Nat

inductive Reply where
  | node (id : Nat)
  | done
  | captures (captures : List Capture)
  | capture (capture : Capture)
  | completed (parent? : Option Nat) (capture : Capture)
  | trail (names : Trail)
  | summary (summary : Summary)
  | compacted (roots : List Nat) (size : Nat)
  | counted (size allocated : Nat)

namespace Command

/-- The places that have to hold nodes. A stop is only compared with, and an inner sequence is
looked at when its slot is read. -/
def uses : Command → List Nat
  | .enter parent? _ => parent?.toList
  | .addCapture id _ => [id]
  | .addFinished id _ => [id]
  | .force id => [id]
  | .captures id => [id]
  | .chain id _ => [id]
  | .complete id => [id]
  | .trail id => [id]
  | .inspect id => [id]
  | .compact roots => roots
  | .clear => []
  | .count => []

end Command

def perform? (s : Store) : Command → Option (Reply × Store)
  | .enter parent? sequence =>
    let (id, s) := s.enter parent? sequence
    some (.node id, s)
  | .addCapture id capture =>
    let (id, s) := s.addCapture id capture
    some (.node id, s)
  | .addFinished id inner =>
    let (id, s) := s.addFinished id inner
    some (.node id, s)
  | .force id => (s.buildAll? [id]).map fun s => (.done, s)
  | .captures id => (s.buildAll? (s.deferredAt id)).map fun s => (.captures (s.captures id), s)
  | .chain id stop? =>
    (s.buildAll? (s.deferredAlong id stop?)).map fun s => (.capture (s.chain id stop?), s)
  | .complete id =>
    (s.buildAll? (s.deferredAt id)).map fun s =>
      let (parent?, capture) := s.complete id
      (.completed parent? capture, s)
  | .trail id => some (.trail (s.trail id), s)
  | .inspect id => some (.summary ⟨s.nextPart? id, s.resume? id, s.parent? id⟩, s)
  | .compact roots =>
    if s.isIntact roots then
      let (s, place) := s.compact roots
      some (.compacted (roots.map place) s.size, s)
    else none
  | .clear => some (.counted 0 0, empty)
  | .count => some (.counted s.size s.allocated, s)

def run? (s : Store) (c : Command) : Option (Reply × Store) :=
  if c.uses.all (· < s.size) then s.perform? c else none

end Store

end Lockstep
