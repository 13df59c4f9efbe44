import Lockstep.Store.Reading

set_option autoImplicit false

/-!
Sound stores: those whose links all go to older nodes and whose nodes agree with the nodes that
they were made from. Parsing makes no others. In a sound store the captures at a node are those at
the node that it extends and one more, and there are as many of them as the node counts.
-/

namespace Lockstep.Store

def SlotSound (id : Nat) : Slot → Prop
  | .built _ => True
  | .deferred inner => inner < id

def ProgressSound (s : Store) (id count : Nat) : Progress → Prop
  | .entered => count = 0
  | .extended previous slot =>
    previous < id ∧ SlotSound id slot ∧ ∃ m, s.nodes[previous]? = some m ∧ count = m.count + 1

structure NodeSound (s : Store) (id : Nat) (n : Node) : Prop where
  parent_lt : ∀ p, n.parent? = some p → p < id
  resume_eq : n.resume? = n.parent?.bind s.resumeInside
  progress : s.ProgressSound id n.count n.progress

def Sound (s : Store) : Prop := ∀ id n, s.nodes[id]? = some n → s.NodeSound id n

def slotCapture (s : Store) (previous : Nat) : Slot → Capture
  | .built capture => capture
  | .deferred inner => s.chain inner (some previous)

theorem empty_sound : Sound empty := by
  intro id n found
  simp [empty] at found

theorem exists_node {s : Store} {id : Nat} (inside : id < s.size) :
    ∃ n, s.nodes[id]? = some n := by
  exact ⟨s.nodes[id], Array.getElem?_eq_getElem inside⟩

theorem lt_size {s : Store} {id : Nat} {n : Node} (found : s.nodes[id]? = some n) :
    id < s.size := by
  exact (Array.getElem?_eq_some_iff.mp found).choose

theorem capturesOnto_eq (s : Store) (id : Nat) (later : List Capture) :
    s.capturesOnto id later = s.captures id ++ later := by
  induction id using Nat.strongRecOn generalizing later with
  | ind id ih =>
    unfold captures
    rw [capturesOnto.eq_def s id later, capturesOnto.eq_def s id []]
    cases s.nodes[id]? with
    | none => rfl
    | some n =>
      cases h : n.progress with
      | entered => simp only [h, List.nil_append]
      | extended previous slot =>
        simp only [h]
        split
        · rename_i lt
          rw [ih previous lt, ih previous lt]
          simp only [List.append_assoc, List.singleton_append]
        · rfl

theorem captures_of_entered {s : Store} {id : Nat} {n : Node} (found : s.nodes[id]? = some n)
    (h : n.progress = .entered) : s.captures id = [] := by
  rw [captures, capturesOnto.eq_def]
  simp only [found, h]

theorem captures_of_extended {s : Store} {id previous : Nat} {n : Node} {slot : Slot}
    (found : s.nodes[id]? = some n) (h : n.progress = .extended previous slot)
    (older : previous < id) (sound : SlotSound id slot) :
    s.captures id = s.captures previous ++ [s.slotCapture previous slot] := by
  rw [captures, capturesOnto.eq_def]
  cases slot with
  | built capture => simp only [found, h, older, ↓reduceIte, capturesOnto_eq, slotCapture]
  | deferred inner =>
    have inner_lt : inner < id := sound
    simp only [found, h, older, inner_lt, ↓reduceIte, capturesOnto_eq, slotCapture, chain]

theorem chainOnto_of_parent {s : Store} {id p : Nat} {n : Node} (stop? : Option Nat)
    (carried : List Capture) (found : s.nodes[id]? = some n) (h : n.parent? = some p)
    (older : p < id) (going : some p ≠ stop?) :
    s.chainOnto id stop? carried =
      s.chainOnto p stop? [n.sequence.build (s.captures id ++ carried)] := by
  rw [chainOnto.eq_def]
  simp only [found, h, older, going, ne_eq, not_false_eq_true, and_self, ↓reduceIte,
    capturesOnto_eq]

theorem chainOnto_of_last {s : Store} {id : Nat} {n : Node} (stop? : Option Nat)
    (carried : List Capture) (found : s.nodes[id]? = some n)
    (last : n.parent? = none ∨ n.parent? = stop?) :
    s.chainOnto id stop? carried = n.sequence.build (s.captures id ++ carried) := by
  rw [chainOnto.eq_def]
  cases h : n.parent? with
  | none => simp only [found, h, capturesOnto_eq]
  | some p =>
    have stopped : some p = stop? := by
      rcases last with none | same
      · rw [h] at none; cases none
      · rw [← h, same]
    simp only [found, h, ← stopped, ne_eq, not_true_eq_false, and_false, ↓reduceIte,
      capturesOnto_eq]

theorem length_captures {s : Store} (sound : s.Sound) {id : Nat} {n : Node}
    (found : s.nodes[id]? = some n) : (s.captures id).length = n.count := by
  induction id using Nat.strongRecOn generalizing n with
  | ind id ih =>
    have progress := (sound id n found).progress
    cases h : n.progress with
    | entered =>
      rw [h] at progress
      rw [captures_of_entered found h, List.length_nil]
      exact progress.symm
    | extended previous slot =>
      rw [h] at progress
      obtain ⟨older, slotSound, m, foundPrevious, count⟩ := progress
      rw [captures_of_extended found h older slotSound, List.length_append,
        ih previous older foundPrevious, count]
      rfl

theorem resume_lt {s : Store} (sound : s.Sound) {id r : Nat} {n : Node}
    (found : s.nodes[id]? = some n) (h : n.resume? = some r) : r < id := by
  induction id using Nat.strongRecOn generalizing n with
  | ind id ih =>
    have node := sound id n found
    rw [node.resume_eq] at h
    cases hp : n.parent? with
    | none => rw [hp] at h; cases h
    | some p =>
      have older := node.parent_lt p hp
      simp only [hp, Option.bind_some, resumeInside, Option.bind_eq_some_iff] at h
      obtain ⟨m, foundParent, resumed⟩ := h
      split at resumed
      · cases resumed
        exact older
      · exact Nat.lt_trans (ih p older foundParent resumed) older

end Lockstep.Store
