import Lockstep.Proofs.Frame
import Lockstep.Proofs.Store.Sound

set_option autoImplicit false

namespace Lockstep.Store

/-- The sequences around `id`, with what was captured of them, innermost first. -/
def frames (s : Store) (id : Nat) : List Frame :=
  match s.nodes[id]? with
  | none => []
  | some n =>
    ⟨n.sequence, s.captures id⟩ ::
      match n.parent? with
      | some parent => if parent < id then s.frames parent else []
      | none => []
termination_by id

def framesAround (s : Store) : Option Nat → List Frame
  | some parent => s.frames parent
  | none => []

theorem frames_of_node {s : Store} {id : Nat} {n : Node} (found : s.nodes[id]? = some n)
    (older : ∀ p, n.parent? = some p → p < id) :
    s.frames id = ⟨n.sequence, s.captures id⟩ :: s.framesAround n.parent? := by
  rw [frames]
  cases h : n.parent? with
  | none => simp only [found, h, framesAround]
  | some p => simp only [found, h, older p h, ↓reduceIte, framesAround]

theorem frames_of_none {s : Store} {id : Nat} (found : s.nodes[id]? = none) :
    s.frames id = [] := by
  rw [frames]
  simp only [found]

theorem lt_size_of_frames {s : Store} {id : Nat} (h : s.frames id ≠ []) : id < s.size := by
  rcases Nat.lt_or_ge id s.size with inside | outside
  · exact inside
  · exact absurd (frames_of_none (Array.getElem?_eq_none outside)) h

theorem trail_eq (s : Store) (id : Nat) : s.trail id = Frame.trail (s.frames id) := by
  induction id using Nat.strongRecOn with
  | ind id ih =>
    rw [trail, frames]
    cases s.nodes[id]? with
    | none => rfl
    | some n =>
      simp only [Frame.trail, List.flatMap_cons]
      cases n.parent? with
      | none => rfl
      | some p =>
        simp only
        split
        · rename_i older
          rw [ih p older, Frame.trail]
        · rfl

section Sound

variable {s : Store} (sound : s.Sound) {id : Nat} {n : Node} (found : s.nodes[id]? = some n)
include sound found

theorem frames_eq : s.frames id = ⟨n.sequence, s.captures id⟩ :: s.framesAround n.parent? :=
  frames_of_node found (sound id n found).parent_lt

theorem next?_eq : (Frame.mk n.sequence (s.captures id)).next? = s.nextPart? id := by
  simp only [Frame.next?, nextPart?, found, Option.bind_some, Node.nextPart?,
    length_captures sound found]

theorem chainOnto_none (carried : List Capture) :
    s.chainOnto id none carried =
      Frame.enclose (n.sequence.build (s.captures id ++ carried)) (s.framesAround n.parent?) := by
  induction id using Nat.strongRecOn generalizing n carried with
  | ind id ih =>
    cases h : n.parent? with
    | none => exact chainOnto_of_last none carried found (.inl h)
    | some p =>
      have older := (sound id n found).parent_lt p h
      obtain ⟨m, foundParent⟩ := exists_node (Nat.lt_trans older (lt_size found))
      rw [chainOnto_of_parent none carried found h older (by simp),
        ih p older foundParent, framesAround, frames_eq sound foundParent]
      rfl

/-- No enclosing sequence has parts left, so climbing from a finished one ends outside them all. -/
theorem climb_of_resume_none (h : n.resume? = none) (c : Capture) :
    Frame.climb c (s.framesAround n.parent?) = none := by
  induction id using Nat.strongRecOn generalizing n c with
  | ind id ih =>
    have node := sound id n found
    cases hp : n.parent? with
    | none => rfl
    | some p =>
      have older := node.parent_lt p hp
      obtain ⟨m, foundParent⟩ := exists_node (Nat.lt_trans older (lt_size found))
      rw [node.resume_eq, hp] at h
      simp only [Option.bind_some, resumeInside, foundParent] at h
      split at h
      · cases h
      · rename_i finishing
        rw [framesAround, frames_eq sound foundParent, Frame.climb_of_finished]
        · exact ih p older foundParent h _
        · rw [Frame.next?_add_eq_none_iff, length_captures sound foundParent]
          simpa only [Node.continues, decide_eq_true_eq, Nat.not_lt] using finishing

/-- Climbing from a finished sequence ends at the frame of the node where matching goes on, with the
capture of the chain up to there. -/
theorem climb_of_resume_some {outer : Nat} (h : n.resume? = some outer) (carried : List Capture) :
    ∃ f fs m, s.frames outer = f :: fs ∧
      (f.add (s.chainOnto id (some outer) carried)).next? = some m ∧
      Frame.climb (n.sequence.build (s.captures id ++ carried)) (s.framesAround n.parent?) =
        some (.next m (f.add (s.chainOnto id (some outer) carried) :: fs)) := by
  induction id using Nat.strongRecOn generalizing n carried with
  | ind id ih =>
    have node := sound id n found
    cases hp : n.parent? with
    | none => rw [node.resume_eq, hp] at h; cases h
    | some p =>
      have older := node.parent_lt p hp
      obtain ⟨m, foundParent⟩ := exists_node (Nat.lt_trans older (lt_size found))
      rw [node.resume_eq, hp] at h
      simp only [Option.bind_some, resumeInside, foundParent] at h
      split at h
      · -- the parent itself has parts left
        rename_i continues
        cases h
        rw [chainOnto_of_last (some outer) carried found (.inr hp)]
        have next : ∃ k, (Frame.add ⟨m.sequence, s.captures outer⟩
            (n.sequence.build (s.captures id ++ carried))).next? = some k := by
          rw [← Option.isSome_iff_exists, ← Option.ne_none_iff_isSome, ne_eq,
            Frame.next?_add_eq_none_iff, length_captures sound foundParent]
          simpa only [Node.continues, decide_eq_true_eq, Nat.not_le] using continues
        obtain ⟨k, next⟩ := next
        exact ⟨_, _, k, frames_eq sound foundParent, next, by
          rw [framesAround, frames_eq sound foundParent, Frame.climb_of_next _ next]⟩
      · -- the parent is finished in turn, and matching goes on further out
        rename_i finishing
        have going : some p ≠ some outer := by
          have := resume_lt sound foundParent h
          simp only [ne_eq, Option.some.injEq]
          omega
        rw [chainOnto_of_parent (some outer) carried found hp older going, framesAround,
          frames_eq sound foundParent, Frame.climb_of_finished]
        · exact ih p older foundParent h _
        · rw [Frame.next?_add_eq_none_iff, length_captures sound foundParent]
          simpa only [Node.continues, decide_eq_true_eq, Nat.not_lt] using finishing

end Sound

theorem chain_none (s : Store) (sound : s.Sound) (id : Nat) :
    s.chain id none = Frame.outermost (s.frames id) := by
  cases found : s.nodes[id]? with
  | none =>
    rw [frames_of_none found, chain, chainOnto.eq_def]
    simp only [found, Frame.outermost]
  | some n =>
    rw [chain, chainOnto_none sound found, frames_eq sound found, List.append_nil]
    rfl

end Lockstep.Store
