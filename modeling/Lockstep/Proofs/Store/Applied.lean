import Lockstep.Proofs.Store.Sound

set_option autoImplicit false

namespace Lockstep

structure Application where
  sequence : Sequence
  captures : List Capture

namespace Application

def result (a : Application) : Capture := a.sequence.build a.captures

end Application

namespace Store

mutual

def capturesLog (s : Store) (id : Nat) : List Application :=
  match s.nodes[id]? with
  | none => []
  | some n =>
    match n.progress with
    | .entered => []
    | .extended previous slot =>
      let newest := match slot with
        | .built _ => []
        | .deferred inner => if inner < id then s.chainLog inner (some previous) [] else []
      newest ++ if previous < id then s.capturesLog previous else []
termination_by 2 * id

def chainLog (s : Store) (id : Nat) (stop? : Option Nat) (carried : List Capture) :
    List Application :=
  match s.nodes[id]? with
  | none => []
  | some n =>
    let a : Application := ⟨n.sequence, s.capturesOnto id carried⟩
    s.capturesLog id ++ a ::
      match n.parent? with
      | some parent =>
        if parent < id ∧ some parent ≠ stop? then s.chainLog parent stop? [a.result] else []
      | none => []
termination_by 2 * id + 1

end

def slotLog (s : Store) (previous : Nat) : Slot → List Application
  | .built _ => []
  | .deferred inner => s.chainLog inner (some previous) []

def forceLog (s : Store) (id : Nat) : List Application :=
  match s.nodes[id]? with
  | some ⟨_, _, .extended previous slot, _, _⟩ => s.slotLog previous slot
  | _ => []

def forceAllLog (s : Store) : List Nat → List Application
  | [] => []
  | id :: ids => s.forceAllLog ids ++ (s.forceAll ids).forceLog id

section

variable {s : Store} {id p previous : Nat} {n : Node} {slot : Slot}

theorem capturesLog_of_entered (found : s.nodes[id]? = some n) (h : n.progress = .entered) :
    s.capturesLog id = [] := by
  rw [capturesLog.eq_def]
  simp only [found, h]

theorem capturesLog_of_extended (found : s.nodes[id]? = some n)
    (h : n.progress = .extended previous slot) (older : previous < id)
    (sound : SlotSound id slot) :
    s.capturesLog id = s.slotLog previous slot ++ s.capturesLog previous := by
  rw [capturesLog.eq_def]
  cases slot with
  | built capture => simp only [found, h, older, ↓reduceIte, slotLog]
  | deferred inner =>
    have inner_lt : inner < id := sound
    simp only [found, h, older, inner_lt, ↓reduceIte, slotLog]

/-- The application of the sequence at `id` to its captures and what is carried to it. -/
def applied (s : Store) (id : Nat) (n : Node) (carried : List Capture) : Application :=
  ⟨n.sequence, s.captures id ++ carried⟩

theorem chainLog_of_parent (stop? : Option Nat) (carried : List Capture)
    (found : s.nodes[id]? = some n) (h : n.parent? = some p) (older : p < id)
    (going : some p ≠ stop?) :
    s.chainLog id stop? carried =
      s.capturesLog id ++ s.applied id n carried ::
        s.chainLog p stop? [(s.applied id n carried).result] := by
  rw [chainLog.eq_def]
  simp only [found, h, older, going, ne_eq, not_false_eq_true, and_self, ↓reduceIte,
    capturesOnto_eq, applied, Application.result]

theorem chainLog_of_last (stop? : Option Nat) (carried : List Capture)
    (found : s.nodes[id]? = some n) (last : n.parent? = none ∨ n.parent? = stop?) :
    s.chainLog id stop? carried = s.capturesLog id ++ [s.applied id n carried] := by
  rw [chainLog.eq_def]
  cases h : n.parent? with
  | none => simp only [found, h, capturesOnto_eq, applied]
  | some p =>
    have stopped : some p = stop? := by
      rcases last with none | same
      · rw [h] at none; cases none
      · rw [← h, same]
    simp only [found, h, ← stopped, ne_eq, not_true_eq_false, and_false, ↓reduceIte,
      capturesOnto_eq, applied]

/-- What a chain yields is the result of the last application along it. -/
theorem chainOnto_eq_result (sound : s.Sound) (inside : id < s.size) (stop? : Option Nat)
    (carried : List Capture) :
    ∃ a ∈ s.chainLog id stop? carried, s.chainOnto id stop? carried = a.result := by
  induction id using Nat.strongRecOn generalizing carried with
  | ind id ih =>
    obtain ⟨n, found⟩ := exists_node inside
    by_cases going : ∃ p, n.parent? = some p ∧ some p ≠ stop?
    · obtain ⟨p, parent, going⟩ := going
      have older := (sound id n found).parent_lt p parent
      rw [chainLog_of_parent stop? carried found parent older going,
        chainOnto_of_parent stop? carried found parent older going]
      obtain ⟨a, mem, same⟩ := ih p older (Nat.lt_trans older inside) [(s.applied id n carried).result]
      exact ⟨a, List.mem_append_right _ (List.mem_cons_of_mem _ mem), same⟩
    · have last : n.parent? = none ∨ n.parent? = stop? := by
        cases parent : n.parent? with
        | none => exact .inl rfl
        | some p => exact .inr (Decidable.not_not.mp fun differ => going ⟨p, parent, differ⟩)
      rw [chainLog_of_last stop? carried found last, chainOnto_of_last stop? carried found last]
      exact ⟨s.applied id n carried, List.mem_append_right _ List.mem_cons_self, rfl⟩

end

end Store

end Lockstep
