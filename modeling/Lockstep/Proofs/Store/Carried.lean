import Lockstep.Proofs.Store.Frames

set_option autoImplicit false

/-!
One store carried over into another. The nodes that matter are put in other places, in the same
order, their links follow them, and a deferred slot may be replaced by the capture that it yields.
Whatever is read at a node before is read at its new place afterwards. Growing a store, forcing its
slots and compacting it are all of this kind.
-/

namespace Lockstep

section Carried

variable (s : Store) (live : Nat → Prop) (place : Nat → Nat)

inductive Slot.Carried (previous : Nat) : Slot → Slot → Prop where
  | built (capture : Capture) : Slot.Carried previous (.built capture) (.built capture)
  | deferred {inner : Nat} (alive : live inner) :
    Slot.Carried previous (.deferred inner) (.deferred (place inner))
  | forced (inner : Nat) :
    Slot.Carried previous (.deferred inner) (.built (s.chain inner (some previous)))

inductive Progress.Carried : Progress → Progress → Prop where
  | entered : Progress.Carried .entered .entered
  | extended {previous : Nat} {slot slot' : Slot} (alive : live previous)
      (carried : slot.Carried s live place previous slot') :
    Progress.Carried (.extended previous slot) (.extended (place previous) slot')

structure Node.Carried (n n' : Node) : Prop where
  parent_live : ∀ p, n.parent? = some p → live p
  parent_eq : n'.parent? = n.parent?.map place
  resume_eq : n'.resume? = n.resume?.map place
  sequence_eq : n'.sequence = n.sequence
  count_eq : n'.count = n.count
  progress : n.progress.Carried s live place n'.progress

/-- The nodes for which `live` holds are in `s'` at the places that `place` gives. -/
structure Store.Carried (s' : Store) : Prop where
  place_lt : ∀ a b, live a → live b → a < b → place a < place b
  node : ∀ id, live id →
    ∃ n n', s.nodes[id]? = some n ∧ s'.nodes[place id]? = some n' ∧ n.Carried s live place n'

end Carried

namespace Store.Carried

variable {s s' : Store} {live : Nat → Prop} {place : Nat → Nat}

theorem place_ne (h : s.Carried live place s') {a b : Nat} (ha : live a) (hb : live b)
    (differ : a ≠ b) : place a ≠ place b := by
  rcases Nat.lt_or_gt_of_ne differ with lt | gt
  · exact Nat.ne_of_lt (h.place_lt a b ha hb lt)
  · exact Nat.ne_of_gt (h.place_lt b a hb ha gt)

/-- Whether a chain has to go on at the parent is not changed by moving both it and the stop. -/
theorem going_iff (h : s.Carried live place s') {p : Nat} {stop? : Option Nat} (hp : live p)
    (hs : ∀ stop, stop? = some stop → live stop) :
    some (place p) ≠ stop?.map place ↔ some p ≠ stop? := by
  cases stop? with
  | none => simp only [Option.map_none, ne_eq, reduceCtorEq, not_false_eq_true]
  | some stop =>
    simp only [Option.map_some, ne_eq, Option.some.injEq]
    constructor
    · intro differ same
      exact differ (congrArg place same)
    · intro differ same
      exact h.place_ne hp (hs stop rfl) differ same

theorem slotCapture_eq (h : s.Carried live place s') {id previous : Nat} {slot slot' : Slot}
    (slotSound : SlotSound id slot) (aliveId : live id) (alive : live previous)
    (carried : slot.Carried s live place previous slot')
    (chains : ∀ inner < id, live inner → ∀ stop? later,
      (∀ stop, stop? = some stop → live stop) →
      s'.chainOnto (place inner) (stop?.map place) later = s.chainOnto inner stop? later) :
    SlotSound (place id) slot' ∧ s'.slotCapture (place previous) slot' =
      s.slotCapture previous slot := by
  cases carried with
  | built capture => exact ⟨trivial, rfl⟩
  | forced inner => exact ⟨trivial, rfl⟩
  | @deferred inner aliveInner =>
    refine ⟨h.place_lt inner id aliveInner aliveId slotSound, ?_⟩
    apply chains inner slotSound aliveInner (some previous) []
    intro stop same
    cases same
    exact alive

theorem reading_eq (sound : s.Sound) (h : s.Carried live place s') {id : Nat} (alive : live id) :
    s'.captures (place id) = s.captures id ∧
      ∀ stop? later, (∀ stop, stop? = some stop → live stop) →
        s'.chainOnto (place id) (stop?.map place) later = s.chainOnto id stop? later := by
  induction id using Nat.strongRecOn with
  | ind id ih =>
    obtain ⟨n, n', found, found', node⟩ := h.node id alive
    have nodeSound := sound id n found
    have captures_eq : s'.captures (place id) = s.captures id := by
      have progress := node.progress
      have progressSound := nodeSound.progress
      cases hp : n.progress with
      | entered =>
        rw [hp] at progress
        generalize hq : n'.progress = progress' at progress
        cases progress with
        | entered => rw [captures_of_entered found hp, captures_of_entered found' hq]
      | extended previous slot =>
        rw [hp] at progress progressSound
        obtain ⟨older, slotSound, -⟩ := progressSound
        generalize hq : n'.progress = progress' at progress
        cases progress with
        | extended alivePrevious carried =>
          obtain ⟨slotSound', same⟩ := h.slotCapture_eq slotSound alive alivePrevious carried
            fun inner older aliveInner => (ih inner older aliveInner).2
          rw [captures_of_extended found hp older slotSound,
            captures_of_extended found' hq (h.place_lt previous id alivePrevious alive older)
              slotSound', same, (ih previous older alivePrevious).1]
    refine ⟨captures_eq, ?_⟩
    intro stop? later aliveStop
    cases hp : n.parent? with
    | none =>
      have none' : n'.parent? = none := by rw [node.parent_eq, hp]; rfl
      rw [chainOnto_of_last stop? later found (.inl hp),
        chainOnto_of_last (stop?.map place) later found' (.inl none'), captures_eq,
        node.sequence_eq]
    | some p =>
      have some' : n'.parent? = some (place p) := by rw [node.parent_eq, hp]; rfl
      have aliveParent := node.parent_live p hp
      have older := nodeSound.parent_lt p hp
      by_cases going : some p ≠ stop?
      · rw [chainOnto_of_parent stop? later found hp older going,
          chainOnto_of_parent (stop?.map place) later found' some'
            (h.place_lt p id aliveParent alive older) ((h.going_iff aliveParent aliveStop).2 going),
          captures_eq, node.sequence_eq]
        exact (ih p older aliveParent).2 stop? _ aliveStop
      · have stopped : some p = stop? := Decidable.not_not.mp going
        rw [chainOnto_of_last stop? later found (.inr (hp.trans stopped)),
          chainOnto_of_last (stop?.map place) later found'
            (.inr (by rw [some', ← stopped]; rfl)), captures_eq, node.sequence_eq]

theorem parent_lt (sound : s.Sound) (h : s.Carried live place s') {id : Nat} {n n' : Node}
    (alive : live id) (found : s.nodes[id]? = some n) (node : n.Carried s live place n') :
    ∀ p, n'.parent? = some p → p < place id := by
  intro p same
  rw [node.parent_eq, Option.map_eq_some_iff] at same
  obtain ⟨q, hq, rfl⟩ := same
  exact h.place_lt q id (node.parent_live q hq) alive ((sound id n found).parent_lt q hq)

theorem frames_eq (sound : s.Sound) (h : s.Carried live place s') {id : Nat} (alive : live id) :
    s'.frames (place id) = s.frames id := by
  induction id using Nat.strongRecOn with
  | ind id ih =>
    obtain ⟨n, n', found, found', node⟩ := h.node id alive
    rw [frames_of_node found' (h.parent_lt sound alive found node), Store.frames_eq sound found,
      (h.reading_eq sound alive).1, node.sequence_eq, node.parent_eq]
    cases hp : n.parent? with
    | none => rfl
    | some p =>
      simp only [Option.map_some, framesAround]
      rw [ih p ((sound id n found).parent_lt p hp) (node.parent_live p hp)]

theorem resumeInside_eq (h : s.Carried live place s') {p : Nat} (alive : live p) :
    s'.resumeInside (place p) = (s.resumeInside p).map place := by
  obtain ⟨n, n', found, found', node⟩ := h.node p alive
  simp only [resumeInside, found, found', Option.bind_some, Node.continues, node.sequence_eq,
    node.count_eq, node.resume_eq]
  by_cases continues : n.count + 1 < n.sequence.parts.length
  · simp only [continues, decide_true, ↓reduceIte, Option.map_some]
  · simp only [continues, decide_false, Bool.false_eq_true, ↓reduceIte]

theorem nodeSound (sound : s.Sound) (h : s.Carried live place s') {id : Nat} {n n' : Node}
    (alive : live id) (found : s.nodes[id]? = some n) (node : n.Carried s live place n') :
    s'.NodeSound (place id) n' := by
  have nodeSound := sound id n found
  refine ⟨h.parent_lt sound alive found node, ?_, ?_⟩
  · rw [node.resume_eq, node.parent_eq, nodeSound.resume_eq]
    cases hp : n.parent? with
    | none => rfl
    | some p =>
      simp only [Option.map_some, Option.bind_some]
      rw [h.resumeInside_eq (node.parent_live p hp)]
  · have progress := node.progress
    have progressSound := nodeSound.progress
    cases hp : n.progress with
    | entered =>
      rw [hp] at progress progressSound
      generalize n'.progress = progress' at progress
      cases progress with
      | entered => rw [node.count_eq]; exact progressSound
    | extended previous slot =>
      rw [hp] at progress progressSound
      obtain ⟨older, slotSound, m, foundPrevious, count⟩ := progressSound
      generalize n'.progress = progress' at progress
      cases progress with
      | extended alivePrevious carried =>
        obtain ⟨slotSound', -⟩ := h.slotCapture_eq slotSound alive alivePrevious carried
          fun inner _ aliveInner => (h.reading_eq sound aliveInner).2
        obtain ⟨k, k', foundK, foundK', nodeK⟩ := h.node previous alivePrevious
        rw [foundPrevious] at foundK
        cases foundK
        refine ⟨h.place_lt previous id alivePrevious alive older, slotSound', k', foundK', ?_⟩
        rw [node.count_eq, nodeK.count_eq, count]

end Store.Carried

end Lockstep
