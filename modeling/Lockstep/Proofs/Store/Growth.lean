import Lockstep.Engine.Thread
import Lockstep.Proofs.Store.Carried

set_option autoImplicit false

namespace Lockstep

namespace Store

/-- `s'` holds all that can be read in `s`, and in the same places. -/
structure Follows (s s' : Store) : Prop where
  sound : s'.Sound
  size_le : s.size ≤ s'.size
  frames_eq : ∀ id, id < s.size → s'.frames id = s.frames id

theorem Follows.refl {s : Store} (sound : s.Sound) : s.Follows s :=
  ⟨sound, Nat.le_refl _, fun _ _ => rfl⟩

theorem Follows.trans {s t u : Store} (h : s.Follows t) (k : t.Follows u) : s.Follows u := by
  refine ⟨k.sound, Nat.le_trans h.size_le k.size_le, ?_⟩
  intro id inside
  rw [k.frames_eq id (Nat.lt_of_lt_of_le inside h.size_le), h.frames_eq id inside]

theorem Follows.framesAround_eq {s s' : Store} (h : s.Follows s') {parent? : Option Nat}
    (inside : ∀ p, parent? = some p → p < s.size) :
    s'.framesAround parent? = s.framesAround parent? := by
  cases parent? with
  | none => rfl
  | some p => exact h.frames_eq p (inside p rfl)

section Sound

variable {s : Store} (sound : s.Sound) {id : Nat} {n : Node} (found : s.nodes[id]? = some n)
include sound found

theorem parent_lt_size : ∀ p, n.parent? = some p → p < s.size := by
  intro p same
  exact Nat.lt_trans ((sound id n found).parent_lt p same) (lt_size found)

theorem carried_self : n.Carried s (· < s.size) (fun i => i) n := by
  have inside := lt_size found
  have progress := (sound id n found).progress
  refine ⟨parent_lt_size sound found, ?_, ?_, rfl, rfl, ?_⟩
  · cases n.parent? <;> rfl
  · cases n.resume? <;> rfl
  · cases h : n.progress with
    | entered => exact .entered
    | extended previous slot =>
      rw [h] at progress
      obtain ⟨older, slotSound, -⟩ := progress
      refine .extended (Nat.lt_trans older inside) ?_
      cases slot with
      | built capture => exact .built capture
      | deferred inner =>
        have older : inner < id := slotSound
        exact .deferred (Nat.lt_trans older inside)

theorem nextPart?_of_frames {f : Frame} {fs : List Frame} (h : s.frames id = f :: fs) :
    s.nextPart? id = f.next? := by
  rw [frames_eq sound found] at h
  rw [← next?_eq sound found, (List.cons.inj h).1]

end Sound

section Push

variable {s : Store} (sound : s.Sound)
include sound

theorem push_carried (n : Node) : s.Carried (· < s.size) (fun i => i) (s.push n).2 := by
  refine ⟨fun _ _ _ _ lt => lt, ?_⟩
  intro id inside
  obtain ⟨m, found⟩ := exists_node inside
  refine ⟨m, m, found, ?_, carried_self sound found⟩
  rw [push, Array.getElem?_push_lt inside, ← found, Array.getElem?_eq_getElem inside]

theorem push_follows {n : Node} (fresh : (s.push n).2.NodeSound s.size n) :
    s.Follows (s.push n).2 := by
  have carried := push_carried sound n
  refine ⟨?_, ?_, fun id inside => carried.frames_eq sound inside⟩
  · intro id m found
    rcases Nat.lt_or_ge id s.size with inside | outside
    · obtain ⟨k, k', foundK, foundK', node⟩ := carried.node id inside
      have same : m = k' := Option.some.inj (found.symm.trans foundK')
      rw [same]
      exact carried.nodeSound sound inside foundK node
    · have bound := lt_size found
      simp only [push, size, Array.size_push] at bound outside
      have last : id = s.nodes.size := by omega
      subst last
      simp only [push, Array.getElem?_push_size, Option.some.injEq] at found
      exact found ▸ fresh
  · simp only [push, size, Array.size_push]
    omega

theorem push_resumeInside (n : Node) {p : Nat} (inside : p < s.size) :
    (s.push n).2.resumeInside p = s.resumeInside p := by
  rw [(push_carried sound n).resumeInside_eq inside]
  cases s.resumeInside p <;> rfl

theorem push_resume (n : Node) {parent? : Option Nat}
    (inside : ∀ p, parent? = some p → p < s.size) :
    parent?.bind (s.push n).2.resumeInside = parent?.bind s.resumeInside := by
  cases parent? with
  | none => rfl
  | some p => exact push_resumeInside sound n (inside p rfl)

theorem enter_follows {parent? : Option Nat} (sequence : Sequence)
    (inside : ∀ p, parent? = some p → p < s.size) : s.Follows (s.enter parent? sequence).2 := by
  apply push_follows sound
  exact ⟨inside, (push_resume sound _ inside).symm, rfl⟩

theorem frames_enter {parent? : Option Nat} (sequence : Sequence)
    (inside : ∀ p, parent? = some p → p < s.size) :
    (s.enter parent? sequence).2.frames s.size = ⟨sequence, []⟩ :: s.framesAround parent? := by
  have follows := enter_follows sound sequence inside
  have found : (s.enter parent? sequence).2.nodes[s.size]? =
      some ⟨parent?, sequence, .entered, 0, parent?.bind s.resumeInside⟩ := by
    simp only [enter, push, size, Array.getElem?_push_size]
  rw [frames_eq follows.sound found, captures_of_entered found rfl, follows.framesAround_eq inside]

def extension (id : Nat) (n : Node) (slot : Slot) : Node :=
  ⟨n.parent?, n.sequence, .extended id slot, n.count + 1, n.resume?⟩

omit sound in
theorem extend_eq {id : Nat} {n : Node} (found : s.nodes[id]? = some n) (slot : Slot) :
    s.extend id slot = s.push (extension id n slot) := by
  simp only [extend, found, extension]

omit sound in
theorem extend_fst {id : Nat} {n : Node} (found : s.nodes[id]? = some n) (slot : Slot) :
    (s.extend id slot).1 = s.size := by
  rw [extend_eq found]
  rfl

omit sound in
theorem size_extend {id : Nat} {n : Node} (found : s.nodes[id]? = some n) (slot : Slot) :
    (s.extend id slot).2.size = s.size + 1 := by
  rw [extend_eq found]
  exact Array.size_push _

omit sound in
theorem allocated_extend {id : Nat} {n : Node} (found : s.nodes[id]? = some n) (slot : Slot) :
    (s.extend id slot).2.allocated = s.allocated + 1 := by
  rw [extend_eq found]
  rfl

theorem extend_follows {id : Nat} {n : Node} (found : s.nodes[id]? = some n) (slot : Slot)
    (slotSound : SlotSound s.size slot) : s.Follows (s.extend id slot).2 := by
  have inside := lt_size found
  have parentInside := parent_lt_size sound found
  rw [extend_eq found]
  apply push_follows sound
  refine ⟨parentInside, ?_, inside, slotSound, n, ?_, rfl⟩
  · exact (sound id n found).resume_eq.trans
      (push_resume sound _ parentInside).symm
  · rw [push, Array.getElem?_push_lt inside, ← found, Array.getElem?_eq_getElem inside]

theorem frames_extend {id : Nat} {n : Node} (found : s.nodes[id]? = some n) (slot : Slot)
    (slotSound : SlotSound s.size slot) :
    (s.extend id slot).2.frames s.size =
      (Frame.mk n.sequence (s.captures id)).add (s.slotCapture id slot) ::
        s.framesAround n.parent? := by
  have inside := lt_size found
  have parentInside := parent_lt_size sound found
  have follows := extend_follows sound found slot slotSound
  have carried := push_carried sound (extension id n slot)
  rw [extend_eq found] at follows ⊢
  have foundNew : (s.push (extension id n slot)).2.nodes[s.size]? =
      some (extension id n slot) := by
    simp only [push, size, Array.getElem?_push_size]
  have same : (s.push (extension id n slot)).2.slotCapture id slot = s.slotCapture id slot := by
    cases slot with
    | built capture => rfl
    | deferred inner =>
      have chains := (carried.reading_eq sound slotSound).2 (some id) []
      exact chains fun stop eq => by cases eq; exact inside
  rw [frames_eq follows.sound foundNew, captures_of_extended foundNew rfl inside slotSound, same,
    (carried.reading_eq sound inside).1]
  exact congrArg (List.cons _) (follows.framesAround_eq parentInside)

end Push

theorem carried_refl {s : Store} (sound : s.Sound) : s.Carried (· < s.size) (fun i => i) s := by
  refine ⟨fun _ _ _ _ lt => lt, ?_⟩
  intro id inside
  obtain ⟨n, found⟩ := exists_node inside
  exact ⟨n, n, found, found, carried_self sound found⟩

theorem size_force (s : Store) (id : Nat) : (s.force id).size = s.size := by
  unfold force
  split
  · simp only [size, Array.size_setIfInBounds]
  · rfl

theorem force_node_of_ne (s : Store) {id i : Nat} (differ : i ≠ id) :
    (s.force id).nodes[i]? = s.nodes[i]? := by
  unfold force
  split
  · exact Array.getElem?_setIfInBounds_ne fun same => differ same.symm
  · rfl

theorem force_carried {s : Store} (sound : s.Sound) (id : Nat) :
    s.Carried (· < s.size) (fun i => i) (s.force id) := by
  unfold force
  split
  · rename_i parent? sequence previous inner count resume? found
    have inside := lt_size found
    obtain ⟨older, -, m, foundPrevious, -⟩ := (sound id _ found).progress
    let node : Node := ⟨parent?, sequence, .extended previous (.built (s.chain inner (some previous))),
      count, resume?⟩
    refine ⟨fun _ _ _ _ lt => lt, ?_⟩
    intro i insideI
    by_cases same : i = id
    · subst same
      have self := carried_self sound found
      refine ⟨_, node, found, Array.getElem?_setIfInBounds_self_of_lt inside, ?_⟩
      exact ⟨self.parent_live, self.parent_eq, self.resume_eq, rfl, rfl,
        .extended (lt_size foundPrevious) (.forced inner)⟩
    · obtain ⟨k, foundK⟩ := exists_node insideI
      refine ⟨k, k, foundK, ?_, carried_self sound foundK⟩
      rw [Array.getElem?_setIfInBounds_ne (fun eq => same eq.symm), foundK]
  · exact carried_refl sound

/-- Building a slot leaves all that can be read as it was. -/
theorem force_follows {s : Store} (sound : s.Sound) (id : Nat) : s.Follows (s.force id) := by
  have carried := force_carried sound id
  refine ⟨?_, Nat.le_of_eq (size_force s id).symm, fun i insideI => carried.frames_eq sound insideI⟩
  intro i k foundK
  have insideI : i < s.size := size_force s id ▸ lt_size foundK
  obtain ⟨l, l', foundL, foundL', nodeL⟩ := carried.node i insideI
  have same : k = l' := Option.some.inj (foundK.symm.trans foundL')
  rw [same]
  exact carried.nodeSound sound insideI foundL nodeL

theorem allocated_force (s : Store) (id : Nat) : (s.force id).allocated = s.allocated := by
  unfold force
  split <;> rfl

theorem forceAll_follows {s : Store} (sound : s.Sound) (ids : List Nat) :
    s.Follows (s.forceAll ids) ∧ (s.forceAll ids).allocated = s.allocated := by
  induction ids with
  | nil => exact ⟨.refl sound, rfl⟩
  | cons id ids ih =>
    have forced := force_follows ih.1.sound id
    exact ⟨ih.1.trans forced, (allocated_force _ id).trans ih.2⟩

end Store

namespace Step

def node : Step → Nat
  | .next _ node => node
  | .done node => node

def spot (s : Store) : Step → Spot
  | .next matcher node => .next matcher (s.frames node)
  | .done node => .done (s.frames node)

end Step

namespace Store

section Settle

variable {s : Store} (sound : s.Sound) {node : Nat} (inside : node < s.size) (fresh : List Nat)
include sound inside

theorem settle_spec :
    s.Follows (s.settle node fresh).2.2 ∧
      (s.settle node fresh).1.node < (s.settle node fresh).2.2.size ∧
      (s.settle node fresh).1.spot (s.settle node fresh).2.2 = Frame.settle (s.frames node) ∧
      (s.settle node fresh).2.2.allocated = s.allocated + Frame.resumed (s.frames node) := by
  obtain ⟨n, found⟩ := exists_node inside
  have head := frames_eq sound found
  have next := next?_eq sound found
  unfold settle
  cases hm : s.nextPart? node with
  | some m =>
    rw [hm] at next
    refine ⟨.refl sound, inside, ?_, ?_⟩
    · simp only [Step.spot, head, Frame.settle, next]
    · simp only [head, Frame.resumed, next, Option.isNone_some, Bool.false_and,
        Bool.false_eq_true, ↓reduceIte, Nat.add_zero]
  | none =>
    rw [hm] at next
    have same : s.resume? node = n.resume? := by simp only [resume?, found, Option.bind_some]
    simp only [same]
    cases hr : n.resume? with
    | none =>
      have top := climb_of_resume_none sound found hr (n.sequence.build (s.captures node))
      refine ⟨.refl sound, inside, ?_, ?_⟩
      · simp only [Step.spot, head, Frame.settle, next, Frame.capture, top, Option.getD_none]
      · simp only [head, Frame.resumed, next, Frame.capture, top, Option.isSome_none,
          Bool.and_false, Bool.false_eq_true, ↓reduceIte, Nat.add_zero]
    | some outer =>
      obtain ⟨f, fs, m, framesOuter, nextOuter, climbed⟩ := climb_of_resume_some sound found hr []
      rw [List.append_nil] at climbed
      obtain ⟨k, foundOuter⟩ := exists_node (Nat.lt_trans (resume_lt sound found hr) inside)
      have follows := extend_follows sound foundOuter (.deferred node) inside
      have framesNew := frames_extend sound foundOuter (.deferred node) inside
      -- the frame of the node gone on at, and those around it
      have split := frames_eq sound foundOuter
      rw [framesOuter] at split
      obtain ⟨rfl, rfl⟩ := List.cons.inj split
      have newInside : s.size < (s.addFinished outer node).2.size := by
        rw [addFinished, size_extend foundOuter]
        exact Nat.lt_succ_self _
      obtain ⟨new, foundNew⟩ := exists_node newInside
      have nextNew : (s.addFinished outer node).2.nextPart? s.size = some m :=
        (nextPart?_of_frames follows.sound foundNew framesNew).trans nextOuter
      have place : (s.addFinished outer node).1 = s.size := extend_fst foundOuter _
      simp only [place, stepAt, nextNew]
      refine ⟨follows, newInside, ?_, ?_⟩
      · simp only [Step.spot, head, Frame.settle, next, Frame.capture, climbed, Option.getD_some]
        exact congrArg (Spot.next m) framesNew
      · rw [addFinished, allocated_extend foundOuter]
        simp only [head, Frame.resumed, next, Frame.capture, climbed, Option.isNone_none,
          Option.isSome_some, Bool.and_self, ↓reduceIte]

/-- Advancing at a node gives the spot that its frames give with one capture more. -/
theorem advance_spec (c : Capture) :
    s.Follows (s.advance node c fresh).2.2 ∧
      (s.advance node c fresh).1.node < (s.advance node c fresh).2.2.size ∧
      (s.advance node c fresh).1.spot (s.advance node c fresh).2.2 =
        Frame.advance c (s.frames node) ∧
      (s.advance node c fresh).2.2.allocated =
        s.allocated + Frame.advanced c (s.frames node) := by
  obtain ⟨n, found⟩ := exists_node inside
  have follows := extend_follows sound found (.built c) trivial
  have framesNew := frames_extend sound found (.built c) trivial
  have newInside : s.size < (s.extend node (.built c)).2.size := by
    rw [size_extend found]
    exact Nat.lt_succ_self _
  obtain ⟨settled, stepInside, spot, count⟩ := settle_spec follows.sound newInside fresh
  rw [framesNew] at spot count
  have same : s.advance node c fresh = (s.extend node (.built c)).2.settle s.size fresh := by
    rw [advance, addCapture, ← extend_fst found (.built c)]
  rw [same]
  refine ⟨follows.trans settled, stepInside, ?_, ?_⟩
  · rw [spot, frames_eq sound found]
    rfl
  · rw [count, allocated_extend found, frames_eq sound found, Nat.add_assoc]
    rfl

end Settle

end Store

end Lockstep
