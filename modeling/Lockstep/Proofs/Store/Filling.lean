import Lockstep.Proofs.Store.Full

set_option autoImplicit false

namespace Lockstep

namespace Store

variable {defined : String → Prop} {g : Grammar} {log more : List Application} {s s' t : Store}

structure Keeps (s s' : Store) : Prop where
  size_le : s.size ≤ s'.size
  next_eq : ∀ id < s.size, s'.nextPart? id = s.nextPart? id
  resume_eq : ∀ id < s.size, s'.resume? id = s.resume? id

theorem Keeps.refl (s : Store) : s.Keeps s := ⟨Nat.le_refl _, fun _ _ => rfl, fun _ _ => rfl⟩

theorem Keeps.trans (h : s.Keeps s') (k : s'.Keeps t) : s.Keeps t := by
  refine ⟨Nat.le_trans h.size_le k.size_le, ?_, ?_⟩
  · intro id inside
    rw [k.next_eq id (Nat.lt_of_lt_of_le inside h.size_le), h.next_eq id inside]
  · intro id inside
    rw [k.resume_eq id (Nat.lt_of_lt_of_le inside h.size_le), h.resume_eq id inside]

theorem lt_size_of_next {id : Nat} {part : Matcher} (next : s.nextPart? id = some part) :
    id < s.size := by
  obtain ⟨n, found, -⟩ := Option.bind_eq_some_iff.mp next
  exact lt_size found

theorem Keeps.next (h : s.Keeps s') {id : Nat} {part : Matcher} (next : s.nextPart? id = some part) :
    s'.nextPart? id = some part := by
  rw [h.next_eq id (lt_size_of_next next), next]

namespace Carried

variable {live : Nat → Prop} {place : Nat → Nat} {id : Nat}

theorem nextPart?_eq (h : s.Carried live place s') (alive : live id) :
    s'.nextPart? (place id) = s.nextPart? id := by
  obtain ⟨n, n', found, found', node⟩ := h.node id alive
  rw [nextPart?_of_node found, nextPart?_of_node found', Node.nextPart?, Node.nextPart?,
    node.sequence_eq, node.count_eq]

theorem resume?_eq (h : s.Carried live place s') (alive : live id) :
    s'.resume? (place id) = (s.resume? id).map place := by
  obtain ⟨n, n', found, found', node⟩ := h.node id alive
  rw [resume?_of_node found, resume?_of_node found', node.resume_eq]

theorem keeps (h : s.Carried (· < s.size) (fun i => i) s') (size_le : s.size ≤ s'.size) :
    s.Keeps s' := by
  refine ⟨size_le, fun id inside => h.nextPart?_eq inside, fun id inside => ?_⟩
  rw [h.resume?_eq inside]
  exact Option.map_id_apply

/-- A node that is carried over stays full, provided that a slot that was forced on the way holds a
capture of its part. -/
theorem nodeFull (full : s.Full defined g log) (h : s.Carried live place s') (sub : log ⊆ more)
    {n n' : Node} (found : s.nodes[id]? = some n) (node : n.Carried s live place n')
    (forced : ∀ previous inner part, n.progress = .extended previous (.deferred inner) →
      n'.progress = .extended (place previous) (.built (s.chain inner (some previous))) →
      s.nextPart? previous = some part → g.Captures more part (s.chain inner (some previous))) :
    s'.NodeFull defined g more n' := by
  obtain ⟨nonempty, proper, bound, inside, progress⟩ := full.node id n found
  refine ⟨node.sequence_eq ▸ nonempty, node.sequence_eq ▸ proper, ?_, ?_, ?_⟩
  · rw [node.count_eq, node.sequence_eq]
    exact bound
  · intro p' same
    rw [node.parent_eq, Option.map_eq_some_iff] at same
    obtain ⟨p, parent, rfl⟩ := same
    rw [h.nextPart?_eq (node.parent_live p parent), node.sequence_eq]
    exact inside p parent
  · rw [node.sequence_eq]
    have carried := node.progress
    cases same : n.progress with
    | entered =>
      rw [same] at carried
      generalize n'.progress = progress' at carried
      cases carried with
      | entered => trivial
    | extended previous slot =>
      rw [same] at progress carried forced
      obtain ⟨m, part, foundPrevious, sequence, next, slotFull⟩ := progress
      have next' := (nextPart?_of_node foundPrevious).trans next
      generalize n'.progress = progress' at carried forced
      cases carried with
      | extended alive slotCarried =>
        obtain ⟨k, k', foundK, foundK', nodeK⟩ := h.node previous alive
        rw [foundPrevious] at foundK
        cases foundK
        refine ⟨k', part, foundK', nodeK.sequence_eq.trans sequence, ?_, ?_⟩
        · rw [← nextPart?_of_node foundK', h.nextPart?_eq alive]
          exact next'
        · cases slotCarried with
          | built c => exact Grammar.Captures.mono slotFull sub
          | @deferred inner aliveInner =>
            obtain ⟨resumes, finished⟩ := slotFull
            refine ⟨?_, (h.nextPart?_eq aliveInner).trans finished⟩
            rw [h.resume?_eq aliveInner, resumes]
            rfl
          | forced inner => exact forced previous inner part rfl rfl next'

end Carried

theorem push_node_of_lt (n : Node) {id : Nat} (inside : id < s.size) :
    (s.push n).2.nodes[id]? = s.nodes[id]? := by
  rw [push, Array.getElem?_push_lt inside]
  exact (Array.getElem?_eq_getElem inside).symm

theorem node_extend {id : Nat} {n : Node} (found : s.nodes[id]? = some n) (slot : Slot) :
    (s.extend id slot).2.nodes[s.size]? = some (extension id n slot) := by
  rw [extend_eq found, push]
  exact Array.getElem?_push_size

section Push

variable (h : s.Full defined g log)
include h

theorem push_keeps (n : Node) : s.Keeps (s.push n).2 := by
  refine (push_carried h.sound n).keeps ?_
  simp only [push, size, Array.size_push]
  omega

theorem push_full {n : Node} (sound : (s.push n).2.Sound)
    (full : (s.push n).2.NodeFull defined g log n) : (s.push n).2.Full defined g log := by
  have carried := push_carried h.sound n
  refine ⟨sound, ?_⟩
  intro id m found
  rcases Nat.lt_or_ge id s.size with inside | outside
  · obtain ⟨k, foundK⟩ := exists_node inside
    rw [push_node_of_lt n inside, foundK] at found
    cases found
    refine carried.nodeFull h (List.Subset.refl log) foundK (carried_self h.sound foundK) ?_
    intro previous inner part deferred built
    rw [deferred] at built
    cases built
  · have bound := lt_size found
    simp only [push, size, Array.size_push] at bound outside
    have last : id = s.nodes.size := by omega
    subst last
    simp only [push, Array.getElem?_push_size, Option.some.injEq] at found
    exact found ▸ full

theorem enter_full {parent? : Option Nat} {sequence : Sequence}
    (nonempty : sequence.parts ≠ []) (proper : ∀ m ∈ sequence.parts, m.Proper defined)
    (inside : ∀ p, parent? = some p →
      ∃ part guards, s.nextPart? p = some part ∧ g.Leads part (sequence.matcher guards)) :
    (s.enter parent? sequence).2.Full defined g log ∧ s.Keeps (s.enter parent? sequence).2 := by
  have parents : ∀ p, parent? = some p → p < s.size := by
    intro p same
    obtain ⟨part, guards, next, -⟩ := inside p same
    exact lt_size_of_next next
  have follows := enter_follows h.sound sequence parents
  have keeps := push_keeps h ⟨parent?, sequence, .entered, 0, parent?.bind s.resumeInside⟩
  refine ⟨push_full h follows.sound ⟨nonempty, proper, Nat.zero_le _, ?_, trivial⟩, keeps⟩
  intro p same
  obtain ⟨part, guards, next, leads⟩ := inside p same
  exact ⟨part, guards, keeps.next next, leads⟩

theorem extend_full {id : Nat} {n : Node} {part : Matcher} (found : s.nodes[id]? = some n)
    (next : n.nextPart? = some part) (slot : Slot) (slotSound : SlotSound s.size slot)
    (slotFull : s.SlotFull g log id part slot) :
    (s.extend id slot).2.Full defined g log ∧ s.Keeps (s.extend id slot).2 := by
  have follows := extend_follows h.sound found slot slotSound
  rw [extend_eq found] at follows ⊢
  have keeps := push_keeps h (extension id n slot)
  obtain ⟨nonempty, proper, -, inside, -⟩ := h.node id n found
  refine ⟨push_full h follows.sound ⟨nonempty, proper, ?_, ?_, ?_⟩, keeps⟩
  · exact (List.getElem?_eq_some_iff.mp next).1
  · intro p same
    obtain ⟨outer, guards, nextOuter, leads⟩ := inside p same
    exact ⟨outer, guards, keeps.next nextOuter, leads⟩
  · refine ⟨n, part, (push_node_of_lt _ (lt_size found)).trans found, rfl, next, ?_⟩
    cases slot with
    | built c => exact slotFull
    | deferred inner =>
      exact ⟨(keeps.resume_eq inner slotSound).trans slotFull.1,
        (keeps.next_eq inner slotSound).trans slotFull.2⟩

end Push

/-- Matching goes on at a node that has parts left after the next one. -/
theorem continues_of_resume (sound : s.Sound) {id r : Nat} {n : Node}
    (found : s.nodes[id]? = some n) (h : n.resume? = some r) :
    ∃ m, s.nodes[r]? = some m ∧ m.continues = true := by
  induction id using Nat.strongRecOn generalizing n with
  | ind id ih =>
    have node := sound id n found
    rw [node.resume_eq] at h
    cases hp : n.parent? with
    | none => rw [hp] at h; cases h
    | some p =>
      simp only [hp, Option.bind_some, resumeInside, Option.bind_eq_some_iff] at h
      obtain ⟨m, foundParent, resumed⟩ := h
      split at resumed
      · next continues =>
        cases resumed
        exact ⟨m, foundParent, continues⟩
      · exact ih p (node.parent_lt p hp) foundParent resumed

theorem exists_next_of_continues {n : Node} (continues : n.continues = true) :
    ∃ part, n.nextPart? = some part := by
  have more : n.count + 1 < n.sequence.parts.length := of_decide_eq_true continues
  have inside : n.count < n.sequence.parts.length := Nat.lt_of_succ_lt more
  exact ⟨_, List.getElem?_eq_getElem inside⟩

end Store

/-- What the step is about to match is what the part leads to that its node is at; a step that is
done is at a finished sequence, and so are all around it. -/
def Step.Aligned (defined : String → Prop) (g : Grammar) (s : Store) : Step → Prop
  | .next m node => m.Proper defined ∧ ∃ part, s.nextPart? node = some part ∧ g.Leads part m
  | .done node => node < s.size ∧ s.nextPart? node = none ∧ s.resume? node = none

namespace Store

variable {defined : String → Prop} {g : Grammar} {log : List Application} {s s' : Store}

theorem Keeps.aligned (h : s.Keeps s') {step : Step} (aligned : step.Aligned defined g s) :
    step.Aligned defined g s' := by
  cases step with
  | next m node =>
    obtain ⟨proper, part, next, leads⟩ := aligned
    exact ⟨proper, part, h.next next, leads⟩
  | done node =>
    obtain ⟨inside, finished, outermost⟩ := aligned
    exact ⟨Nat.lt_of_lt_of_le inside h.size_le, (h.next_eq node inside).trans finished,
      (h.resume_eq node inside).trans outermost⟩

theorem Full.aligned_next (h : s.Full defined g log) {node : Nat} {m : Matcher}
    (next : s.nextPart? node = some m) : (Step.next m node).Aligned defined g s := by
  obtain ⟨n, found, next'⟩ := Option.bind_eq_some_iff.mp next
  exact ⟨(h.node node n found).parts_proper m (List.mem_of_getElem? next'), m, next, .here⟩

section Settle

variable (h : s.Full defined g log)
include h

theorem settle_full {node : Nat} (inside : node < s.size) (fresh : List Nat) :
    (s.settle node fresh).2.2.Full defined g log ∧ s.Keeps (s.settle node fresh).2.2 ∧
      (s.settle node fresh).1.Aligned defined g (s.settle node fresh).2.2 := by
  unfold settle
  cases next : s.nextPart? node with
  | some m => exact ⟨h, .refl s, h.aligned_next next⟩
  | none =>
    cases resumes : s.resume? node with
    | none => exact ⟨h, .refl s, inside, next, resumes⟩
    | some outer =>
      obtain ⟨n, found⟩ := exists_node inside
      obtain ⟨m, foundOuter, continues⟩ :=
        continues_of_resume h.sound found ((resume?_of_node found).symm.trans resumes)
      obtain ⟨part, nextOuter⟩ := exists_next_of_continues continues
      obtain ⟨full, keeps⟩ :=
        extend_full h foundOuter nextOuter (.deferred node) inside ⟨resumes, next⟩
      have place : (s.addFinished outer node).1 = s.size := extend_fst foundOuter _
      have more : m.count + 1 < m.sequence.parts.length := of_decide_eq_true continues
      have nextNew : (s.addFinished outer node).2.nextPart? s.size =
          some m.sequence.parts[m.count + 1] := by
        rw [addFinished, nextPart?_of_node (node_extend foundOuter _)]
        exact List.getElem?_eq_getElem more
      simp only [place, stepAt, nextNew]
      exact ⟨full, keeps, full.aligned_next nextNew⟩

theorem advance_full {node : Nat} {part : Matcher} {c : Capture}
    (next : s.nextPart? node = some part) (captured : g.Captures log part c) (fresh : List Nat) :
    (s.advance node c fresh).2.2.Full defined g log ∧ s.Keeps (s.advance node c fresh).2.2 ∧
      (s.advance node c fresh).1.Aligned defined g (s.advance node c fresh).2.2 := by
  obtain ⟨n, found, next'⟩ := Option.bind_eq_some_iff.mp next
  obtain ⟨full, keeps⟩ := extend_full h found next' (.built c) trivial captured
  have newInside : s.size < (s.extend node (.built c)).2.size := by
    rw [size_extend found]
    exact Nat.lt_succ_self _
  obtain ⟨settled, later, aligned⟩ := settle_full full newInside fresh
  have same : s.advance node c fresh = (s.extend node (.built c)).2.settle s.size fresh := by
    rw [advance, addCapture, ← extend_fst found (.built c)]
  rw [same]
  exact ⟨settled, keeps.trans later, aligned⟩

end Settle

section Force

theorem force_full (h : s.Full defined g log) (full : g.Full log) (id : Nat) :
    (s.force id).Full defined g (log ++ s.forceLog id) ∧ s.Keeps (s.force id) := by
  have carried := force_carried h.sound id
  have keeps := carried.keeps (Nat.le_of_eq (size_force s id).symm)
  refine ⟨⟨(force_follows h.sound id).sound, ?_⟩, keeps⟩
  intro i k foundK
  have inside : i < s.size := size_force s id ▸ lt_size foundK
  obtain ⟨l, l', foundL, foundL', node⟩ := carried.node i inside
  obtain rfl : k = l' := Option.some.inj (foundK.symm.trans foundL')
  refine carried.nodeFull h (List.subset_append_left log _) foundL node ?_
  intro previous inner part deferred built next
  -- Only the slot at `id` is built by this; a slot that is built elsewhere was so before.
  by_cases same : i = id
  · subst same
    obtain ⟨parent?, sequence, progress, count, resume?⟩ := l
    cases deferred
    have log_eq : s.forceLog i = s.slotLog previous (.deferred inner) := by
      simp only [forceLog, foundL]
    rw [log_eq]
    exact (h.slot full foundL rfl).2 part next
  · rw [force_node_of_ne s same, foundL] at foundK
    cases foundK
    rw [deferred] at built
    cases built

theorem forceAll_full (h : s.Full defined g log) (full : g.Full log) (ids : List Nat) :
    (s.forceAll ids).Full defined g (log ++ s.forceAllLog ids) ∧
      g.Full (log ++ s.forceAllLog ids) ∧ s.Keeps (s.forceAll ids) := by
  induction ids with
  | nil =>
    rw [forceAllLog, List.append_nil]
    exact ⟨h, full, .refl s⟩
  | cons id ids ih =>
    obtain ⟨h', full', keeps⟩ := ih
    obtain ⟨forced, later⟩ := force_full h' full' id
    rw [forceAllLog, ← List.append_assoc]
    exact ⟨forced, h'.force full' id, keeps.trans later⟩

end Force

section Compact

variable (h : s.Full defined g log) (roots : List Nat)
include h

theorem compact_full : (s.compact roots).1.Full defined g log := by
  have carried := compact_carried s roots h.sound
  refine ⟨compact_sound s roots h.sound, ?_⟩
  intro j n' found'
  obtain ⟨id, n, alive, found, rfl, rfl⟩ := exists_live_of_compact s roots found'
  refine carried.nodeFull h (List.Subset.refl log) found
    (rename_carried s roots h.sound alive found) ?_
  intro previous inner part deferred built
  simp only [Node.rename, deferred, Progress.rename] at built
  cases (Progress.extended.inj built).2

theorem compact_aligned {step : Step} (root : step.node ∈ roots)
    (aligned : step.Aligned defined g s) :
    let place := (s.compact roots).2
    (match step with
      | .next m node => Step.next m (place node)
      | .done node => Step.done (place node)).Aligned defined g (s.compact roots).1 := by
  have carried := compact_carried s roots h.sound
  cases step with
  | next m node =>
    obtain ⟨proper, part, next, leads⟩ := aligned
    have alive : s.Live roots node := live_root s root (lt_size_of_next next)
    exact ⟨proper, part, (carried.nextPart?_eq alive).trans next, leads⟩
  | done node =>
    obtain ⟨inside, finished, outermost⟩ := aligned
    have alive : s.Live roots node := live_root s root inside
    obtain ⟨n, n', -, found', -⟩ := carried.node node alive
    refine ⟨lt_size found', (carried.nextPart?_eq alive).trans finished, ?_⟩
    rw [carried.resume?_eq alive, outermost]
    rfl

end Compact

end Store

end Lockstep
