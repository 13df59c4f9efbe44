import Lockstep.Proofs.Store.Filling

set_option autoImplicit false

/-!
Two ways to complete a sequence. Step by step, its capture extends the node around it, and so on as
long as the node extended is finished in turn. At once, the chain of all these sequences is combined
and extends the node where matching goes on. Both end at the same node, with the same capture.
-/

namespace Lockstep.Store

/-- Completes the sequence at `id`, extends the node around it by the capture, and goes on with the
extended node while that is finished. Gives the node that was extended last, or none when the
outermost sequence was completed, and the last capture; stops short after so many rounds. -/
def completeUp : (rounds : Nat) → (s : Store) → (id : Nat) → Option (Option Nat × Capture)
  | 0, _, _ => none
  | rounds + 1, s, id =>
    match s.complete id with
    | (none, capture) => some (none, capture)
    | (some parent, capture) =>
      let (extended, s) := s.addCapture parent capture
      if s.isFinished extended then completeUp rounds s extended else some (some parent, capture)

section Sound

variable {s : Store} (sound : s.Sound) {id : Nat} {n : Node} (found : s.nodes[id]? = some n)

theorem isFinished_addCapture (found : s.nodes[id]? = some n) (c : Capture) :
    (s.addCapture id c).2.isFinished s.size = !n.continues := by
  have same : (s.addCapture id c).2.nextPart? s.size = n.sequence.parts[n.count + 1]? :=
    nextPart?_of_node (node_extend found (.built c))
  rw [isFinished, same, Bool.eq_iff_iff, Option.isNone_iff_eq_none, List.getElem?_eq_none_iff,
    Node.continues, Bool.not_eq_true', decide_eq_false_iff_not, Nat.not_lt]

include sound found

/-- The chain from a node extended by a capture carries that capture to the node itself. -/
theorem chain_addCapture (c : Capture) {stop? : Option Nat}
    (insideStop : ∀ stop, stop? = some stop → stop < s.size) :
    (s.addCapture id c).2.chain s.size stop? = s.chainOnto id stop? [c] := by
  have follows := extend_follows sound found (.built c) trivial
  have foundNew := node_extend found (.built c)
  have carried := push_carried sound (extension id n (.built c))
  rw [← extend_eq found] at carried
  have captures : (s.extend id (.built c)).2.captures s.size = s.captures id ++ [c] := by
    have before := (carried.reading_eq sound (lt_size found)).1
    have after := captures_of_extended foundNew rfl (lt_size found) trivial
    exact after.trans (congrArg (· ++ [c]) before)
  rw [addCapture, chain]
  by_cases last : n.parent? = none ∨ n.parent? = stop?
  · rw [chainOnto_of_last stop? [] foundNew last, List.append_nil,
      chainOnto_of_last stop? [c] found last, captures, extension]
  · obtain ⟨p, parent⟩ : ∃ p, n.parent? = some p :=
      Option.ne_none_iff_exists'.mp fun none => last (.inl none)
    have going : some p ≠ stop? := fun same => last (.inr (parent.trans same))
    have older := (sound id n found).parent_lt p parent
    have inside := Nat.lt_trans older (lt_size found)
    have above := (carried.reading_eq sound inside).2 stop? [n.sequence.build (s.captures id ++ [c])]
      insideStop
    rw [Option.map_id_fun'] at above
    rw [chainOnto_of_parent stop? [] foundNew parent inside going, List.append_nil,
      chainOnto_of_parent stop? [c] found parent older going, captures, extension]
    exact above

theorem resume?_lt_size : ∀ r, n.resume? = some r → r < s.size := by
  intro r resumes
  exact Nat.lt_trans (resume_lt sound found resumes) (lt_size found)

/-- Completing step by step ends where matching goes on, with the capture of the chain up to there. -/
theorem completeUp_eq {rounds : Nat} (left : 0 < rounds)
    (enough : ∀ p, n.parent? = some p → p + 1 < rounds) :
    s.completeUp rounds id = some (n.resume?, s.chain id n.resume?) := by
  -- The parent of the node that is extended is older than the node, so the rounds get fewer with it.
  induction rounds generalizing s id n with
  | zero => cases left
  | succ rounds ih =>
    have resume_eq := (sound id n found).resume_eq
    have completed : s.complete id = (n.parent?, n.sequence.build (s.captures id)) := by
      simp only [complete, found]
    rw [completeUp, completed]
    cases parent : n.parent? with
    | none =>
      rw [parent] at resume_eq
      rw [resume_eq, Option.bind_none, chain, chainOnto_of_last none [] found (.inl parent),
        List.append_nil]
    | some p =>
      have older := (sound id n found).parent_lt p parent
      obtain ⟨m, foundParent⟩ := exists_node (Nat.lt_trans older (lt_size found))
      rw [parent, Option.bind_some, resumeInside, foundParent, Option.bind_some] at resume_eq
      generalize capture_eq : n.sequence.build (s.captures id) = c
      have place : (s.addCapture p c).1 = s.size := extend_fst foundParent _
      simp only [place, isFinished_addCapture foundParent]
      cases continues : m.continues with
      | true =>
        rw [continues, if_pos rfl] at resume_eq
        rw [resume_eq, chain, chainOnto_of_last _ [] found (.inr parent), List.append_nil, capture_eq]
        rfl
      | false =>
        rw [continues, if_neg Bool.false_ne_true] at resume_eq
        have follows := extend_follows sound foundParent (.built c) trivial
        have insideStop := resume?_lt_size sound foundParent
        have going : some p ≠ m.resume? := by
          intro same
          exact Nat.lt_irrefl p (resume_lt sound foundParent same.symm)
        have bound := enough p parent
        have later := ih follows.sound (node_extend foundParent (.built c)) (by omega) (by
          intro q above
          have := (sound p m foundParent).parent_lt q above
          omega)
        rw [resume_eq, chain, chainOnto_of_parent _ [] found parent older going, List.append_nil,
          capture_eq, ← chain_addCapture sound foundParent c insideStop]
        exact later

/-- A node extended by a finished sequence that goes on at it has parts left. -/
theorem next_of_addFinished {r inner : Nat} (resumes : n.resume? = some r) :
    ∃ part, (s.addFinished r inner).2.stepAt (s.addFinished r inner).1 =
        .next part (s.addFinished r inner).1 ∧
      (s.addFinished r inner).2.isFinished (s.addFinished r inner).1 = false := by
  obtain ⟨m, foundOuter, continues⟩ := continues_of_resume sound found resumes
  have more : m.count + 1 < m.sequence.parts.length := of_decide_eq_true continues
  have next : (s.addFinished r inner).2.nextPart? s.size = some m.sequence.parts[m.count + 1] := by
    rw [addFinished, nextPart?_of_node (node_extend foundOuter _)]
    exact List.getElem?_eq_getElem more
  have place : (s.addFinished r inner).1 = s.size := extend_fst foundOuter _
  refine ⟨m.sequence.parts[m.count + 1], ?_, ?_⟩
  · rw [place, stepAt, next]
  · rw [place, isFinished, next, Option.isNone_some]

theorem getLast?_captures_addFinished {r : Nat} (resumes : n.resume? = some r) :
    ((s.addFinished r id).2.captures (s.addFinished r id).1).getLast? =
      some (s.chain id (some r)) := by
  obtain ⟨m, foundOuter, -⟩ := continues_of_resume sound found resumes
  have place : (s.addFinished r id).1 = s.size := extend_fst foundOuter _
  have carried := push_carried sound (extension r m (.deferred id))
  rw [← extend_eq foundOuter] at carried
  have chains := (carried.reading_eq sound (lt_size found)).2 (some r) []
    fun stop same => by cases same; exact lt_size foundOuter
  have captures := captures_of_extended (node_extend foundOuter (.deferred id)) rfl
    (lt_size foundOuter) (lt_size found)
  rw [place, addFinished, captures, List.getLast?_concat]
  exact congrArg some chains

end Sound

/-- Completing the sequence at `id` step by step and at once is the same. -/
structure CompletesAlike (s : Store) (id : Nat) : Prop where
  outermost : s.resume? id = none →
    ∀ rounds, id < rounds → s.completeUp rounds id = some (none, s.chain id none)
  resumed : ∀ r, s.resume? id = some r →
    ∀ rounds, id < rounds → s.completeUp rounds id = some (some r, s.chain id (some r))
  added : ∀ r, s.resume? id = some r →
    ((s.addFinished r id).2.captures (s.addFinished r id).1).getLast? = some (s.chain id (some r))
  unfinished : ∀ r, s.resume? id = some r →
    ∃ part, (s.addFinished r id).2.stepAt (s.addFinished r id).1 =
        .next part (s.addFinished r id).1 ∧
      (s.addFinished r id).2.isFinished (s.addFinished r id).1 = false

theorem completesAlike {s : Store} (sound : s.Sound) {id : Nat} (inside : id < s.size) :
    s.CompletesAlike id := by
  obtain ⟨n, found⟩ := exists_node inside
  have stepwise : ∀ rounds, id < rounds →
      s.completeUp rounds id = some (n.resume?, s.chain id n.resume?) := by
    intro rounds enough
    refine completeUp_eq sound found (Nat.zero_lt_of_lt enough) ?_
    intro p parent
    have older := (sound id n found).parent_lt p parent
    omega
  have resume_eq := resume?_of_node found
  refine ⟨?_, ?_, ?_, ?_⟩
  · intro outermost rounds enough
    rw [stepwise rounds enough, ← resume_eq, outermost]
  · intro r resumes rounds enough
    rw [stepwise rounds enough, ← resume_eq, resumes]
  · intro r resumes
    exact getLast?_captures_addFinished sound found (resume_eq.symm.trans resumes)
  · intro r resumes
    exact next_of_addFinished sound found (resume_eq.symm.trans resumes)

end Lockstep.Store
