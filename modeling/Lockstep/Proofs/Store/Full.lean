import Lockstep.Proofs.Proper
import Lockstep.Proofs.Store.Applied
import Lockstep.Proofs.Store.Compacted
import Mathlib.Data.List.Forall2

set_option autoImplicit false

/-!
Stores in which every combiner gets a full list of captures. A sequence that is finished together with
one inside it never gets a node for its last part, so what its combiner is applied to is put together
while a chain is read: the captures at the node, and the result of the sequence inside. That these are
one capture for each part rests on where chains stop: at the node where matching went on.
-/

namespace Lockstep

open List (Forall₂)

namespace Sequence

def matcher (q : Sequence) (guards : List Predicate) : Matcher :=
  .sequence q.name? q.parts q.build guards

end Sequence

namespace Grammar

/-- Matching `part` may come to matching `m`, by choosing options and by unfolding. -/
inductive Leads (g : Grammar) (part : Matcher) : Matcher → Prop where
  | here : Leads g part part
  | option {options : List Matcher} {guards : List Predicate} {m : Matcher}
      (leads : Leads g part (.branch options guards)) (mem : m ∈ options) : Leads g part m
  | unfold {m m' : Matcher} (leads : Leads g part m) (defers : m.isDeferred = true)
      (unfolds : g.unfold m = .ok m') : Leads g part m'

/-- The capture is one of `part`: a token that it accepts, a marker if it may match nothing, or the
result of a sequence that it comes to, applied as in `log`. -/
inductive Captures (g : Grammar) (log : List Application) (part : Matcher) : Capture → Prop where
  | token {spec : Spec} {guards : List Predicate} {token : Token}
      (leads : g.Leads part (.token spec guards)) (accepts : spec.accepts token = true) :
    Captures g log part (.token token)
  | nothing {guards : List Predicate} {position : Position}
      (leads : g.Leads part (.nothing guards)) : Captures g log part (.empty position)
  | sequence {a : Application} {guards : List Predicate}
      (leads : g.Leads part (a.sequence.matcher guards)) (applied : a ∈ log) :
    Captures g log part a.result

structure IsFull (g : Grammar) (log : List Application) (a : Application) : Prop where
  nonempty : a.captures ≠ []
  all : Forall₂ (g.Captures log) a.sequence.parts a.captures

/-- Each application is full, given those before it. -/
inductive Full (g : Grammar) : List Application → Prop where
  | nil : Full g []
  | snoc {log : List Application} {a : Application} (h : Full g log) (full : g.IsFull log a) :
    Full g (log ++ [a])

variable {g : Grammar} {log more : List Application} {part : Matcher} {parts : List Matcher}
  {captures : List Capture} {c : Capture} {a : Application}

theorem Captures.mono (h : g.Captures log part c) (sub : log ⊆ more) :
    g.Captures more part c := by
  cases h with
  | token leads accepts => exact .token leads accepts
  | nothing leads => exact .nothing leads
  | sequence leads applied => exact .sequence leads (sub applied)

theorem captures_mono (h : Forall₂ (g.Captures log) parts captures) (sub : log ⊆ more) :
    Forall₂ (g.Captures more) parts captures :=
  h.imp fun _ _ here => here.mono sub

theorem Full.isFull (h : g.Full log) {before after : List Application}
    (split : log = before ++ a :: after) : g.IsFull before a := by
  induction h generalizing after with
  | nil => cases before <;> cases split
  | @snoc log b h full ih =>
    rcases List.eq_nil_or_concat after with rfl | ⟨front, last, rfl⟩
    · obtain ⟨rfl, same⟩ := List.append_inj' split rfl
      cases same
      exact full
    · rw [List.concat_eq_append, ← List.cons_append, ← List.append_assoc] at split
      obtain ⟨same, -⟩ := List.append_inj' split rfl
      exact ih same

theorem Leads.eq_of_sequence {q : Sequence} {guards : List Predicate} {m : Matcher}
    (h : g.Leads (q.matcher guards) m) : m = q.matcher guards := by
  induction h with
  | here => rfl
  | option _ _ ih => cases ih
  | unfold _ defers _ ih =>
    rw [ih] at defers
    cases defers

theorem Captures.of_sequence {q : Sequence} {guards : List Predicate}
    (h : g.Captures log (q.matcher guards) c) : ∃ a ∈ log, a.sequence = q ∧ c = a.result := by
  cases h with
  | token leads => cases leads.eq_of_sequence
  | nothing leads => cases leads.eq_of_sequence
  | @sequence a guards' leads applied =>
    have same := leads.eq_of_sequence
    obtain ⟨⟨name?, parts, build⟩, captures⟩ := a
    obtain ⟨name?', parts', build'⟩ := q
    cases same
    exact ⟨_, applied, rfl, rfl⟩

end Grammar

namespace Store

def SlotFull (g : Grammar) (log : List Application) (s : Store) (previous : Nat)
    (part : Matcher) : Slot → Prop
  | .built c => g.Captures log part c
  | .deferred inner => s.resume? inner = some previous ∧ s.nextPart? inner = none

def ProgressFull (g : Grammar) (log : List Application) (s : Store) (sequence : Sequence) :
    Progress → Prop
  | .entered => True
  | .extended previous slot => ∃ m part, s.nodes[previous]? = some m ∧ m.sequence = sequence ∧
      m.nextPart? = some part ∧ s.SlotFull g log previous part slot

/-- The node `n` holds captures of its parts, and its sequence is what the part that its parent is at
leads to. -/
structure NodeFull (defined : String → Prop) (g : Grammar) (log : List Application) (s : Store)
    (n : Node) : Prop where
  parts_ne : n.sequence.parts ≠ []
  parts_proper : ∀ m ∈ n.sequence.parts, m.Proper defined
  count_le : n.count ≤ n.sequence.parts.length
  inside : ∀ p, n.parent? = some p →
    ∃ part guards, s.nextPart? p = some part ∧ g.Leads part (n.sequence.matcher guards)
  progress : s.ProgressFull g log n.sequence n.progress

structure Full (defined : String → Prop) (g : Grammar) (log : List Application) (s : Store) :
    Prop where
  sound : s.Sound
  node : ∀ (id : Nat) (n : Node), s.nodes[id]? = some n → s.NodeFull defined g log n

variable {defined : String → Prop} {g : Grammar} {log more : List Application} {s : Store}

theorem Full.mono (h : s.Full defined g log) (sub : log ⊆ more) : s.Full defined g more := by
  refine ⟨h.sound, fun id n found => ?_⟩
  obtain ⟨nonempty, proper, bound, inside, progress⟩ := h.node id n found
  refine ⟨nonempty, proper, bound, inside, ?_⟩
  cases same : n.progress with
  | entered => trivial
  | extended previous slot =>
    rw [same] at progress
    obtain ⟨m, part, foundPrevious, sequence, next, slotFull⟩ := progress
    refine ⟨m, part, foundPrevious, sequence, next, ?_⟩
    cases slot with
    | built c => exact Grammar.Captures.mono slotFull sub
    | deferred inner => exact slotFull

theorem nextPart?_of_node {id : Nat} {n : Node} (found : s.nodes[id]? = some n) :
    s.nextPart? id = n.nextPart? := by
  simp only [nextPart?, found, Option.bind_some]

theorem resume?_of_node {id : Nat} {n : Node} (found : s.nodes[id]? = some n) :
    s.resume? id = n.resume? := by
  simp only [resume?, found, Option.bind_some]

theorem take_succ_of_next {n : Node} {part : Matcher} (next : n.nextPart? = some part) :
    n.sequence.parts.take (n.count + 1) = n.sequence.parts.take n.count ++ [part] := by
  have same : n.sequence.parts[n.count]? = some part := next
  rw [List.take_add_one, same]
  rfl

theorem drop_of_last {n : Node} {part : Matcher} (next : n.nextPart? = some part)
    (finishing : n.continues = false) : n.sequence.parts.drop n.count = [part] := by
  obtain ⟨inside, same⟩ := List.getElem?_eq_some_iff.mp next
  have last : n.sequence.parts.length ≤ n.count + 1 := by
    simpa only [Node.continues, decide_eq_false_iff_not, Nat.not_lt] using finishing
  rw [List.drop_eq_getElem_cons inside, same, List.drop_eq_nil_of_le last]

theorem drop_of_finished {n : Node} (finished : n.nextPart? = none) :
    n.sequence.parts.drop n.count = [] :=
  List.drop_eq_nil_of_le (List.getElem?_eq_none_iff.mp finished)

def CapturesFull (g : Grammar) (log : List Application) (s : Store) (id : Nat) (n : Node) : Prop :=
  g.Full (log ++ s.capturesLog id) ∧
    Forall₂ (g.Captures (log ++ s.capturesLog id)) (n.sequence.parts.take n.count) (s.captures id)

/-- A chain that starts at `id` with the captures of the last parts goes on to where matching does;
there it yields a capture of the part that matching is at. -/
def ChainFull (g : Grammar) (log : List Application) (s : Store) (id : Nat) (n : Node) : Prop :=
  ∀ stop? carried, n.resume? = stop? →
    Forall₂ (g.Captures log) (n.sequence.parts.drop n.count) carried →
    g.Full (log ++ s.chainLog id stop? carried) ∧
      ∀ stop part, stop? = some stop → s.nextPart? stop = some part →
        g.Captures (log ++ s.chainLog id stop? carried) part (s.chainOnto id stop? carried)

def FullBefore (defined : String → Prop) (g : Grammar) (s : Store) (id : Nat) : Prop :=
  ∀ id' < id, ∀ (n' : Node) (log : List Application), s.nodes[id']? = some n' →
    s.Full defined g log → g.Full log → s.CapturesFull g log id' n' ∧ s.ChainFull g log id' n'

theorem slot_full {id previous : Nat} {part : Matcher} {slot : Slot}
    (before : s.FullBefore defined g id) (h : s.Full defined g log) (full : g.Full log)
    (slotSound : SlotSound id slot) (next : s.nextPart? previous = some part)
    (slotFull : s.SlotFull g log previous part slot) :
    g.Full (log ++ s.slotLog previous slot) ∧
      g.Captures (log ++ s.slotLog previous slot) part (s.slotCapture previous slot) := by
  cases slot with
  | built c =>
    simp only [slotLog, List.append_nil]
    exact ⟨full, slotFull⟩
  | deferred inner =>
    obtain ⟨resumes, finished⟩ := slotFull
    obtain ⟨k, foundInner, resume_eq⟩ := Option.bind_eq_some_iff.mp resumes
    rw [nextPart?_of_node foundInner] at finished
    have chain := (before inner slotSound k log foundInner h full).2 (some previous) [] resume_eq
    rw [drop_of_finished finished] at chain
    obtain ⟨logFull, yields⟩ := chain .nil
    exact ⟨logFull, yields previous part rfl next⟩

theorem capturesFull_of_before {id : Nat} {n : Node} (before : s.FullBefore defined g id)
    (h : s.Full defined g log) (full : g.Full log) (found : s.nodes[id]? = some n) :
    s.CapturesFull g log id n := by
  have progress := (h.sound id n found).progress
  have nodeFull := (h.node id n found).progress
  cases same : n.progress with
  | entered =>
    rw [same] at progress
    have none : n.count = 0 := progress
    refine ⟨?_, ?_⟩
    · rw [capturesLog_of_entered found same, List.append_nil]
      exact full
    · rw [captures_of_entered found same, none]
      exact .nil
  | extended previous slot =>
    rw [same] at progress nodeFull
    obtain ⟨older, slotSound, m, foundPrevious, count⟩ := progress
    obtain ⟨m', part, foundPrevious', sequence, next, slotFull⟩ := nodeFull
    rw [foundPrevious] at foundPrevious'
    cases foundPrevious'
    have next' : s.nextPart? previous = some part := (nextPart?_of_node foundPrevious).trans next
    -- The newest slot is read first, so the older ones find what it applied in their log.
    obtain ⟨full', newest⟩ := slot_full before h full slotSound next' slotFull
    have h' := h.mono (List.subset_append_left log (s.slotLog previous slot))
    obtain ⟨full'', earlier⟩ := (before previous older m _ foundPrevious h' full').1
    rw [CapturesFull, capturesLog_of_extended found same older slotSound,
      captures_of_extended found same older slotSound, ← List.append_assoc, count, ← sequence,
      take_succ_of_next next]
    refine ⟨full'', List.rel_append earlier (.cons ?_ .nil)⟩
    exact newest.mono (List.subset_append_left _ _)

theorem chainFull_of_before {id : Nat} {n : Node} (before : s.FullBefore defined g id)
    (h : s.Full defined g log) (captured : s.CapturesFull g log id n)
    (found : s.nodes[id]? = some n) : s.ChainFull g log id n := by
  intro stop? carried resumes rest
  obtain ⟨full, captures⟩ := captured
  obtain ⟨nonempty, -, -, inside, -⟩ := h.node id n found
  have nodeSound := h.sound id n found
  let a := s.applied id n carried
  have all : Forall₂ (g.Captures (log ++ s.capturesLog id)) n.sequence.parts a.captures := by
    have both : Forall₂ _ (n.sequence.parts.take n.count ++ n.sequence.parts.drop n.count) _ :=
      List.rel_append captures
        (Grammar.captures_mono rest (List.subset_append_left log (s.capturesLog id)))
    rwa [List.take_append_drop] at both
  have some : a.captures ≠ [] := by
    intro none
    rw [none] at all
    exact nonempty (List.forall₂_nil_right_iff.mp all)
  have full' : g.Full (log ++ s.capturesLog id ++ [a]) := full.snoc ⟨some, all⟩
  cases hp : n.parent? with
  | none =>
    have none : stop? = none := by
      rw [← resumes, nodeSound.resume_eq, hp]
      rfl
    subst none
    rw [chainLog_of_last none carried found (.inl hp), ← List.append_assoc]
    exact ⟨full', fun _ _ absurd => nomatch absurd⟩
  | some p =>
    have older := nodeSound.parent_lt p hp
    obtain ⟨m, foundParent⟩ := exists_node (Nat.lt_trans older (lt_size found))
    obtain ⟨part, guards, next, leads⟩ := inside p hp
    have result : g.Captures (log ++ s.capturesLog id ++ [a]) part a.result :=
      .sequence leads (List.mem_append_right _ List.mem_cons_self)
    rw [nodeSound.resume_eq, hp] at resumes
    simp only [Option.bind_some, resumeInside, foundParent] at resumes
    cases finishing : m.continues with
    | true =>
      -- Matching went on at the parent itself.
      simp only [finishing, ↓reduceIte] at resumes
      subst resumes
      rw [chainLog_of_last _ carried found (.inr hp), chainOnto_of_last _ carried found (.inr hp),
        ← List.append_assoc]
      refine ⟨full', ?_⟩
      intro stop part' same next'
      cases same
      rw [next] at next'
      cases next'
      exact result
    | false =>
      -- The parent is finished in turn, its last part being this sequence.
      simp only [finishing, Bool.false_eq_true, ↓reduceIte] at resumes
      have going : Option.some p ≠ stop? := by
        intro same
        have := resume_lt h.sound foundParent (resumes.trans same.symm)
        omega
      rw [nextPart?_of_node foundParent] at next
      have h' := h.mono (List.subset_append_left log (s.capturesLog id ++ [a]))
      rw [← List.append_assoc] at h'
      have chain := (before p older m _ foundParent h' full').2 stop? [a.result] resumes
      rw [drop_of_last next finishing] at chain
      have later := chain (.cons result .nil)
      rw [chainLog_of_parent stop? carried found hp older going,
        chainOnto_of_parent stop? carried found hp older going]
      simp only [List.append_assoc, List.singleton_append] at later ⊢
      exact later

theorem Full.reading {id : Nat} {n : Node} (h : s.Full defined g log) (full : g.Full log)
    (found : s.nodes[id]? = some n) : s.CapturesFull g log id n ∧ s.ChainFull g log id n := by
  -- Reading goes from a node to older ones only: its parent, what it extends, and its inner one.
  induction id using Nat.strongRecOn generalizing n log with
  | ind id ih =>
    have before : s.FullBefore defined g id := fun id' older n' log' found' h' full' =>
      ih id' older h' full' found'
    have captured := capturesFull_of_before before h full found
    exact ⟨captured, chainFull_of_before before h captured found⟩

theorem Full.slot {id previous : Nat} {n : Node} {slot : Slot} (h : s.Full defined g log)
    (full : g.Full log) (found : s.nodes[id]? = some n)
    (same : n.progress = .extended previous slot) :
    g.Full (log ++ s.slotLog previous slot) ∧
      ∀ part, s.nextPart? previous = some part →
        g.Captures (log ++ s.slotLog previous slot) part (s.slotCapture previous slot) := by
  have before : s.FullBefore defined g id := fun _ _ _ _ found' h' full' => h'.reading full' found'
  have progress := (h.sound id n found).progress
  have nodeFull := (h.node id n found).progress
  rw [same] at progress nodeFull
  obtain ⟨m, part, foundPrevious, -, next, slotFull⟩ := nodeFull
  have next' := (nextPart?_of_node foundPrevious).trans next
  obtain ⟨full', newest⟩ := slot_full before h full progress.2.1 next' slotFull
  refine ⟨full', ?_⟩
  intro part' next''
  rw [next'] at next''
  cases next''
  exact newest

theorem Full.force (h : s.Full defined g log) (full : g.Full log) (id : Nat) :
    g.Full (log ++ s.forceLog id) := by
  unfold forceLog
  split
  · next found => exact (h.slot full found rfl).1
  · rwa [List.append_nil]

/-- The result of a derivation is read when its sequence and all around it are finished. -/
theorem Full.result {id : Nat} (h : s.Full defined g log) (full : g.Full log) (inside : id < s.size)
    (finished : s.nextPart? id = none) (outermost : s.resume? id = none) :
    g.Full (log ++ s.chainLog id none []) := by
  obtain ⟨n, found⟩ := exists_node inside
  rw [nextPart?_of_node found] at finished
  rw [resume?_of_node found] at outermost
  refine ((h.reading full found).2 none [] outermost ?_).1
  rw [drop_of_finished finished]
  exact .nil

end Store

end Lockstep
