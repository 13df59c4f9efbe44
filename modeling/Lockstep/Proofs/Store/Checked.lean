import Lockstep.Proofs.Store.Persistence

set_option autoImplicit false

/-!
Reading as it goes on step by step. A slot is built at the moment it is read, in the middle of
reading another one, and every place that is looked at has to hold a node. What may go wrong is a
fault: a place without a node, a slot that is read while it is being built, and nesting without end.
In a sound store none of this happens, and what is read and built is what `buildAll?` makes of it.
-/

namespace Lockstep

inductive Fault where
  | outside (id : Nat)
  | reentered (id : Nat)
  | tooDeep

namespace Node

def fill (capture : Capture) (n : Node) : Node :=
  match n.progress with
  | .entered => n
  | .extended previous _ => { n with progress := .extended previous (.built capture) }

end Node

namespace Store

def node (s : Store) (id : Nat) : Except Fault Node :=
  match s.nodes[id]? with
  | some n => .ok n
  | none => .error (.outside id)

def fill (s : Store) (id : Nat) (capture : Capture) : Store :=
  { s with nodes := s.nodes.modify id (Node.fill capture) }

mutual

/-- The captures at `id`, while the slots at `opened` are being built. The newest is read first. -/
def gather (opened : List Nat) (s : Store) (id : Nat) :
    (levels : Nat) → Except Fault (List Capture × Store)
  | 0 => .error .tooDeep
  | levels + 1 => do
    let n ← s.node id
    match n.progress with
    | .entered => .ok ([], s)
    | .extended previous slot =>
      let (capture, s) ← readSlot opened s id previous slot levels
      let (earlier, s) ← gather opened s previous levels
      .ok (earlier ++ [capture], s)
termination_by structural levels => levels

def readSlot (opened : List Nat) (s : Store) (id previous : Nat) (slot : Slot) :
    (levels : Nat) → Except Fault (Capture × Store)
  | 0 => .error .tooDeep
  | levels + 1 =>
    match slot with
    | .built capture => .ok (capture, s)
    | .deferred inner =>
      if id ∈ opened then .error (.reentered id)
      else do
        let (capture, s) ← ascend (id :: opened) s inner (some previous) [] levels
        .ok (capture, s.fill id capture)
termination_by structural levels => levels

/-- The capture of the sequence at `id`, its last part being `carried` when there is one, and of the
sequences around it, up to those inside `stop?`. -/
def ascend (opened : List Nat) (s : Store) (id : Nat) (stop? : Option Nat)
    (carried : List Capture) : (levels : Nat) → Except Fault (Capture × Store)
  | 0 => .error .tooDeep
  | levels + 1 => do
    let n ← s.node id
    let (captures, s) ← gather opened s id levels
    let capture := n.sequence.build (captures ++ carried)
    match n.parent? with
    | none => .ok (capture, s)
    | some p =>
      if some p = stop? then .ok (capture, s) else ascend opened s p stop? [capture] levels
termination_by structural levels => levels

end

def trailFrom (s : Store) (id : Nat) : (levels : Nat) → Except Fault Trail
  | 0 => .error .tooDeep
  | levels + 1 => do
    let n ← s.node id
    match n.parent? with
    | none => .ok n.sequence.name?.toList
    | some p =>
      let names ← s.trailFrom p levels
      .ok (n.sequence.name?.toList ++ names)

def isDeferred (s : Store) (id : Nat) : Bool :=
  match s.nodes[id]? with
  | some ⟨_, _, .extended _ (.deferred _), _, _⟩ => true
  | _ => false

theorem Caches.retained {s t : Store} (h : s.Caches t) : s.Retained t :=
  ⟨Nat.le_of_eq h.size_eq.symm, h.carried⟩

section Deferred

variable {s t u : Store} {id depth : Nat}

theorem build?_of_built (built : s.isDeferred id = false) : build? (depth + 1) s id = some s := by
  unfold isDeferred at built
  unfold build?
  split
  · next found => simp only [found, Bool.true_eq_false] at built
  · rfl

theorem isDeferred_eq_false {n : Node} (found : s.nodes[id]? = some n)
    (built : ∀ previous inner, n.progress ≠ .extended previous (.deferred inner)) :
    s.isDeferred id = false := by
  unfold isDeferred
  split
  · next previous inner _ _ found' =>
    cases found.symm.trans found'
    exact absurd rfl (built previous inner)
  · rfl

theorem buildAll?_of_built (built : s.isDeferred id = false) : s.buildAll? [id] = some s := by
  rw [buildAll?, List.foldlM_cons, build?_of_built built]
  rfl

theorem Caches.isDeferred (h : s.Caches t) (built : s.isDeferred id = false)
    (inside : id < s.size) : t.isDeferred id = false := by
  obtain ⟨n, n', found, found', node⟩ := h.carried.node id inside
  have progress := node.progress
  obtain ⟨_, _, p, _, _⟩ := n
  obtain ⟨_, _, p', _, _⟩ := n'
  cases progress with
  | entered => simp only [Store.isDeferred, found']
  | extended _ carried =>
    cases carried with
    | built => simp only [Store.isDeferred, found']
    | forced => simp only [Store.isDeferred, found']
    | deferred => simp only [Store.isDeferred, found, Bool.true_eq_false] at built

theorem Caches.deferredAt_eq (sound : s.Sound) (h : s.Caches t) (inside : id < s.size) :
    t.deferredAt id = (s.deferredAt id).filter t.isDeferred := by
  induction id using Nat.strongRecOn with
  | ind id ih =>
    obtain ⟨n, n', found, found', node⟩ := h.carried.node id inside
    have progress := node.progress
    have progressSound := (sound id n found).progress
    obtain ⟨_, _, p, _, _⟩ := n
    obtain ⟨_, _, p', _, _⟩ := n'
    rw [deferredAt, deferredAt.eq_def s]
    cases progress with
    | entered => simp only [found, found', List.filter_nil]
    | @extended previous _ _ _ carried =>
      have older : previous < id := progressSound.1
      have earlier := ih previous older (Nat.lt_trans older inside)
      cases carried with
      | built => simp only [found, found', older, ↓reduceIte, earlier]
      | forced =>
        have built : t.isDeferred id = false := by simp only [Store.isDeferred, found']
        simp [found, found', older, earlier, built]
      | deferred =>
        have pending : t.isDeferred id = true := by simp only [Store.isDeferred, found']
        simp [found, found', older, earlier, pending]

theorem Caches.deferredAlong_eq (sound : s.Sound) (h : s.Caches t) (inside : id < s.size)
    (stop? : Option Nat) :
    t.deferredAlong id stop? = (s.deferredAlong id stop?).filter t.isDeferred := by
  induction id using Nat.strongRecOn with
  | ind id ih =>
    obtain ⟨n, n', found, found', node⟩ := h.carried.node id inside
    have parent_eq : n'.parent? = n.parent? := node.parent_eq.trans Option.map_id_apply
    rw [deferredAlong, deferredAlong.eq_def s]
    simp only [found, found', List.filter_append, h.deferredAt_eq sound inside, parent_eq]
    cases parent : n.parent? with
    | none => rfl
    | some p =>
      have older := (sound id n found).parent_lt p parent
      simp only [older, true_and, ih p older (Nat.lt_trans older inside)]
      split <;> rfl

theorem foldlM_filter (sound : s.Sound) (h : s.Caches t) {ids : List Nat}
    (within : ∀ i ∈ ids, i < depth ∧ i < s.size) :
    (ids.filter s.isDeferred).foldlM (build? depth) t = ids.foldlM (build? depth) t := by
  induction ids generalizing t with
  | nil => rfl
  | cons i ids ih =>
    obtain ⟨below, inside⟩ := within i List.mem_cons_self
    have rest : ∀ j ∈ ids, j < depth ∧ j < s.size := fun j mem =>
      within j (List.mem_cons_of_mem i mem)
    obtain ⟨u, built, later⟩ := build?_caches h.sound below (h.size_eq ▸ inside)
    have same := ih (h.trans sound later) rest
    cases pending : s.isDeferred i with
    | true =>
      rw [List.filter_cons_of_pos pending, List.foldlM_cons, List.foldlM_cons, built]
      exact same
    | false =>
      obtain ⟨depth, rfl⟩ := Nat.exists_eq_succ_of_ne_zero (Nat.ne_of_gt (Nat.zero_lt_of_lt below))
      rw [build?_of_built (h.isDeferred pending inside)] at built
      cases built
      rw [List.filter_cons_of_neg (by simpa using pending), List.foldlM_cons,
        build?_of_built (h.isDeferred pending inside)]
      exact same

end Deferred

section Local

variable {s t u : Store} {id k depth : Nat}

theorem foldlM_node {build : Store → Nat → Option Store} {ids : List Nat}
    (keeps : ∀ v w i, s.Retained v → i ∈ ids → build v i = some w →
      s.Retained w ∧ w.nodes[k]? = v.nodes[k]?)
    (h : s.Retained t) (built : ids.foldlM build t = some u) : u.nodes[k]? = t.nodes[k]? := by
  induction ids generalizing t with
  | nil =>
    cases built
    rfl
  | cons i ids ih =>
    obtain ⟨v, first, rest⟩ := Option.bind_eq_some_iff.mp built
    obtain ⟨held, same⟩ := keeps t v i h List.mem_cons_self first
    exact (ih (fun v w j held mem => keeps v w j held (List.mem_cons_of_mem i mem)) held rest).trans
      same

variable (sound : s.Sound)
include sound

theorem build?_node_of_lt (h : s.Retained t) (inside : id < s.size) (older : id < k)
    (built : build? depth t id = some u) : u.nodes[k]? = t.nodes[k]? := by
  induction depth generalizing t u id with
  | zero => cases built
  | succ depth ih =>
    rw [build?] at built
    split at built
    · next previous inner _ _ found =>
      have olderInner := h.inner_lt sound inside found rfl
      split at built
      · obtain ⟨v, read, rfl⟩ := Option.map_eq_some_iff.mp built
        rw [force_node_of_ne v (by omega)]
        refine foldlM_node (fun v w i held mem first => ⟨held.build? sound first, ?_⟩) h read
        have le := t.deferredAlong_le inner (some previous) i mem
        exact ih held (by omega) (by omega) first
      · cases built
    · cases built
      rfl

end Local

/-- The outcome is `a`, with the slots at `ids` built, of which none is later than `id`. -/
def Builds {α : Type} (s : Store) (ids : List Nat) (id : Nat)
    (outcome : Except Fault (α × Store)) (a : α) : Prop :=
  ∃ t, outcome = .ok (a, t) ∧ ∀ depth, id < depth → ids.foldlM (build? depth) s = some t

theorem Builds.done {α : Type} {s : Store} {ids : List Nat} {id : Nat}
    {outcome : Except Fault (α × Store)} {a : α} (sound : s.Sound) (inside : id < s.size)
    (within : ∀ i ∈ ids, i ≤ id) (h : s.Builds ids id outcome a) :
    ∃ t, outcome = .ok (a, t) ∧ s.Caches t ∧
      (∀ depth, id < depth → ids.foldlM (build? depth) s = some t) ∧
      ∀ k, id < k → t.nodes[k]? = s.nodes[k]? := by
  obtain ⟨t, done, built⟩ := h
  have here := built (id + 1) (Nat.lt_succ_self id)
  obtain ⟨t', built', caches⟩ := foldlM_caches sound (build? (id + 1)) (id + 1)
    (fun t i soundT below insideT => build?_caches soundT below insideT) ids fun i mem => by
      have le := within i mem
      omega
  obtain rfl := Option.some.inj (here.symm.trans built')
  refine ⟨t, done, caches, built, fun k later => ?_⟩
  refine foldlM_node (fun v w i held mem first => ⟨held.build? sound first, ?_⟩) (.refl sound) here
  have le := within i mem
  exact build?_node_of_lt sound held (by omega) (by omega) first

section Reading

variable {s t u : Store} {opened : List Nat} {id levels : Nat}

theorem node_eq {n : Node} (found : s.nodes[id]? = some n) : s.node id = .ok n := by
  simp only [node, found]

def Gathers (id : Nat) : Prop :=
  ∀ (s : Store) (opened : List Nat) (levels : Nat), s.Sound → id < s.size →
    (∀ i ∈ opened, id < i) → 3 * id + 1 ≤ levels →
    s.Builds (s.deferredAt id) id (gather opened s id levels) (s.captures id)

def Ascends (id : Nat) : Prop :=
  ∀ (s : Store) (opened : List Nat) (levels : Nat) (stop? : Option Nat) (carried : List Capture),
    s.Sound → id < s.size → (∀ i ∈ opened, id < i) → 3 * id + 2 ≤ levels →
    s.Builds (s.deferredAlong id stop?) id (ascend opened s id stop? carried levels)
      (s.chainOnto id stop? carried)

theorem fill_eq_force {previous inner : Nat} {n : Node} (found : t.nodes[id]? = some n)
    (deferred : n.progress = .extended previous (.deferred inner)) :
    t.fill id (t.chain inner (some previous)) = t.force id := by
  obtain ⟨parent?, sequence, progress, count, resume?⟩ := n
  cases deferred
  simp only [fill, force, found]
  congr 1
  refine Array.ext_getElem? fun i => ?_
  by_cases here : i = id
  · subst here
    rw [Array.getElem?_modify, if_pos rfl, found,
      Array.getElem?_setIfInBounds_self_of_lt (lt_size found)]
    rfl
  · rw [Array.getElem?_modify, if_neg fun same => here same.symm,
      Array.getElem?_setIfInBounds_ne fun same => here same.symm]

def unbuilt (id : Nat) : Slot → List Nat
  | .built _ => []
  | .deferred _ => [id]

theorem unbuilt_le {slot : Slot} : ∀ i ∈ unbuilt id slot, i ≤ id := by
  cases slot with
  | built capture => exact fun i mem => absurd mem List.not_mem_nil
  | deferred inner => exact fun i mem => Nat.le_of_eq (List.mem_singleton.mp mem)

theorem deferredAt_of_extended {n : Node} {previous : Nat} {slot : Slot}
    (found : s.nodes[id]? = some n) (progress : n.progress = .extended previous slot)
    (older : previous < id) : s.deferredAt id = unbuilt id slot ++ s.deferredAt previous := by
  rw [deferredAt]
  cases slot with
  | built capture => simp only [found, progress, older, ↓reduceIte, unbuilt, List.nil_append]
  | deferred inner => simp only [found, progress, older, ↓reduceIte, unbuilt, List.singleton_append]

theorem buildAll?_unbuilt {n : Node} {previous : Nat} {slot : Slot}
    (found : s.nodes[id]? = some n) (progress : n.progress = .extended previous slot) :
    s.buildAll? (unbuilt id slot) = s.buildAll? [id] := by
  cases slot with
  | deferred inner => rfl
  | built capture =>
    have built : s.isDeferred id = false := by
      refine isDeferred_eq_false found fun previous inner deferred => ?_
      cases progress.symm.trans deferred
    rw [buildAll?_of_built built]
    rfl

/-- A slot goes to an older node, so reading it comes to older nodes only. -/
theorem readSlot_builds (before : ∀ i < id, Ascends i) (sound : s.Sound) {n : Node}
    {previous : Nat} {slot : Slot} (found : s.nodes[id]? = some n)
    (progress : n.progress = .extended previous slot) (later : ∀ i ∈ opened, id < i)
    (enough : 3 * id ≤ levels) :
    s.Builds (unbuilt id slot) id (readSlot opened s id previous slot levels)
      (s.slotCapture previous slot) := by
  have progressSound := (sound id n found).progress
  rw [progress] at progressSound
  obtain ⟨older, slotSound, -⟩ := progressSound
  obtain ⟨levels, rfl⟩ := Nat.exists_eq_succ_of_ne_zero (show levels ≠ 0 by omega)
  cases slot with
  | built capture => exact ⟨s, rfl, fun _ _ => rfl⟩
  | deferred inner =>
    have olderInner : inner < id := slotSound
    have insideInner := Nat.lt_trans olderInner (lt_size found)
    have closed : id ∉ opened := fun mem => Nat.lt_irrefl id (later id mem)
    have laterInner : ∀ i ∈ id :: opened, inner < i := by
      intro i mem
      rcases List.mem_cons.mp mem with rfl | mem
      · exact olderInner
      · exact Nat.lt_trans olderInner (later i mem)
    have chain := before inner olderInner s (id :: opened) levels (some previous) [] sound
      insideInner laterInner (by omega)
    obtain ⟨t, done, caches, built, untouched⟩ :=
      chain.done sound insideInner (s.deferredAlong_le inner (some previous))
    have foundT : t.nodes[id]? = some n := (untouched id olderInner).trans found
    have same : t.chain inner (some previous) = s.chain inner (some previous) :=
      caches.retained.chainOnto_eq sound insideInner (some previous) []
    refine ⟨t.force id, ?_, ?_⟩
    · rw [← fill_eq_force foundT progress, same, readSlot, if_neg closed, done]
      rfl
    · intro depth below
      obtain ⟨depth, rfl⟩ := Nat.exists_eq_succ_of_ne_zero (show depth ≠ 0 by omega)
      obtain ⟨parent?, sequence, progress, count, resume?⟩ := n
      cases progress
      rw [unbuilt, List.foldlM_cons, build?]
      simp only [found, insideInner, ↓reduceIte, built depth (by omega)]
      rfl

theorem Builds.after {α : Type} {ids ids' : List Nat} {id' : Nat} {t : Store}
    {outcome : Except Fault (α × Store)} {a : α} (inside : id' < s.size) (caches : s.Caches t)
    (built : ∀ depth, id < depth → ids.foldlM (build? depth) s = some t)
    (older : id' ≤ id) (within : ∀ i ∈ ids', i ≤ id')
    (h : t.Builds (ids'.filter t.isDeferred) id' outcome a) :
    ∃ u, outcome = .ok (a, u) ∧
      ∀ depth, id < depth → (ids ++ ids').foldlM (build? depth) s = some u := by
  obtain ⟨u, done, built'⟩ := h
  refine ⟨u, done, fun depth below => ?_⟩
  rw [List.foldlM_append, built depth below]
  refine Eq.trans ?_ (built' depth (Nat.lt_of_le_of_lt older below))
  refine (foldlM_filter caches.sound (.refl caches.sound) fun i mem => ?_).symm
  have le := within i mem
  rw [caches.size_eq]
  omega

theorem gathers_of_before (before : ∀ i < id, Gathers i ∧ Ascends i) : Gathers id := by
  intro s opened levels sound inside later enough
  obtain ⟨n, found⟩ := exists_node inside
  have progressSound := (sound id n found).progress
  obtain ⟨levels, rfl⟩ := Nat.exists_eq_succ_of_ne_zero (show levels ≠ 0 by omega)
  cases progress : n.progress with
  | entered =>
    refine ⟨s, ?_, fun depth below => ?_⟩
    · rw [captures_of_entered found progress, gather, node_eq found]
      simp only [bind, Except.bind, progress]
    · rw [deferredAt]
      simp only [found, progress]
      rfl
  | extended previous slot =>
    rw [progress] at progressSound
    obtain ⟨older, slotSound, -⟩ := progressSound
    have insidePrevious := Nat.lt_trans older inside
    have read : s.Builds (unbuilt id slot) id (readSlot opened s id previous slot levels)
        (s.slotCapture previous slot) :=
      readSlot_builds (fun i lt => (before i lt).2) sound found progress later (by omega)
    obtain ⟨t, done, caches, built, -⟩ := read.done sound inside unbuilt_le
    have earlier := (before previous older).1 t opened levels caches.sound
      (caches.size_eq ▸ insidePrevious) (fun i mem => Nat.lt_trans older (later i mem)) (by omega)
    rw [caches.deferredAt_eq sound insidePrevious, (caches.reading_eq sound insidePrevious).1]
      at earlier
    obtain ⟨u, done', built'⟩ := earlier.after insidePrevious caches built
      (Nat.le_of_lt older) (s.deferredAt_le previous)
    refine ⟨u, ?_, ?_⟩
    · rw [captures_of_extended found progress older slotSound, gather, node_eq found]
      simp only [progress, bind, Except.bind, done, done']
    · rw [deferredAt_of_extended found progress older]
      exact built'

theorem ascends_of_before (gathers : Gathers id) (before : ∀ i < id, Ascends i) : Ascends id := by
  intro s opened levels stop? carried sound inside later enough
  obtain ⟨n, found⟩ := exists_node inside
  obtain ⟨levels, rfl⟩ := Nat.exists_eq_succ_of_ne_zero (show levels ≠ 0 by omega)
  obtain ⟨t, done, caches, built, -⟩ := (gathers s opened levels sound inside later
    (by omega)).done sound inside (s.deferredAt_le id)
  by_cases going : ∃ p, n.parent? = some p ∧ some p ≠ stop?
  · obtain ⟨p, parent, going⟩ := going
    have older := (sound id n found).parent_lt p parent
    have insideParent := Nat.lt_trans older inside
    have above := before p older t opened levels stop? [n.sequence.build (s.captures id ++ carried)]
      caches.sound (caches.size_eq ▸ insideParent) (fun i mem => Nat.lt_trans older (later i mem))
      (by omega)
    rw [caches.deferredAlong_eq sound insideParent,
      caches.retained.chainOnto_eq sound insideParent] at above
    obtain ⟨u, done', built'⟩ := above.after insideParent caches built
      (Nat.le_of_lt older) (s.deferredAlong_le p stop?)
    refine ⟨u, ?_, ?_⟩
    · rw [chainOnto_of_parent stop? carried found parent older going, ascend, node_eq found]
      simp only [parent, going, bind, Except.bind, done, done', ↓reduceIte]
    · rw [deferredAlong]
      simp only [found, parent, older, going, ne_eq, not_false_eq_true, and_self, ↓reduceIte]
      exact built'
  · have last : n.parent? = none ∨ n.parent? = stop? := by
      cases parent : n.parent? with
      | none => exact .inl rfl
      | some p => exact .inr (Decidable.not_not.mp fun differ => going ⟨p, parent, differ⟩)
    have only : s.deferredAlong id stop? = s.deferredAt id := by
      rw [deferredAlong]
      rcases last with none | same
      · simp only [found, none, List.append_nil]
      · cases parent : n.parent? <;> simp [found, parent, ← same]
    refine ⟨t, ?_, only ▸ built⟩
    rw [chainOnto_of_last stop? carried found last, ascend, node_eq found]
    rcases last with none | same
    · simp only [none, bind, Except.bind, done]
    · cases parent : n.parent? with
      | none => simp only [parent, bind, Except.bind, done]
      | some p =>
        rw [parent] at same
        simp only [parent, ← same, bind, Except.bind, done, ↓reduceIte]

/-- Reading goes from a node to older ones only, whichever of its links it follows. -/
theorem gathers_and_ascends (id : Nat) : Gathers id ∧ Ascends id := by
  induction id using Nat.strongRecOn with
  | ind id ih =>
    have gathers := gathers_of_before ih
    exact ⟨gathers, ascends_of_before gathers fun i lt => (ih i lt).2⟩

theorem trailFrom_eq (sound : s.Sound) (inside : id < s.size) (enough : id < levels) :
    s.trailFrom id levels = .ok (s.trail id) := by
  induction id using Nat.strongRecOn generalizing levels with
  | ind id ih =>
    obtain ⟨n, found⟩ := exists_node inside
    obtain ⟨levels, rfl⟩ := Nat.exists_eq_succ_of_ne_zero (Nat.ne_of_gt (Nat.zero_lt_of_lt enough))
    rw [trail, trailFrom, node_eq found]
    cases parent : n.parent? with
    | none => simp only [found, parent, bind, Except.bind, List.append_nil]
    | some p =>
      have older := (sound id n found).parent_lt p parent
      simp only [found, parent, older, bind, Except.bind, ↓reduceIte]
      rw [ih p older (Nat.lt_trans older inside) (by omega)]

end Reading

end Store

end Lockstep
