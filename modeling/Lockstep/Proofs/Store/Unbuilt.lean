import Lockstep.Proofs.Store.Visible

set_option autoImplicit false

/-!
Slots that are not built yet. Making nodes, forcing slots and moving nodes bring no more of them in
sight of the nodes that there were. So a list of those that a node sees stays complete, and going on
from the node it is enough to add the slots that are deferred on the way. Once all that are listed
have been forced, none is left.
-/

namespace Lockstep

namespace Progress

def isDeferred : Progress → Bool
  | .extended _ (.deferred _) => true
  | _ => false

end Progress

namespace Store

def isUnbuilt (s : Store) (id : Nat) : Bool := s.nodes[id]?.any fun n => n.progress.isDeferred

def unbuiltFrom (s : Store) (first : Nat) : List Nat :=
  ((List.range' first (s.size - first)).filter s.isUnbuilt).reverse

/-- All slots not built yet that are seen from `node` are among `fresh`. -/
def Lists (s : Store) (node : Nat) (fresh : List Nat) : Prop :=
  ∀ id, s.Sees [node] id → s.isUnbuilt id = true → id ∈ fresh

/-- The derivation at `node` lists in `fresh` all slots that are still to be built for it, and these
are the ones in `made`. -/
structure Owes (s : Store) (node : Nat) (fresh made : List Nat) : Prop where
  inside : node < s.size
  lists : s.Lists node fresh
  fresh_eq : fresh = made

/-- `s'` follows `s`, and from the nodes of `s` no more slots are seen there that are not built. -/
structure Eases (s s' : Store) : Prop where
  follows : s.Follows s'
  lists : ∀ {node : Nat} {fresh : List Nat}, node < s.size → s.Lists node fresh → s'.Lists node fresh

variable {s s' : Store} {roots fresh made : List Nat} {node id l : Nat} {n : Node}

theorem isUnbuilt_of_node (found : s.nodes[id]? = some n) : s.isUnbuilt id = n.progress.isDeferred := by
  rw [isUnbuilt, found, Option.any_some]

theorem mem_unbuiltFrom {first : Nat} (mem : id ∈ s.unbuiltFrom first) : first ≤ id := by
  rw [unbuiltFrom, List.mem_reverse, List.mem_filter, List.mem_range'_1] at mem
  exact mem.1.1

theorem unbuiltFrom_size (s : Store) : s.unbuiltFrom s.size = [] := by
  rw [unbuiltFrom, Nat.sub_self]
  rfl

theorem unbuiltFrom_succ {first : Nat} (inside : first < s.size) :
    s.unbuiltFrom first =
      s.unbuiltFrom (first + 1) ++ if s.isUnbuilt first then [first] else [] := by
  have count : s.size - first = s.size - (first + 1) + 1 := by omega
  rw [unbuiltFrom, count, List.range'_succ, List.filter_cons, unbuiltFrom]
  split
  · rw [List.reverse_cons]
  · rw [List.append_nil]

section Sees

/-- Whatever holds of the roots and passes along links holds of all that the roots see. -/
theorem Sees.by_links {motive : Nat → Prop} (h : s.Sees roots id)
    (root : ∀ id ∈ roots, motive id)
    (link : ∀ id n l, motive id → s.nodes[id]? = some n → l ∈ n.links → motive l) : motive id := by
  induction h with
  | root mem => exact root _ mem
  | parent _ found same ih => exact link _ _ _ ih found (by simp [Node.links, same])
  | resume _ found same ih => exact link _ _ _ ih found (by simp [Node.links, same])
  | @previous _ _ slot _ _ found same ih =>
    exact link _ _ _ ih found (by cases slot <;> simp [Node.links, same, Progress.links])
  | inner _ found same ih => exact link _ _ _ ih found (by simp [Node.links, same, Progress.links])

theorem sees_self (s : Store) (node : Nat) : s.Sees [node] node := .root (List.mem_singleton_self node)

theorem Sees.trans (h : s.Sees roots node) (k : s.Sees [node] id) : s.Sees roots id := by
  refine k.by_links (motive := s.Sees roots) ?_ fun _ _ _ sees found link => sees.link found link
  intro id mem
  exact List.mem_singleton.mp mem ▸ h

theorem Sees.le (sound : s.Sound) (h : s.Sees [node] id) : id ≤ node := by
  refine h.by_links (motive := (· ≤ node)) (fun id mem => Nat.le_of_eq (List.mem_singleton.mp mem)) ?_
  intro id n l le found link
  exact Nat.le_trans (Nat.le_of_lt (link_lt sound found link)) le

theorem Sees.of_node (found : s.nodes[node]? = some n) (h : s.Sees [node] id) :
    id = node ∨ ∃ l ∈ n.links, s.Sees [l] id := by
  refine h.by_links (motive := fun id => id = node ∨ ∃ l ∈ n.links, s.Sees [l] id)
    (fun id mem => .inl (List.mem_singleton.mp mem)) ?_
  intro id m l before foundId link
  rcases before with rfl | ⟨first, direct, sees⟩
  · obtain rfl : m = n := Option.some.inj (foundId.symm.trans found)
    exact .inr ⟨l, link, s.sees_self l⟩
  · exact .inr ⟨first, direct, sees.link foundId link⟩

theorem Lists.of_sees (h : s.Lists node fresh) (sees : s.Sees [node] id) : s.Lists id fresh :=
  fun later sees' unbuilt => h later (sees.trans sees') unbuilt

theorem Lists.of_link (h : s.Lists node fresh) (found : s.nodes[node]? = some n) (link : l ∈ n.links) :
    s.Lists l fresh :=
  h.of_sees ((s.sees_self node).link found link)

end Sees

section Carried

variable {live : Nat → Prop} {place : Nat → Nat} {n' : Node}

theorem links_of_carried (h : n.Carried s live place n') : ∀ l' ∈ n'.links, ∃ l ∈ n.links, l' = place l := by
  intro l' link
  simp only [Node.links, List.mem_append, Option.mem_toList, h.parent_eq, h.resume_eq,
    Option.map_eq_some_iff] at link
  rcases link with (⟨p, parent, rfl⟩ | ⟨r, resume, rfl⟩) | progress
  · exact ⟨p, by simp [Node.links, parent], rfl⟩
  · exact ⟨r, by simp [Node.links, resume], rfl⟩
  · have carried := h.progress
    have links : ∀ l ∈ n.progress.links, l ∈ n.links := fun l mem => List.mem_append_right _ mem
    generalize n.progress = progress₁ at carried links
    generalize n'.progress = progress₂ at carried progress
    cases carried with
    | entered => cases progress
    | extended _ slot =>
      cases slot with
      | built | forced =>
        rw [Progress.links, List.mem_singleton] at progress
        exact ⟨_, links _ List.mem_cons_self, progress⟩
      | deferred =>
        rw [Progress.links, List.mem_pair] at progress
        rcases progress with rfl | rfl
        · exact ⟨_, links _ List.mem_cons_self, rfl⟩
        · exact ⟨_, links _ (List.mem_cons_of_mem _ List.mem_cons_self), rfl⟩

theorem isDeferred_of_carried (h : n.Carried s live place n') (deferred : n'.progress.isDeferred = true) :
    n.progress.isDeferred = true := by
  have carried := h.progress
  generalize n.progress = progress₁ at carried ⊢
  generalize n'.progress = progress₂ at carried deferred
  cases carried with
  | entered => cases deferred
  | extended _ slot =>
    cases slot with
    | built | forced => cases deferred
    | deferred => rfl

variable (carried : s.Carried live place s')
  (closed : ∀ {id l : Nat} {n : Node}, live id → s.nodes[id]? = some n → l ∈ n.links → live l)
include carried closed

theorem Carried.sees_back (alive : live node) {id' : Nat} (h : s'.Sees [place node] id') :
    ∃ id, live id ∧ id' = place id ∧ s.Sees [node] id := by
  refine h.by_links (motive := fun id' => ∃ id, live id ∧ id' = place id ∧ s.Sees [node] id) ?_ ?_
  · intro id' mem
    exact ⟨node, alive, List.mem_singleton.mp mem, s.sees_self node⟩
  · rintro id' m' l' ⟨id, aliveId, rfl, sees⟩ found' link'
    obtain ⟨m, k', found, foundK, node⟩ := carried.node id aliveId
    obtain rfl : m' = k' := Option.some.inj (found'.symm.trans foundK)
    obtain ⟨l, link, rfl⟩ := links_of_carried node l' link'
    exact ⟨l, closed aliveId found link, rfl, sees.link found link⟩

theorem Carried.lists (alive : live node) (h : s.Lists node fresh) :
    s'.Lists (place node) (fresh.map place) := by
  intro id' sees unbuilt
  obtain ⟨id, aliveId, rfl, seesId⟩ := carried.sees_back closed alive sees
  obtain ⟨m, m', found, found', node⟩ := carried.node id aliveId
  rw [isUnbuilt_of_node found'] at unbuilt
  refine List.mem_map_of_mem (h id seesId ?_)
  rw [isUnbuilt_of_node found]
  exact isDeferred_of_carried node unbuilt

end Carried

theorem Eases.refl (sound : s.Sound) : s.Eases s := ⟨.refl sound, fun _ h => h⟩

theorem Eases.trans {t : Store} (h : s.Eases s') (k : s'.Eases t) : s.Eases t :=
  ⟨h.follows.trans k.follows, fun inside lists =>
    k.lists (Nat.lt_of_lt_of_le inside h.follows.size_le) (h.lists inside lists)⟩

theorem Eases.owes (h : s.Eases s') (owes : s.Owes node fresh made) : s'.Owes node fresh made :=
  ⟨Nat.lt_of_lt_of_le owes.inside h.follows.size_le, h.lists owes.inside owes.lists, owes.fresh_eq⟩

theorem links_inside (sound : s.Sound) (found : s.nodes[id]? = some n) (link : l ∈ n.links) :
    l < s.size :=
  Nat.lt_trans (link_lt sound found link) (lt_size found)

theorem Eases.of_carried (sound : s.Sound) (carried : s.Carried (· < s.size) (fun i => i) s')
    (follows : s.Follows s') : s.Eases s' := by
  refine ⟨follows, fun inside lists => ?_⟩
  have moved := carried.lists (fun _ found link => links_inside sound found link) inside lists
  rwa [List.map_id'] at moved

section Push

theorem isUnbuilt_push_size (s : Store) (n : Node) :
    (s.push n).2.isUnbuilt s.size = n.progress.isDeferred :=
  isUnbuilt_of_node Array.getElem?_push_size

theorem isUnbuilt_push_of_lt (n : Node) (inside : id < s.size) :
    (s.push n).2.isUnbuilt id = s.isUnbuilt id := by
  rw [isUnbuilt, push_node_of_lt n inside, isUnbuilt]

/-- A new node sees what the nodes see that it goes to, and its own slot. -/
theorem lists_push {n : Node} (eases : s.Eases (s.push n).2)
    (linked : ∀ l ∈ n.links, l < s.size ∧ s.Lists l fresh) :
    (s.push n).2.Lists s.size (if n.progress.isDeferred then s.size :: fresh else fresh) := by
  intro id sees unbuilt
  rcases sees.of_node Array.getElem?_push_size with rfl | ⟨l, link, seesId⟩
  · rw [isUnbuilt_push_size] at unbuilt
    rw [if_pos unbuilt]
    exact List.mem_cons_self
  · obtain ⟨inside, lists⟩ := linked l link
    have listed := eases.lists inside lists id seesId unbuilt
    split
    · exact List.mem_cons_of_mem _ listed
    · exact listed

theorem size_push (s : Store) (n : Node) : (s.push n).2.size = s.size + 1 := Array.size_push n

end Push

section Made

variable (sound : s.Sound)
include sound

theorem resumeInside_listed (inside : node < s.size) (lists : s.Lists node fresh) {r : Nat}
    (resumes : s.resumeInside node = some r) : r < s.size ∧ s.Lists r fresh := by
  obtain ⟨n, found⟩ := exists_node inside
  rw [resumeInside, found, Option.bind_some] at resumes
  split at resumes
  · cases resumes
    exact ⟨inside, lists⟩
  · have link : r ∈ n.links := by simp [Node.links, resumes]
    exact ⟨links_inside sound found link, lists.of_link found link⟩

theorem enter_eases {parent? : Option Nat} (sequence : Sequence)
    (inside : ∀ p, parent? = some p → p < s.size) : s.Eases (s.enter parent? sequence).2 :=
  .of_carried sound (push_carried sound _) (enter_follows sound sequence inside)

theorem lists_enter (inside : node < s.size) (lists : s.Lists node fresh) (sequence : Sequence) :
    (s.enter (some node) sequence).2.Lists s.size fresh := by
  have parents : ∀ p, some node = some p → p < s.size := fun _ same => Option.some.inj same ▸ inside
  have eases := enter_eases sound sequence parents
  refine lists_push (n := ⟨some node, sequence, .entered, 0, s.resumeInside node⟩) eases ?_
  intro l link
  simp only [Node.links, Progress.links, Option.toList_some, List.append_nil, List.mem_append,
    List.mem_singleton, Option.mem_toList] at link
  rcases link with rfl | resumes
  · exact ⟨inside, lists⟩
  · exact resumeInside_listed sound inside lists resumes

theorem extend_eases (found : s.nodes[id]? = some n) (slot : Slot) (slotSound : SlotSound s.size slot) :
    s.Eases (s.extend id slot).2 := by
  refine .of_carried sound ?_ (extend_follows sound found slot slotSound)
  rw [extend_eq found]
  exact push_carried sound _

/-- An extended node sees what the node does that it extends, and what the inner sequence of its slot
does. -/
theorem lists_extend (found : s.nodes[id]? = some n) (slot : Slot) (slotSound : SlotSound s.size slot)
    (lists : s.Lists id fresh) (inner : ∀ inner, slot = .deferred inner → s.Lists inner fresh) :
    (s.extend id slot).2.Lists s.size
      (if (Progress.extended id slot).isDeferred then s.size :: fresh else fresh) := by
  have eases := extend_eases sound found slot slotSound
  have old : ∀ l ∈ n.links, l < s.size ∧ s.Lists l fresh := fun l link =>
    ⟨links_inside sound found link, lists.of_link found link⟩
  rw [extend_eq found] at eases ⊢
  refine lists_push (n := extension id n slot) eases ?_
  intro l link
  simp only [Node.links, extension, List.mem_append, Option.mem_toList] at link
  rcases link with (parent | resumes) | progress
  · exact old l (by simp [Node.links, parent])
  · exact old l (by simp [Node.links, resumes])
  · cases slot with
    | built capture =>
      rw [Progress.links, List.mem_singleton] at progress
      exact progress ▸ ⟨lt_size found, lists⟩
    | deferred inside =>
      rw [Progress.links, List.mem_pair] at progress
      rcases progress with rfl | rfl
      · exact ⟨lt_size found, lists⟩
      · exact ⟨slotSound, inner _ rfl⟩

/-- The node where matching goes on is extended by the one slot that is not built among the new. -/
theorem addFinished_owes (owes : s.Owes node fresh made) (found : s.nodes[node]? = some n) {outer : Nat}
    (link : outer ∈ n.links) :
    let t := (s.addFinished outer node).2
    s.Eases t ∧ t.Owes s.size (s.size :: fresh) (t.unbuiltFrom s.size ++ made) ∧
      ∀ id < s.size, t.isUnbuilt id = s.isUnbuilt id := by
  obtain ⟨k, foundOuter⟩ := exists_node (links_inside sound found link)
  have eases := extend_eases sound foundOuter (.deferred node) owes.inside
  have lists := lists_extend sound foundOuter (.deferred node) owes.inside
    (owes.lists.of_link found link) fun _ same => Slot.deferred.inj same ▸ owes.lists
  simp only [addFinished, extend_eq foundOuter] at eases lists ⊢
  have last : s.size < (s.push (extension outer k (.deferred node))).2.size := by
    rw [size_push]
    exact Nat.lt_succ_self _
  have deferred : (s.push (extension outer k (.deferred node))).2.isUnbuilt s.size = true :=
    isUnbuilt_push_size s _
  refine ⟨eases, ⟨last, lists, ?_⟩, fun id inside => isUnbuilt_push_of_lt _ inside⟩
  rw [unbuiltFrom_succ last, ← size_push s (extension outer k (.deferred node)), unbuiltFrom_size,
    deferred, owes.fresh_eq]
  rfl

omit sound in
theorem node_stepAt (s : Store) (node : Nat) : (s.stepAt node).node = node := by
  rw [stepAt]
  split <;> rfl

/-- Settling a derivation defers no slot but the one that it lists. -/
theorem settle_owes (owes : s.Owes node fresh made) :
    let r := s.settle node fresh
    s.Eases r.2.2 ∧ r.2.2.Owes r.1.node r.2.1 (r.2.2.unbuiltFrom s.size ++ made) ∧
      ∀ id < s.size, r.2.2.isUnbuilt id = s.isUnbuilt id := by
  have still : s.Owes node fresh (s.unbuiltFrom s.size ++ made) := by
    rw [unbuiltFrom_size]
    exact owes
  rw [settle]
  cases next : s.nextPart? node with
  | some m => exact ⟨.refl sound, still, fun _ _ => rfl⟩
  | none =>
    cases resumes : s.resume? node with
    | none => exact ⟨.refl sound, still, fun _ _ => rfl⟩
    | some outer =>
      obtain ⟨n, found⟩ := exists_node owes.inside
      have link : outer ∈ n.links := by
        rw [resume?_of_node found] at resumes
        simp [Node.links, resumes]
      obtain ⟨k, foundOuter⟩ := exists_node (links_inside sound found link)
      have place : (s.addFinished outer node).1 = s.size := extend_fst foundOuter _
      simp only [place, node_stepAt]
      exact addFinished_owes sound owes found link

omit sound in
theorem settle_push_owes {n : Node} (eases : s.Eases (s.push n).2)
    (owes : (s.push n).2.Owes s.size fresh made) (built : n.progress.isDeferred = false) :
    let r := (s.push n).2.settle s.size fresh
    s.Eases r.2.2 ∧ r.2.2.Owes r.1.node r.2.1 (r.2.2.unbuiltFrom s.size ++ made) := by
  obtain ⟨later, settled, same⟩ := settle_owes eases.follows.sound owes
  have all := eases.trans later
  refine ⟨all, ?_⟩
  have none : ((s.push n).2.settle s.size fresh).2.2.isUnbuilt s.size = false := by
    rw [same s.size owes.inside, isUnbuilt_push_size, built]
  rw [unbuiltFrom_succ (Nat.lt_of_lt_of_le owes.inside later.follows.size_le), none, ← size_push s n]
  simpa only [Bool.false_eq_true, ↓reduceIte, List.append_nil] using settled

theorem advance_owes (owes : s.Owes node fresh made) (capture : Capture) :
    let r := s.advance node capture fresh
    s.Eases r.2.2 ∧ r.2.2.Owes r.1.node r.2.1 (r.2.2.unbuiltFrom s.size ++ made) := by
  obtain ⟨n, found⟩ := exists_node owes.inside
  have eases := extend_eases sound found (.built capture) trivial
  have lists := lists_extend sound found (.built capture) trivial owes.lists nofun
  rw [extend_eq found] at eases lists
  have last : s.size < (s.push (extension node n (.built capture))).2.size := by
    rw [size_push]
    exact Nat.lt_succ_self _
  simp only [advance, addCapture, extend_eq found]
  exact settle_push_owes eases ⟨last, lists, owes.fresh_eq⟩ rfl

end Made

section Force

theorem isUnbuilt_force_self (s : Store) (id : Nat) : (s.force id).isUnbuilt id = false := by
  unfold force
  split
  · next found =>
    rw [isUnbuilt, Array.getElem?_setIfInBounds_self_of_lt (lt_size found), Option.any_some]
    rfl
  · next other =>
    cases found : s.nodes[id]? with
    | none => rw [isUnbuilt, found, Option.any_none]
    | some n =>
      obtain ⟨parent?, sequence, progress, count, resume?⟩ := n
      rw [isUnbuilt_of_node found]
      cases progress with
      | entered => rfl
      | extended previous slot =>
        cases slot with
        | built capture => rfl
        | deferred inner => exact absurd found (other _ _ _ _ _ _)

theorem isUnbuilt_of_force {i : Nat} (unbuilt : (s.force i).isUnbuilt id = true) :
    s.isUnbuilt id = true := by
  by_cases same : id = i
  · subst same
    rw [isUnbuilt_force_self] at unbuilt
    cases unbuilt
  · rwa [isUnbuilt, force_node_of_ne s same] at unbuilt

theorem isUnbuilt_forceAll {ids : List Nat} (mem : id ∈ ids) : (s.forceAll ids).isUnbuilt id = false := by
  induction ids with
  | nil => cases mem
  | cons i ids ih =>
    change ((s.forceAll ids).force i).isUnbuilt id = false
    rcases List.mem_cons.mp mem with rfl | later
    · exact isUnbuilt_force_self _ id
    · exact Bool.eq_false_iff.mpr fun unbuilt =>
        Bool.eq_false_iff.mp (ih later) (isUnbuilt_of_force unbuilt)

theorem forceAll_eases (sound : s.Sound) (ids : List Nat) : s.Eases (s.forceAll ids) := by
  induction ids with
  | nil => exact .refl sound
  | cons id ids ih =>
    have now := ih.follows.sound
    exact ih.trans (.of_carried now (force_carried now id) (force_follows now id))

/-- Once all slots are forced that a derivation lists, none is left to be built for it. -/
theorem forceAll_owes (sound : s.Sound) (owes : s.Owes node fresh made) :
    s.Eases (s.forceAll fresh) ∧ (s.forceAll fresh).Owes node [] [] := by
  have eases := forceAll_eases sound fresh
  obtain ⟨inside, lists, -⟩ := eases.owes owes
  refine ⟨eases, inside, fun id sees unbuilt => ?_, rfl⟩
  rw [isUnbuilt_forceAll (lists id sees unbuilt)] at unbuilt
  cases unbuilt

theorem size_forceAll (s : Store) (ids : List Nat) : (s.forceAll ids).size = s.size := by
  induction ids with
  | nil => rfl
  | cons id ids ih => exact (size_force _ id).trans ih

end Force

/-- When nodes are dropped, lists move with what they list. -/
theorem compact_owes (sound : s.Sound) (owes : s.Owes node fresh made) (root : node ∈ roots) :
    let place := (s.compact roots).2
    (s.compact roots).1.Owes (place node) (fresh.map place) (made.map place) := by
  have carried := compact_carried s roots sound
  have alive := live_root s root owes.inside
  obtain ⟨n, n', -, found', -⟩ := carried.node node alive
  refine ⟨lt_size found', carried.lists ?_ alive owes.lists, owes.fresh_eq ▸ rfl⟩
  exact fun aliveId found link => live_link s aliveId found link (links_inside sound found link)

section Nested

/-- Slots not built yet that stand one inside the other, the outermost first: that one is seen from
`node`, and each other one from the sequence that has to be built for the one before it. -/
inductive Nested (s : Store) : (node : Nat) → List Nat → Prop where
  | nil (node : Nat) : Nested s node []
  | cons {node id previous inner : Nat} {n : Node} {ids : List Nat} (sees : s.Sees [node] id)
      (found : s.nodes[id]? = some n) (slot : n.progress = .extended previous (.deferred inner))
      (rest : Nested s inner ids) : Nested s node (id :: ids)

variable {ids : List Nat}

theorem Nested.sees (h : s.Nested node ids) : ∀ id ∈ ids, s.Sees [node] id ∧ s.isUnbuilt id = true := by
  induction h with
  | nil => exact fun _ mem => absurd mem List.not_mem_nil
  | @cons node id previous inner n ids sees found slot _ ih =>
    refine List.forall_mem_cons.mpr ⟨⟨sees, ?_⟩, fun later mem => ?_⟩
    · rw [isUnbuilt_of_node found, slot]
      rfl
    · obtain ⟨seesLater, unbuilt⟩ := ih later mem
      exact ⟨(sees.inner found slot).trans seesLater, unbuilt⟩

theorem Nested.descending (sound : s.Sound) (h : s.Nested node ids) : ids.Pairwise (· > ·) := by
  induction h with
  | nil => exact .nil
  | @cons node id previous inner n ids sees found slot rest ih =>
    refine .cons (fun later mem => ?_) ih
    have older : inner < id := link_lt sound found (by simp [Node.links, slot, Progress.links])
    exact Nat.lt_of_le_of_lt ((rest.sees later mem).1.le sound) older

/-- No more slots stand one inside the other than were deferred on the way. -/
theorem Owes.length_nested_le (sound : s.Sound) (owes : s.Owes node fresh made)
    (h : s.Nested node ids) : ids.length ≤ made.length := by
  have distinct : ids.Nodup := (h.descending sound).imp fun older => Nat.ne_of_gt older
  have listed : ids ⊆ made := by
    intro id mem
    obtain ⟨sees, unbuilt⟩ := h.sees id mem
    exact owes.fresh_eq ▸ owes.lists id sees unbuilt
  exact (distinct.subperm listed).length_le

end Nested

end Store

end Lockstep
