import Lockstep.Proofs.Store.Compacted
import Lockstep.Proofs.Store.Filling
import Lockstep.Store.Command

set_option autoImplicit false

namespace Lockstep

namespace Store

/-- `s'` is `s` with captures in the place of some slots that yield them. -/
structure Caches (s s' : Store) : Prop where
  sound : s'.Sound
  size_eq : s'.size = s.size
  allocated_eq : s'.allocated = s.allocated
  carried : s.Carried (· < s.size) (fun i => i) s'

namespace Caches

variable {s t u : Store}

theorem refl (sound : s.Sound) : s.Caches s := ⟨sound, rfl, rfl, carried_refl sound⟩

theorem reading_eq (sound : s.Sound) (h : s.Caches t) {id : Nat} (inside : id < s.size) :
    t.captures id = s.captures id ∧ ∀ stop? carried, (∀ stop, stop? = some stop → stop < s.size) →
      t.chainOnto id stop? carried = s.chainOnto id stop? carried := by
  obtain ⟨captures, chains⟩ := h.carried.reading_eq sound inside
  refine ⟨captures, fun stop? carried insideStop => ?_⟩
  have same := chains stop? carried insideStop
  rwa [Option.map_id_fun'] at same

theorem carried_trans (sound : s.Sound) (h : s.Caches t) (k : t.Caches u) :
    s.Carried (· < s.size) (fun i => i) u := by
  refine ⟨fun _ _ _ _ lt => lt, ?_⟩
  intro id inside
  obtain ⟨n, n', found, foundT, nodeT⟩ := h.carried.node id inside
  obtain ⟨m, n'', foundM, foundU, nodeU⟩ := k.carried.node id (h.size_eq ▸ inside)
  rw [foundT] at foundM
  cases foundM
  refine ⟨n, n'', found, foundU, nodeT.parent_live, ?_, ?_,
    nodeU.sequence_eq.trans nodeT.sequence_eq, nodeU.count_eq.trans nodeT.count_eq, ?_⟩
  · rw [nodeU.parent_eq, nodeT.parent_eq]
    exact Option.map_id_apply
  · rw [nodeU.resume_eq, nodeT.resume_eq]
    exact Option.map_id_apply
  · have first := nodeT.progress
    have second := nodeU.progress
    generalize n.progress = p at first
    generalize n'.progress = p' at first second
    generalize n''.progress = p'' at second
    cases first with
    | entered => cases second with | entered => exact .entered
    | @extended previous slot slot' alive slotT =>
      cases second with
      | extended _ slotU =>
        refine .extended alive ?_
        cases slotT with
        | built c => cases slotU with | built => exact .built c
        | forced inner => cases slotU with | built => exact .forced inner
        | deferred aliveInner =>
          cases slotU with
          | deferred => exact .deferred aliveInner
          | forced =>
            -- What `t` yields for the slot is what `s` does.
            have same := (h.reading_eq sound aliveInner).2 (some previous) []
              fun stop eq => by cases eq; exact alive
            rw [chain, same]
            exact .forced _

theorem trans (sound : s.Sound) (h : s.Caches t) (k : t.Caches u) : s.Caches u :=
  ⟨k.sound, k.size_eq.trans h.size_eq, k.allocated_eq.trans h.allocated_eq,
    carried_trans sound h k⟩

end Caches

theorem force_caches {s : Store} (sound : s.Sound) (id : Nat) : s.Caches (s.force id) :=
  ⟨(force_follows sound id).sound, size_force s id, allocated_force s id, force_carried sound id⟩

section Deferred

variable (s : Store)

theorem deferredAt_le (id : Nat) : ∀ j ∈ s.deferredAt id, j ≤ id := by
  induction id using Nat.strongRecOn with
  | ind id ih =>
    intro j mem
    rw [deferredAt] at mem
    cases found : s.nodes[id]? with
    | none => simp only [found, List.not_mem_nil] at mem
    | some n =>
      cases progress : n.progress with
      | entered => simp only [found, progress, List.not_mem_nil] at mem
      | extended previous slot =>
        have earlier : ∀ j ∈ (if previous < id then s.deferredAt previous else []), j ≤ id := by
          intro j mem
          split at mem
          · next older => exact Nat.le_trans (ih previous older j mem) (Nat.le_of_lt older)
          · cases mem
        cases slot with
        | built capture =>
          simp only [found, progress] at mem
          exact earlier j mem
        | deferred inner =>
          simp only [found, progress, List.mem_cons] at mem
          rcases mem with rfl | mem
          · exact Nat.le_refl _
          · exact earlier j mem

theorem deferredAlong_le (id : Nat) (stop? : Option Nat) : ∀ j ∈ s.deferredAlong id stop?, j ≤ id := by
  induction id using Nat.strongRecOn with
  | ind id ih =>
    intro j mem
    rw [deferredAlong] at mem
    cases found : s.nodes[id]? with
    | none => simp only [found, List.not_mem_nil] at mem
    | some n =>
      simp only [found, List.mem_append] at mem
      rcases mem with here | above
      · exact s.deferredAt_le id j here
      · cases parent : n.parent? with
        | none => simp only [parent, List.not_mem_nil] at above
        | some p =>
          simp only [parent] at above
          split at above
          · next going => exact Nat.le_trans (ih p going.1 j above) (Nat.le_of_lt going.1)
          · cases above

end Deferred

section Build

variable {s : Store} (sound : s.Sound)
include sound

theorem foldlM_caches (build : Store → Nat → Option Store) (bound : Nat)
    (builds : ∀ (t : Store) (id : Nat), t.Sound → id < bound → id < t.size →
      ∃ t', build t id = some t' ∧ t.Caches t')
    (ids : List Nat) (within : ∀ id ∈ ids, id < bound ∧ id < s.size) :
    ∃ s', ids.foldlM build s = some s' ∧ s.Caches s' := by
  induction ids generalizing s with
  | nil => exact ⟨s, rfl, .refl sound⟩
  | cons id ids ih =>
    obtain ⟨below, inside⟩ := within id List.mem_cons_self
    obtain ⟨t, built, caches⟩ := builds s id sound below inside
    have rest : ∀ id ∈ ids, id < bound ∧ id < t.size := by
      intro id mem
      rw [caches.size_eq]
      exact within id (List.mem_cons_of_mem _ mem)
    obtain ⟨s', rest, later⟩ := ih caches.sound rest
    refine ⟨s', ?_, caches.trans sound later⟩
    rw [List.foldlM_cons, built]
    exact rest

/-- A slot can be built, for those that it reads belong to older nodes. -/
theorem build?_caches {depth id : Nat} (below : id < depth) (inside : id < s.size) :
    ∃ s', build? depth s id = some s' ∧ s.Caches s' := by
  induction depth generalizing s id with
  | zero => cases below
  | succ depth ih =>
    rw [build?]
    split
    · next previous inner _ _ found =>
      have older : inner < id := (sound id _ found).progress.2.1
      have within : ∀ j ∈ s.deferredAlong inner (some previous), j < depth ∧ j < s.size := by
        intro j mem
        have le := s.deferredAlong_le inner (some previous) j mem
        omega
      obtain ⟨t, built, caches⟩ := foldlM_caches sound (build? depth) depth
        (fun t id sound below inside => ih sound below inside)
        (s.deferredAlong inner (some previous)) within
      rw [if_pos (Nat.lt_trans older inside), built]
      exact ⟨t.force id, rfl, caches.trans sound (force_caches caches.sound id)⟩
    · exact ⟨s, rfl, .refl sound⟩

theorem buildAll?_caches {ids : List Nat} (within : ∀ id ∈ ids, id < s.size) :
    ∃ s', s.buildAll? ids = some s' ∧ s.Caches s' := by
  refine foldlM_caches sound _ (s.size + 1) ?_ ids ?_
  · intro t id soundT below inside
    exact build?_caches soundT below inside
  · intro id mem
    have inside := within id mem
    omega

end Build

def reply? (s : Store) (c : Command) : Option Reply := (s.run? c).map Prod.fst

section Replies

variable {s : Store} {id : Nat} (inside : id < s.size)
include inside

theorem run?_of_uses {c : Command} (uses : c.uses = [id]) : s.run? c = s.perform? c := by
  rw [run?, if_pos]
  simp only [uses, List.all_cons, List.all_nil, Bool.and_true, decide_eq_true_eq]
  exact inside

theorem deferredAt_lt_size : ∀ j ∈ s.deferredAt id, j < s.size := by
  intro j mem
  exact Nat.lt_of_le_of_lt (s.deferredAt_le id j mem) inside

theorem reply?_trail : s.reply? (.trail id) = some (.trail (s.trail id)) := by
  rw [reply?, run?_of_uses inside rfl, perform?, Option.map_some]

theorem reply?_inspect :
    s.reply? (.inspect id) = some (.summary ⟨s.nextPart? id, s.resume? id, s.parent? id⟩) := by
  rw [reply?, run?_of_uses inside rfl, perform?, Option.map_some]

variable (sound : s.Sound)
include sound

theorem reply?_captures : s.reply? (.captures id) = some (.captures (s.captures id)) := by
  obtain ⟨t, built, caches⟩ := buildAll?_caches sound (deferredAt_lt_size inside)
  rw [reply?, run?_of_uses inside rfl, perform?, built]
  simp only [Option.map_some, (caches.reading_eq sound inside).1]

theorem reply?_chain {stop? : Option Nat} (insideStop : ∀ stop, stop? = some stop → stop < s.size) :
    s.reply? (.chain id stop?) = some (.capture (s.chain id stop?)) := by
  have within : ∀ j ∈ s.deferredAlong id stop?, j < s.size := fun j mem =>
    Nat.lt_of_le_of_lt (s.deferredAlong_le id stop? j mem) inside
  obtain ⟨t, built, caches⟩ := buildAll?_caches sound within
  have same := (caches.reading_eq sound inside).2 stop? [] insideStop
  rw [reply?, run?_of_uses inside rfl, perform?, built]
  simp only [Option.map_some, chain, same]

theorem reply?_complete :
    s.reply? (.complete id) = some (.completed (s.complete id).1 (s.complete id).2) := by
  obtain ⟨t, built, caches⟩ := buildAll?_caches sound (deferredAt_lt_size inside)
  obtain ⟨n, n', found, found', node⟩ := caches.carried.node id inside
  rw [reply?, run?_of_uses inside rfl, perform?, built]
  simp only [Option.map_some, complete, found, found', (caches.reading_eq sound inside).1,
    node.sequence_eq, node.parent_eq, Option.map_id_fun', id_eq]

end Replies

/-- Commands lead from an empty store to the store. There is a node at every place that a command is
given, but it may be another one than was there when the place was found out. Stops are arbitrary. -/
inductive Reached : Store → Prop where
  | empty : Reached empty
  | run {s s' : Store} {c : Command} {reply : Reply} (h : Reached s)
      (inside : ∀ id inner, c = .addFinished id inner → inner < s.size)
      (done : s.run? c = some (reply, s')) : Reached s'

theorem buildAll?_sound {α : Type} {s : Store} (sound : s.Sound) {ids : List Nat}
    (within : ∀ id ∈ ids, id < s.size) {f : Store → α × Store} (same : ∀ t, (f t).2 = t) {r : α × Store}
    (done : (s.buildAll? ids).map f = some r) : r.2.Sound := by
  obtain ⟨t, built, caches⟩ := buildAll?_caches sound within
  rw [built, Option.map_some, Option.some.injEq] at done
  rw [← done, same]
  exact caches.sound

theorem run?_sound {s s' : Store} (sound : s.Sound) {c : Command} {reply : Reply}
    (inside : ∀ id inner, c = .addFinished id inner → inner < s.size)
    (done : s.run? c = some (reply, s')) : s'.Sound := by
  rw [run?] at done
  split at done
  · next used =>
    have used : ∀ id ∈ c.uses, id < s.size := by
      simpa only [List.all_eq_true, decide_eq_true_eq] using used
    cases c with
    | enter parent? sequence =>
      cases done
      exact (enter_follows sound sequence fun p same => used p (by simp [Command.uses, same])).sound
    | addCapture id capture =>
      cases done
      obtain ⟨n, found⟩ := exists_node (used id List.mem_cons_self)
      exact (extend_follows sound found (.built capture) trivial).sound
    | addFinished id inner =>
      cases done
      obtain ⟨n, found⟩ := exists_node (used id List.mem_cons_self)
      exact (extend_follows sound found (.deferred inner) (inside id inner rfl)).sound
    | force id => exact buildAll?_sound sound used (fun _ => rfl) done
    | captures id | complete id =>
      exact buildAll?_sound sound (deferredAt_lt_size (used id List.mem_cons_self)) (fun _ => rfl) done
    | chain id stop? =>
      refine buildAll?_sound sound (fun j mem => ?_) (fun _ => rfl) done
      exact Nat.lt_of_le_of_lt (s.deferredAlong_le id stop? j mem) (used id List.mem_cons_self)
    | trail | inspect | count =>
      cases done
      exact sound
    | compact roots =>
      simp only [perform?] at done
      split at done
      · cases done
        exact compact_sound s roots sound
      · cases done
    | clear =>
      cases done
      exact empty_sound
  · cases done

theorem Reached.sound {s : Store} (h : s.Reached) : s.Sound := by
  induction h with
  | empty => exact empty_sound
  | run _ inside done ih => exact run?_sound ih inside done

end Store

end Lockstep
