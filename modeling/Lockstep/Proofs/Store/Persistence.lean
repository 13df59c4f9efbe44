import Lockstep.Proofs.Store.Visible

set_option autoImplicit false

namespace Lockstep.Store

/-- The nodes of `s` are in `t`, in the same places, and slots of theirs are built to what they
yield in `s`. The nodes that `t` has besides may be anything. -/
structure Retained (s t : Store) : Prop where
  size_le : s.size ≤ t.size
  carried : s.Carried (· < s.size) (fun i => i) t

section Stops

variable (s : Store) {id : Nat} {stop? stop?' : Option Nat}

/-- A chain goes from a node to older ones, so only a stop that is older can be met. -/
theorem chainOnto_congr (agree : ∀ p < id, some p = stop? ↔ some p = stop?')
    (carried : List Capture) : s.chainOnto id stop? carried = s.chainOnto id stop?' carried := by
  induction id using Nat.strongRecOn generalizing carried with
  | ind id ih =>
    rw [chainOnto.eq_def s id stop?, chainOnto.eq_def s id stop?']
    cases found : s.nodes[id]? with
    | none => rfl
    | some n =>
      cases parent : n.parent? with
      | none => simp only [parent]
      | some p =>
        by_cases older : p < id
        · have above := ih p older (fun q lt => agree q (Nat.lt_trans lt older))
          simp only [parent, agree p older, above, ne_eq]
        · simp only [parent, older, false_and, ↓reduceIte]

/-- A stop without a node is no stop for a chain that starts at a node. -/
theorem agree_filter {bound : Nat} (inside : id < bound) (stop? : Option Nat) :
    ∀ p < id, some p = stop? ↔ some p = stop?.filter (· < bound) := by
  intro p older
  cases stop? with
  | none => rfl
  | some stop =>
    by_cases known : stop < bound
    · rw [Option.filter_some_pos (by simpa using known)]
    · rw [Option.filter_some_neg (by simpa using known)]
      simp only [Option.some.injEq, reduceCtorEq, iff_false]
      omega

end Stops

namespace Retained

variable {s t u : Store} {id : Nat}

theorem refl (sound : s.Sound) : s.Retained s := ⟨Nat.le_refl _, carried_refl sound⟩

theorem lt_size (h : s.Retained t) (inside : id < s.size) : id < t.size :=
  Nat.lt_of_lt_of_le inside h.size_le

theorem of_nodes (h : s.Retained t) (size_le : t.size ≤ u.size)
    (nodes : ∀ (id : Nat) (n n' : Node), s.nodes[id]? = some n → t.nodes[id]? = some n' →
      n.Carried s (· < s.size) (fun i => i) n' →
      ∃ n'', u.nodes[id]? = some n'' ∧ n.Carried s (· < s.size) (fun i => i) n'') :
    s.Retained u := by
  refine ⟨Nat.le_trans h.size_le size_le, h.carried.place_lt, ?_⟩
  intro id inside
  obtain ⟨n, n', found, found', node⟩ := h.carried.node id inside
  obtain ⟨n'', found'', node'⟩ := nodes id n n' found found' node
  exact ⟨n, n'', found, found'', node'⟩

theorem push (h : s.Retained t) (n : Node) : s.Retained (t.push n).2 := by
  refine h.of_nodes ?_ ?_
  · simp only [Store.push, size, Array.size_push]
    omega
  · intro id m m' found found' node
    exact ⟨m', (push_node_of_lt n (Store.lt_size found')).trans found', node⟩

theorem extend (h : s.Retained t) (id : Nat) (slot : Slot) : s.Retained (t.extend id slot).2 := by
  unfold Store.extend
  split
  · exact h.push _
  · exact h

variable (sound : s.Sound)
include sound

theorem force (h : s.Retained t) (id : Nat) : s.Retained (t.force id) := by
  refine h.of_nodes (Nat.le_of_eq (size_force t id).symm) ?_
  intro i n n' found found' node
  by_cases here : i = id
  · subst here
    unfold Store.force
    split
    · next parent? sequence previous inner count resume? deferred =>
      rw [found'] at deferred
      cases deferred
      refine ⟨_, Array.getElem?_setIfInBounds_self_of_lt (Store.lt_size found'), node.parent_live,
        node.parent_eq, node.resume_eq, node.sequence_eq, node.count_eq, ?_⟩
      -- The slot was deferred in `s` too, and `t` yields for it what `s` does.
      have progress := node.progress
      generalize n.progress = p at progress
      cases progress with
      | extended alive carried =>
        refine .extended alive ?_
        cases carried with
        | deferred aliveInner =>
          have same := (h.carried.reading_eq sound aliveInner).2 (some previous) []
            fun stop eq => by cases eq; exact alive
          rw [Option.map_some] at same
          rw [chain, same]
          exact .forced _
    · exact ⟨n', found', node⟩
  · exact ⟨n', (force_node_of_ne t here).trans found', node⟩

omit sound in
theorem foldlM {build : Store → Nat → Option Store}
    (keeps : ∀ t u i, s.Retained t → build t i = some u → s.Retained u) {ids : List Nat}
    (h : s.Retained t) (built : ids.foldlM build t = some u) : s.Retained u := by
  induction ids generalizing t with
  | nil =>
    cases built
    exact h
  | cons id ids ih =>
    obtain ⟨v, first, rest⟩ := Option.bind_eq_some_iff.mp built
    exact ih (keeps t v id h first) rest

theorem build? {depth : Nat} (h : s.Retained t) (built : Store.build? depth t id = some u) :
    s.Retained u := by
  induction depth generalizing t u id with
  | zero => cases built
  | succ depth ih =>
    rw [Store.build?] at built
    split at built
    · next previous inner _ _ _ =>
      split at built
      · obtain ⟨v, read, rfl⟩ := Option.map_eq_some_iff.mp built
        exact (h.foldlM (fun t u i h built => ih h built) read).force sound id
      · cases built
    · cases built
      exact h

theorem buildAll? {ids : List Nat} (h : s.Retained t) (built : t.buildAll? ids = some u) :
    s.Retained u :=
  h.foldlM (fun _ _ _ h built => h.build? sound built) built

end Retained

namespace Command

def drops : Command → Bool
  | .compact _ => true
  | .clear => true
  | _ => false

inductive ReadsAt (id : Nat) : Command → Prop where
  | inspect : ReadsAt id (.inspect id)
  | trail : ReadsAt id (.trail id)
  | captures : ReadsAt id (.captures id)
  | complete : ReadsAt id (.complete id)
  | chain (stop? : Option Nat) : ReadsAt id (.chain id stop?)

end Command

/-- Commands that drop no nodes lead from `s` to the store. Each is given places of nodes, new ones
among them; only the inner sequence of a slot may be anywhere. -/
inductive Later (s : Store) : Store → Prop where
  | refl : Later s s
  | run {t u : Store} {c : Command} {reply : Reply} (h : Later s t) (keeps : c.drops = false)
      (done : t.run? c = some (reply, u)) : Later s u

section Later

variable {s t u : Store} {id : Nat} (sound : s.Sound)
include sound

theorem Retained.run? {c : Command} {reply : Reply} (h : s.Retained t) (keeps : c.drops = false)
    (done : t.run? c = some (reply, u)) : s.Retained u := by
  have read : ∀ {ids : List Nat} {f : Store → Reply × Store}, (∀ v, (f v).2 = v) →
      (t.buildAll? ids).map f = some (reply, u) → s.Retained u := by
    intro ids f same done
    obtain ⟨v, built, answer⟩ := Option.map_eq_some_iff.mp done
    have last : v = u := (same v).symm.trans (congrArg Prod.snd answer)
    exact last ▸ h.buildAll? sound built
  rw [Store.run?] at done
  split at done
  · cases c with
    | enter parent? sequence =>
      cases done
      exact h.push _
    | addCapture id capture =>
      cases done
      exact h.extend id _
    | addFinished id inner =>
      cases done
      exact h.extend id _
    | force id => exact read (fun _ => rfl) done
    | captures id => exact read (fun _ => rfl) done
    | chain id stop? => exact read (fun _ => rfl) done
    | complete id => exact read (fun _ => rfl) done
    | trail | inspect | count =>
      cases done
      exact h
    | compact | clear => cases keeps
  · cases done

theorem Later.retained (h : s.Later t) : s.Retained t := by
  induction h with
  | refl => exact .refl sound
  | run _ keeps done ih => exact ih.run? sound keeps done

omit sound in
theorem exists_foldlM {build : Store → Nat → Option Store} {bound : Nat}
    (builds : ∀ (t : Store) (i : Nat), s.Retained t → i < bound → i < s.size →
      ∃ u, build t i = some u ∧ s.Retained u)
    {ids : List Nat} (h : s.Retained t) (within : ∀ i ∈ ids, i < bound ∧ i < s.size) :
    ∃ u, ids.foldlM build t = some u ∧ s.Retained u := by
  induction ids generalizing t with
  | nil => exact ⟨t, rfl, h⟩
  | cons id ids ih =>
    obtain ⟨below, inside⟩ := within id List.mem_cons_self
    obtain ⟨v, built, held⟩ := builds t id h below inside
    obtain ⟨u, rest, held'⟩ := ih held fun i mem => within i (List.mem_cons_of_mem id mem)
    refine ⟨u, ?_, held'⟩
    rw [List.foldlM_cons, built]
    exact rest

theorem Retained.inner_lt (h : s.Retained t) (inside : id < s.size) {n : Node}
    (found : t.nodes[id]? = some n) {previous inner : Nat}
    (deferred : n.progress = .extended previous (.deferred inner)) : inner < id := by
  obtain ⟨m, m', foundM, foundM', node⟩ := h.carried.node id inside
  obtain rfl := Option.some.inj (found.symm.trans foundM')
  have progress := node.progress
  have progressSound := (sound id m foundM).progress
  rw [deferred] at progress
  generalize m.progress = p at progress progressSound
  cases progress with
  | extended _ carried => cases carried with | deferred => exact progressSound.2.1

/-- The slot at a node of `s` can be built in `t`, for those that it reads belong to older nodes. -/
theorem exists_build? {depth : Nat} (h : s.Retained t) (below : id < depth) (inside : id < s.size) :
    ∃ u, build? depth t id = some u ∧ s.Retained u := by
  induction depth generalizing t id with
  | zero => cases below
  | succ depth ih =>
    rw [build?]
    split
    · next previous inner _ _ found =>
      have older := h.inner_lt sound inside found rfl
      have within : ∀ i ∈ t.deferredAlong inner (some previous), i < depth ∧ i < s.size := by
        intro i mem
        have le := t.deferredAlong_le inner (some previous) i mem
        omega
      obtain ⟨u, read, held⟩ := exists_foldlM (fun t i h below inside => ih h below inside) h within
      rw [if_pos (h.lt_size (Nat.lt_trans older inside)), read]
      exact ⟨u.force id, rfl, held.force sound id⟩
    · exact ⟨t, rfl, h⟩

theorem exists_buildAll? {ids : List Nat} (h : s.Retained t) (within : ∀ i ∈ ids, i < s.size) :
    ∃ u, t.buildAll? ids = some u ∧ s.Retained u := by
  refine exists_foldlM (fun t i h below inside => exists_build? sound h below inside) h ?_
  intro i mem
  have inside := within i mem
  exact ⟨Nat.lt_succ_of_lt (h.lt_size inside), inside⟩

end Later

structure Lasting (s t : Store) (id : Nat) : Prop where
  nextPart_eq : t.nextPart? id = s.nextPart? id
  isFinished_eq : t.isFinished id = s.isFinished id
  resume_eq : t.resume? id = s.resume? id
  parent_eq : t.parent? id = s.parent? id
  trail_eq : t.trail id = s.trail id
  captures_eq : t.captures id = s.captures id
  complete_eq : t.complete id = s.complete id
  chain_eq : ∀ stop?, t.chain id stop? = s.chain id stop?

section Lasting

variable {s t u : Store} {id : Nat} (sound : s.Sound) (inside : id < s.size)
include sound inside

theorem Retained.chainOnto_eq (h : s.Retained t) (stop? : Option Nat) (carried : List Capture) :
    t.chainOnto id stop? carried = s.chainOnto id stop? carried := by
  have agree := agree_filter inside stop?
  have known : ∀ stop, stop?.filter (· < s.size) = some stop → stop < s.size := by
    intro stop same
    exact of_decide_eq_true (Option.filter_eq_some_iff.mp same).2
  have same := (h.carried.reading_eq sound inside).2 (stop?.filter (· < s.size)) carried known
  rw [Option.map_id_fun', id_eq] at same
  rw [t.chainOnto_congr agree, s.chainOnto_congr agree]
  exact same

theorem Retained.lasting (h : s.Retained t) : s.Lasting t id := by
  have keeping := h.carried.keeping sound inside
  constructor
  · exact keeping.next_eq
  · exact keeping.isFinished_eq
  · exact keeping.resume_eq.trans Option.map_id_apply
  · exact keeping.parent_eq.trans Option.map_id_apply
  · exact keeping.trail_eq
  · exact keeping.captures_eq
  · rw [keeping.complete_eq, Option.map_id_fun', id_eq]
  · exact fun stop? => h.chainOnto_eq sound inside stop? []

theorem Command.ReadsAt.answered {c : Command} (reads : c.ReadsAt id) :
    ∃ reply, ∀ t, s.Retained t → t.reply? c = some reply := by
  have deferred : ∀ (t : Store), ∀ j ∈ t.deferredAt id, j < s.size := fun t j mem =>
    Nat.lt_of_le_of_lt (t.deferredAt_le id j mem) inside
  cases reads with
  | inspect =>
    refine ⟨.summary ⟨s.nextPart? id, s.resume? id, s.parent? id⟩, fun t h => ?_⟩
    have lasting := h.lasting sound inside
    rw [reply?_inspect (h.lt_size inside), lasting.nextPart_eq, lasting.resume_eq, lasting.parent_eq]
  | trail =>
    refine ⟨.trail (s.trail id), fun t h => ?_⟩
    rw [reply?_trail (h.lt_size inside), (h.lasting sound inside).trail_eq]
  | captures =>
    refine ⟨.captures (s.captures id), fun t h => ?_⟩
    obtain ⟨u, built, h'⟩ := exists_buildAll? sound h (deferred t)
    rw [reply?, run?_of_uses (h.lt_size inside) rfl, perform?, built]
    simp only [Option.map_some, (h'.lasting sound inside).captures_eq]
  | complete =>
    refine ⟨.completed (s.complete id).1 (s.complete id).2, fun t h => ?_⟩
    obtain ⟨u, built, h'⟩ := exists_buildAll? sound h (deferred t)
    rw [reply?, run?_of_uses (h.lt_size inside) rfl, perform?, built]
    simp only [Option.map_some, (h'.lasting sound inside).complete_eq]
  | chain stop? =>
    refine ⟨.capture (s.chain id stop?), fun t h => ?_⟩
    obtain ⟨u, built, h'⟩ := exists_buildAll? sound h (fun j mem =>
      Nat.lt_of_le_of_lt (t.deferredAlong_le id stop? j mem) inside)
    rw [reply?, run?_of_uses (h.lt_size inside) rfl, perform?, built]
    simp only [Option.map_some, (h'.lasting sound inside).chain_eq]

end Lasting

/-- Whatever is done to a store that commands lead to, short of dropping nodes, all that is read of
its nodes stays as it was, and each read is answered as it was. -/
theorem reading_is_lasting {s t : Store} (reached : s.Reached) (later : s.Later t) {id : Nat}
    (inside : id < s.size) :
    s.Lasting t id ∧
      ∀ c, Command.ReadsAt id c →
        ∃ reply, s.reply? c = some reply ∧ t.reply? c = some reply := by
  have sound := reached.sound
  have retained := later.retained sound
  refine ⟨retained.lasting sound inside, fun c reads => ?_⟩
  obtain ⟨reply, answered⟩ := reads.answered sound inside
  exact ⟨reply, answered s (.refl sound), answered t retained⟩

def dangling : Store := (forked.addFinished 0 9).2

theorem run?_force_dangling : dangling.run? (.force 5) = some (.done, dangling.force 5) := by
  have five : dangling.nodes[5]? =
      some ⟨none, blanks 2, .extended 0 (.deferred 4), 1, none⟩ := rfl
  have four : dangling.nodes[4]? =
      some ⟨some 2, blanks 1, .extended 3 (.built (.empty .detached)), 1, some 0⟩ := rfl
  have three : dangling.nodes[3]? = some ⟨some 2, blanks 1, .entered, 0, some 0⟩ := rfl
  have two : dangling.nodes[2]? = some ⟨some 0, blanks 1, .entered, 0, some 0⟩ := rfl
  have along : dangling.deferredAlong 4 (some 0) = [] := by
    simp [deferredAlong, deferredAt, four, three, two]
  have inside : 4 < dangling.size := by decide
  rw [run?_of_uses (show 5 < dangling.size by decide) rfl, perform?, buildAll?]
  simp [build?, five, along, inside]

theorem forked_lasts : ∃ t : Store, forked.Later t ∧ forked.linksAt 5 = [0, 4] ∧
    t.linksAt 5 = [0] ∧ t.captures 5 = forked.captures 5 ∧
    t.reply? (.captures 5) = forked.reply? (.captures 5) := by
  have extended : forked.Later dangling := .run (c := .addFinished 0 9) .refl rfl rfl
  have later := extended.run rfl run?_force_dangling
  obtain ⟨lasting, answered⟩ :=
    reading_is_lasting forked_reached later (show 5 < forked.size by decide)
  obtain ⟨reply, before, after⟩ := answered _ .captures
  exact ⟨_, later, rfl, rfl, lasting.captures_eq, after.trans before.symm⟩

end Lockstep.Store
