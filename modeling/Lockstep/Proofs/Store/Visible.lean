import Lockstep.Proofs.Store.Answers
import Mathlib.Data.Set.Card
import Mathlib.Order.Interval.Set.Nat

set_option autoImplicit false

namespace Lockstep.Store

section Sees

variable (s : Store) (roots : List Nat)

/-- The node is a root, or one that the roots see refers to it. The inner sequence of a slot is
looked at as long as the slot is not built. -/
inductive Sees : Nat → Prop where
  | root {id : Nat} (mem : id ∈ roots) : Sees id
  | parent {id p : Nat} {n : Node} (h : Sees id) (found : s.nodes[id]? = some n)
      (link : n.parent? = some p) : Sees p
  | resume {id r : Nat} {n : Node} (h : Sees id) (found : s.nodes[id]? = some n)
      (link : n.resume? = some r) : Sees r
  | previous {id previous : Nat} {slot : Slot} {n : Node} (h : Sees id)
      (found : s.nodes[id]? = some n) (link : n.progress = .extended previous slot) : Sees previous
  | inner {id previous inner : Nat} {n : Node} (h : Sees id) (found : s.nodes[id]? = some n)
      (link : n.progress = .extended previous (.deferred inner)) : Sees inner

variable {s roots} {id l : Nat} {n : Node}

theorem Sees.link (h : s.Sees roots id) (found : s.nodes[id]? = some n) (link : l ∈ n.links) :
    s.Sees roots l := by
  simp only [Node.links, List.mem_append, Option.mem_toList] at link
  rcases link with (parent | resume) | progress
  · exact h.parent found parent
  · exact h.resume found resume
  · cases same : n.progress with
    | entered => simp only [same, Progress.links, List.not_mem_nil] at progress
    | extended previous slot =>
      cases slot with
      | built capture =>
        simp only [same, Progress.links, List.mem_singleton] at progress
        exact progress ▸ h.previous found same
      | deferred inner =>
        simp only [same, Progress.links, List.mem_cons, List.not_mem_nil, or_false] at progress
        rcases progress with rfl | rfl
        · exact h.previous found same
        · exact h.inner found same

theorem link_lt (sound : s.Sound) (found : s.nodes[id]? = some n) (link : l ∈ n.links) : l < id := by
  have nodeSound := sound id n found
  simp only [Node.links, List.mem_append, Option.mem_toList] at link
  rcases link with (parent | resume) | progress
  · exact nodeSound.parent_lt l parent
  · exact resume_lt sound found resume
  · have progressSound := nodeSound.progress
    cases same : n.progress with
    | entered => simp only [same, Progress.links, List.not_mem_nil] at progress
    | extended previous slot =>
      rw [same] at progressSound
      obtain ⟨older, slotSound, -⟩ := progressSound
      cases slot with
      | built capture =>
        simp only [same, Progress.links, List.mem_singleton] at progress
        exact progress ▸ older
      | deferred inner =>
        simp only [same, Progress.links, List.mem_cons, List.not_mem_nil, or_false] at progress
        rcases progress with rfl | rfl
        · exact older
        · exact slotSound

/-- Whatever is closed under links and holds of the marks and of all that is to be marked holds of
all marks in the end. -/
theorem spread_within (seen : Nat → Prop) (closed : ∀ i l, seen i → l ∈ s.linksAt i → seen l)
    (live : Array Bool) (todo : List Nat) (marked : ∀ i : Nat, live[i]? = some true → seen i)
    (due : ∀ i ∈ todo, seen i) : ∀ i : Nat, (s.spread live todo)[i]? = some true → seen i := by
  fun_induction spread s live todo with
  | case1 live => exact marked
  | case2 live id todo unmarked ih =>
    have here := due id List.mem_cons_self
    apply ih
    · intro i now
      by_cases same : i = id
      · exact same ▸ here
      · rw [Array.getElem?_setIfInBounds_ne fun eq => same eq.symm] at now
        exact marked i now
    · intro i mem
      rcases List.mem_append.mp mem with link | later
      · exact closed id i here link
      · exact due i (List.mem_cons_of_mem id later)
  | case3 live id todo already ih =>
    exact ih marked fun i mem => due i (List.mem_cons_of_mem id mem)

theorem sees_of_live (alive : s.Live roots id) : s.Sees roots id := by
  refine spread_within (s.Sees roots) ?_ _ roots ?_ (fun i mem => .root mem) id alive
  · intro i l sees link
    rw [linksAt] at link
    cases found : s.nodes[i]? with
    | none => simp only [found, Option.map_none, Option.getD_none, List.not_mem_nil] at link
    | some n =>
      simp only [found, Option.map_some, Option.getD_some] at link
      exact sees.link found link
  · intro i marked
    rw [Array.getElem?_replicate] at marked
    split at marked <;> cases marked

variable (sound : s.Sound) (valid : ∀ root ∈ roots, root < s.size)
include sound valid

theorem Sees.live (h : s.Sees roots id) : s.Live roots id := by
  have via : ∀ {i l : Nat} {n : Node}, s.Live roots i → s.nodes[i]? = some n → l ∈ n.links →
      s.Live roots l := by
    intro i l n alive found link
    exact live_link s alive found link (Nat.lt_trans (link_lt sound found link) (lt_size found))
  induction h with
  | @root id mem => exact live_root s mem (valid id mem)
  | parent _ found link ih => exact via ih found (by simp [Node.links, link])
  | resume _ found link ih => exact via ih found (by simp [Node.links, link])
  | @previous _ _ slot _ _ found link ih =>
    exact via ih found (by cases slot <;> simp [Node.links, link, Progress.links])
  | inner _ found link ih => exact via ih found (by simp [Node.links, link, Progress.links])

theorem live_eq_sees : s.Live roots = s.Sees roots :=
  funext fun _ => propext ⟨sees_of_live, Sees.live sound valid⟩

theorem Sees.lt_size (h : s.Sees roots id) : id < s.size := (h.live sound valid).lt_size

omit valid in
theorem isIntact_of_sound : s.isIntact roots = true := by
  simp only [isIntact, Array.all_eq_true', Bool.or_eq_true, Bool.not_eq_true', Prod.forall,
    List.all_eq_true, decide_eq_true_eq]
  intro alive id mem
  refine .inr fun l link => ?_
  rw [linksAt] at link
  cases found : s.nodes[id]? with
  | none => simp only [found, Option.map_none, Option.getD_none, List.not_mem_nil] at link
  | some n =>
    simp only [found, Option.map_some, Option.getD_some] at link
    exact Nat.lt_trans (link_lt sound found link) (Store.lt_size found)

end Sees

/-- What can be read in `s'` at the place of the node `id` is what could be read of it in `s`. -/
structure Keeping (s : Store) (live : Nat → Prop) (place : Nat → Nat) (s' : Store) (id : Nat) :
    Prop where
  parent_eq : s'.parent? (place id) = (s.parent? id).map place
  resume_eq : s'.resume? (place id) = (s.resume? id).map place
  next_eq : s'.nextPart? (place id) = s.nextPart? id
  isFinished_eq : s'.isFinished (place id) = s.isFinished id
  trail_eq : s'.trail (place id) = s.trail id
  captures_eq : s'.captures (place id) = s.captures id
  complete_eq : s'.complete (place id) = ((s.complete id).1.map place, (s.complete id).2)
  chain_eq : ∀ stop?, (∀ stop, stop? = some stop → live stop) →
    s'.chain (place id) (stop?.map place) = s.chain id stop?

theorem Carried.keeping {s s' : Store} {live : Nat → Prop} {place : Nat → Nat} (sound : s.Sound)
    (h : s.Carried live place s') {id : Nat} (alive : live id) : s.Keeping live place s' id := by
  obtain ⟨n, n', found, found', node⟩ := h.node id alive
  obtain ⟨captures, chains⟩ := h.reading_eq sound alive
  have next := h.nextPart?_eq alive
  refine ⟨?_, h.resume?_eq alive, next, ?_, ?_, captures, ?_, fun stop? => chains stop? []⟩
  · simp only [parent?, found, found', Option.bind_some, node.parent_eq]
  · rw [isFinished, isFinished, next]
  · rw [trail_eq, trail_eq, h.frames_eq sound alive]
  · simp only [complete, found, found', captures, node.parent_eq, node.sequence_eq]

namespace Command

/-- The command reads one of the nodes, and stops at one of them if it is given a stop. -/
inductive Reads (live : Nat → Prop) : Command → Prop where
  | inspect {id : Nat} (alive : live id) : Reads live (.inspect id)
  | trail {id : Nat} (alive : live id) : Reads live (.trail id)
  | captures {id : Nat} (alive : live id) : Reads live (.captures id)
  | complete {id : Nat} (alive : live id) : Reads live (.complete id)
  | chain {id : Nat} (alive : live id) {stop? : Option Nat}
      (aliveStop : ∀ stop, stop? = some stop → live stop) : Reads live (.chain id stop?)

def rename (f : Nat → Nat) : Command → Command
  | .inspect id => .inspect (f id)
  | .trail id => .trail (f id)
  | .captures id => .captures (f id)
  | .complete id => .complete (f id)
  | .chain id stop? => .chain (f id) (stop?.map f)
  | c => c

end Command

def Reply.rename (f : Nat → Nat) : Reply → Reply
  | .summary ⟨next?, resume?, parent?⟩ => .summary ⟨next?, resume?.map f, parent?.map f⟩
  | .completed parent? c => .completed (parent?.map f) c
  | r => r

theorem Command.Reads.answered {s s' : Store} {live : Nat → Prop} {place : Nat → Nat}
    (sound : s.Sound) (sound' : s'.Sound) (h : s.Carried live place s') {c : Command}
    (reads : c.Reads live) :
    ∃ reply, s.reply? c = some reply ∧ s'.reply? (c.rename place) = some (reply.rename place) := by
  have inside : ∀ {id}, live id → id < s.size ∧ place id < s'.size := by
    intro id alive
    obtain ⟨n, n', found, found', -⟩ := h.node id alive
    exact ⟨lt_size found, lt_size found'⟩
  cases reads with
  | inspect alive =>
    have keeps := h.keeping sound alive
    refine ⟨_, reply?_inspect (inside alive).1, (reply?_inspect (inside alive).2).trans ?_⟩
    rw [keeps.next_eq, keeps.resume_eq, keeps.parent_eq]
    rfl
  | trail alive =>
    have keeps := h.keeping sound alive
    refine ⟨_, reply?_trail (inside alive).1, (reply?_trail (inside alive).2).trans ?_⟩
    rw [keeps.trail_eq]
    rfl
  | captures alive =>
    have keeps := h.keeping sound alive
    refine ⟨_, reply?_captures (inside alive).1 sound,
      (reply?_captures (inside alive).2 sound').trans ?_⟩
    rw [keeps.captures_eq]
    rfl
  | complete alive =>
    have keeps := h.keeping sound alive
    refine ⟨_, reply?_complete (inside alive).1 sound,
      (reply?_complete (inside alive).2 sound').trans ?_⟩
    rw [keeps.complete_eq]
    rfl
  | @chain id alive stop? aliveStop =>
    have keeps := h.keeping sound alive
    have insideStop : ∀ stop, stop?.map place = some stop → stop < s'.size := by
      intro stop same
      obtain ⟨stop, given, rfl⟩ := Option.map_eq_some_iff.mp same
      exact (inside (aliveStop stop given)).2
    refine ⟨_, reply?_chain (inside alive).1 sound fun stop given => (inside (aliveStop stop given)).1,
      (reply?_chain (inside alive).2 sound' insideStop).trans ?_⟩
    rw [keeps.chain_eq stop? aliveStop]
    rfl

section Compact

variable {s : Store} (sound : s.Sound) {roots : List Nat} (valid : ∀ root ∈ roots, root < s.size)
include sound valid

theorem strictMonoOn_place : StrictMonoOn (s.compact roots).2 {id | s.Sees roots id} := by
  intro a seesA b seesB lt
  exact (compact_carried s roots sound).place_lt a b (Sees.live sound valid seesA)
    (Sees.live sound valid seesB) lt

theorem bijOn_place : Set.BijOn (s.compact roots).2 {id | s.Sees roots id}
    (Set.Iio (s.compact roots).1.size) := by
  refine ⟨?_, (strictMonoOn_place sound valid).injOn, ?_⟩
  · intro id sees
    obtain ⟨_, _, _, found', _⟩ :=
      (compact_carried s roots sound).node id (Sees.live sound valid sees)
    exact lt_size found'
  · intro j inside
    obtain ⟨n', found'⟩ := exists_node inside
    obtain ⟨id, n, alive, -, -, same⟩ := exists_live_of_compact s roots found'
    exact ⟨id, sees_of_live alive, same.symm⟩

end Compact

/-- Compacting a store that commands lead to keeps the nodes that the roots see and no others, in
order and without gaps. The roots are moved along, and so is all that the nodes kept refer to;
whatever is read of these nodes is read at their new places. -/
theorem compact_keeps_what_is_seen {s : Store} (reached : s.Reached) {roots : List Nat}
    (valid : ∀ root ∈ roots, root < s.size) :
    ∃ (place : Nat → Nat) (s' : Store),
      s.run? (.compact roots) = some (.compacted (roots.map place) s'.size, s') ∧
      s'.allocated = s.allocated ∧
      StrictMonoOn place {id | s.Sees roots id} ∧
      Set.BijOn place {id | s.Sees roots id} (Set.Iio s'.size) ∧
      s'.size = {id | s.Sees roots id}.ncard ∧
      (∀ id, s.Sees roots id → s.Keeping (s.Sees roots) place s' id) ∧
      ∀ c, Command.Reads (s.Sees roots) c →
        ∃ reply, s.reply? c = some reply ∧ s'.reply? (c.rename place) = some (reply.rename place) := by
  have sound := reached.sound
  have bijective := bijOn_place sound valid
  have carried := compact_carried s roots sound
  rw [live_eq_sees sound valid] at carried
  refine ⟨(s.compact roots).2, (s.compact roots).1, ?_, rfl, strictMonoOn_place sound valid,
    bijective, ?_, fun id sees => carried.keeping sound sees,
    fun c reads => reads.answered sound (compact_sound s roots sound) carried⟩
  · have used : (Command.compact roots).uses.all (· < s.size) = true := by
      simpa only [Command.uses, List.all_eq_true, decide_eq_true_eq] using valid
    rw [run?, if_pos used, perform?, if_pos (isIntact_of_sound sound)]
  · rw [bijective.ncard_eq, Set.ncard_Iio_nat]

def blanks (count : Nat) : Sequence := ⟨none, List.replicate count (.nothing []), Combiner.listOf⟩

def forked : Store :=
  let s := (empty.enter none (blanks 2)).2
  let s := (s.addCapture 0 (.empty .detached)).2
  let s := (s.enter (some 0) (blanks 1)).2
  let s := (s.enter (some 2) (blanks 1)).2
  let s := (s.addCapture 3 (.empty .detached)).2
  (s.addFinished 0 4).2

theorem forked_reached : forked.Reached := by
  have entered : Reached (empty.enter none (blanks 2)).2 :=
    .run (c := .enter none (blanks 2)) .empty nofun rfl
  have parted := Reached.run (c := .addCapture 0 (.empty .detached)) entered nofun rfl
  have inner := Reached.run (c := .enter (some 0) (blanks 1)) parted nofun rfl
  have innermost := Reached.run (c := .enter (some 2) (blanks 1)) inner nofun rfl
  have finished := Reached.run (c := .addCapture 3 (.empty .detached)) innermost nofun rfl
  refine .run (c := .addFinished 0 4) finished ?_ rfl
  rintro id inner ⟨⟩
  exact Nat.lt_succ_self 4

theorem liveFrom_forked :
    forked.liveFrom [5, 5] = #[true, false, true, true, true, true] := by
  have five : forked.linksAt 5 = [0, 4] := rfl
  have four : forked.linksAt 4 = [2, 0, 3] := rfl
  have three : forked.linksAt 3 = [2, 0] := rfl
  have two : forked.linksAt 2 = [0, 0] := rfl
  have zero : forked.linksAt 0 = [] := rfl
  rw [liveFrom, show forked.size = 6 from rfl]
  simp [spread, five, four, three, two, zero, ← Array.toList_inj]

theorem compact_forked_keeps_five : ∃ (place : Nat → Nat) (s' : Store),
    forked.size = 6 ∧ forked.run? (.compact [5, 5]) = some (.compacted [place 5, place 5] 5, s') ∧
      s'.captures (place 5) = forked.captures 5 := by
  have valid : ∀ root ∈ [5, 5], root < forked.size := by decide
  obtain ⟨place, s', done, -, -, -, -, keeps, -⟩ :=
    compact_keeps_what_is_seen forked_reached valid
  have kept : s' = (forked.compact [5, 5]).1 := by
    have used : (Command.compact [5, 5]).uses.all (· < forked.size) = true := by decide
    rw [run?, if_pos used, perform?, if_pos (isIntact_of_sound forked_reached.sound)] at done
    exact (congrArg Prod.snd (Option.some.inj done)).symm
  have size : s'.size = 5 := by
    rw [kept, Store.size, ← Array.length_toList, toList_compact, liveFrom_forked]
    rfl
  rw [size] at done
  exact ⟨place, s', rfl, done, (keeps 5 (.root List.mem_cons_self)).captures_eq⟩

end Lockstep.Store
