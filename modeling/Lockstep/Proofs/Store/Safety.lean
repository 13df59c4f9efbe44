import Lockstep.Proofs.Store.Moving

set_option autoImplicit false

/-!
Commands carried out with every place looked up. Besides the store, an arena has the inner sequence
that each slot was made with, also once the slot is built: nobody looks there any more, but its place
is moved along whenever nodes are dropped. As long as commands are given places of nodes, be they the
ones that were meant or not, no lookup fails, no slot is read while it is being built, and all links
go to older nodes.
-/

namespace Lockstep

open Store (Command Reply)

structure Arena where
  store : Store := .empty
  /-- For each node the inner sequence that its slot was made with. -/
  inners : List (Option Nat) := []

namespace Arena

/-- How deep reading may be nested: at each node a chain, its captures, and a slot among them. -/
def levels (a : Arena) : Nat := 3 * a.store.size

def push (a : Arena) (n : Node) (inner? : Option Nat) : Reply × Arena :=
  let (id, s) := a.store.push n
  (.node id, ⟨s, a.inners ++ [inner?]⟩)

def extend (a : Arena) (id : Nat) (slot : Slot) (inner? : Option Nat) :
    Except Fault (Reply × Arena) := do
  let n ← a.store.node id
  .ok (a.push ⟨n.parent?, n.sequence, .extended id slot, n.count + 1, n.resume?⟩ inner?)

def compact (a : Arena) (roots : List Nat) : Except Fault (List Nat × Arena) := do
  let live ← a.store.markFrom (Array.replicate a.store.size false) roots
  let m ← Moving.run live ⟨Array.replicate a.store.size 0, #[]⟩ 0
    (a.store.nodes.toList.zip a.inners)
  let roots ← roots.mapM (lookUp m.moved)
  .ok (roots, ⟨⟨m.cells.map Prod.fst, a.store.allocated⟩, m.cells.toList.map Prod.snd⟩)

def perform (a : Arena) : Command → Except Fault (Reply × Arena)
  | .enter none sequence => .ok (a.push ⟨none, sequence, .entered, 0, none⟩ none)
  | .enter (some p) sequence => do
    let n ← a.store.node p
    let resume? := if n.continues then some p else n.resume?
    .ok (a.push ⟨some p, sequence, .entered, 0, resume?⟩ none)
  | .addCapture id capture => a.extend id (.built capture) none
  | .addFinished id inner => a.extend id (.deferred inner) (some inner)
  | .force id => do
    let n ← a.store.node id
    match n.progress with
    | .entered => .ok (.done, a)
    | .extended previous slot =>
      let (_, store) ← a.store.readSlot [] id previous slot a.levels
      .ok (.done, { a with store })
  | .captures id => do
    let (captures, store) ← a.store.gather [] id a.levels
    .ok (.captures captures, { a with store })
  | .chain id stop? => do
    let (capture, store) ← a.store.ascend [] id stop? [] a.levels
    .ok (.capture capture, { a with store })
  | .complete id => do
    let n ← a.store.node id
    let (captures, store) ← a.store.gather [] id a.levels
    .ok (.completed n.parent? (n.sequence.build captures), { a with store })
  | .trail id => do
    let names ← a.store.trailFrom id a.levels
    .ok (.trail names, a)
  | .inspect id => do
    let n ← a.store.node id
    .ok (.summary ⟨n.nextPart?, n.resume?, n.parent?⟩, a)
  | .compact roots => do
    let (roots, a) ← a.compact roots
    .ok (.compacted roots a.store.size, a)
  | .clear => .ok (.counted 0 0, {})
  | .count => .ok (.counted a.store.size a.store.allocated, a)

structure Sound (a : Arena) : Prop where
  store : a.store.Sound
  length_eq : a.inners.length = a.store.size
  entered : ∀ (id : Nat) (n : Node), a.store.nodes[id]? = some n → n.progress = .entered →
    a.inners[id]? = some none
  deferred : ∀ (id : Nat) (n : Node) (previous inner : Nat), a.store.nodes[id]? = some n →
    n.progress = .extended previous (.deferred inner) → a.inners[id]? = some (some inner)
  inner_lt : ∀ id inner : Nat, a.inners[id]? = some (some inner) → inner < id

variable {a : Arena}

theorem empty_sound : Sound {} := by
  refine ⟨Store.empty_sound, rfl, ?_, ?_, ?_⟩
  · intro id n found
    simp [Store.empty] at found
  · intro id n previous inner found
    simp [Store.empty] at found
  · intro id inner held
    simp at held

section Compact

open Moving (placeBefore relinked)

variable (sound : a.Sound) {roots : List Nat}
include sound

omit sound in
theorem cell_of_zip {i : Nat} {cell : Node × Option Nat}
    (found : (a.store.nodes.toList.zip a.inners)[i]? = some cell) :
    a.store.nodes[i]? = some cell.1 ∧ a.inners[i]? = some cell.2 := by
  obtain ⟨node, inner⟩ := List.getElem?_zip_eq_some.mp found
  exact ⟨Array.getElem?_toList ▸ node, inner⟩

theorem placeBefore_eq_relink {i l : Nat} {n : Node} (alive : a.store.Live roots i)
    (found : a.store.nodes[i]? = some n) (link : l ∈ n.links) :
    placeBefore (a.store.liveFrom roots) i l = a.store.relink roots i l := by
  have older := Store.link_lt sound.store found link
  have aliveLink := Store.live_link a.store alive found link
    (Nat.lt_trans older (Store.lt_size found))
  have mark := a.store.live_iff_getD.mp aliveLink
  rw [placeBefore, Store.relink, if_pos older, Store.place_eq aliveLink, if_pos ⟨older, mark⟩]

/-- The inner sequence of a slot that is built may be dropped. Then its place is that of the first
node, and the node with the slot is another one, for the node that it extends is older. -/
theorem placeBefore_lt {i inner : Nat} {n : Node} (alive : a.store.Live roots i)
    (found : a.store.nodes[i]? = some n) (held : a.inners[i]? = some (some inner)) :
    placeBefore (a.store.liveFrom roots) i inner < Store.rank (a.store.liveFrom roots) i := by
  unfold placeBefore
  split
  · next older =>
    exact Store.rank_lt (a.store.live_iff_getD.mpr older.2) older.1
  · have progressSound := (sound.store i n found).progress
    cases progress : n.progress with
    | entered =>
      rw [sound.entered i n found progress] at held
      cases held
    | extended previous slot =>
      rw [progress] at progressSound
      have older := progressSound.1
      have link : previous ∈ n.links := by
        cases slot <;> simp [Node.links, progress, Progress.links]
      have alivePrevious := Store.live_link a.store alive found link
        (Nat.lt_trans older (Store.lt_size found))
      have := Store.rank_lt alivePrevious older
      omega

def IsMoved (a : Arena) (roots : List Nat) (j : Nat) (cell' : Node × Option Nat) : Prop :=
  ∃ i cell, a.store.Live roots i ∧ a.store.nodes[i]? = some cell.1 ∧ a.inners[i]? = some cell.2 ∧
    cell' = relinked (a.store.liveFrom roots) cell i ∧ j = Store.rank (a.store.liveFrom roots) i

theorem sound_of_moved {a' : Arena} (store_sound : a'.store.Sound)
    (length_eq : a'.inners.length = a'.store.size)
    (moved : ∀ (j : Nat) (n' : Node) (inner? : Option Nat), a'.store.nodes[j]? = some n' →
      a'.inners[j]? = some inner? → a.IsMoved roots j (n', inner?)) : a'.Sound := by
  have exists_inner : ∀ (j : Nat) (n' : Node), a'.store.nodes[j]? = some n' →
      ∃ inner?, a'.inners[j]? = some inner? := fun j n' found' =>
    ⟨_, List.getElem?_eq_getElem (length_eq ▸ Store.lt_size found')⟩
  refine ⟨store_sound, length_eq, ?_, ?_, ?_⟩
  · intro j n' found' progress
    obtain ⟨inner?, there⟩ := exists_inner j n' found'
    obtain ⟨i, cell, -, found, inner, same, -⟩ := moved j n' inner? found' there
    obtain ⟨rfl, rfl⟩ := Prod.mk.inj same
    rw [sound.entered i cell.1 found (Progress.eq_of_rename_entered progress),
      Option.some.injEq] at inner
    rw [there, ← inner]
    rfl
  · intro j n' previous inner found' progress
    obtain ⟨inner?, there⟩ := exists_inner j n' found'
    obtain ⟨i, cell, -, found, inner, same, -⟩ := moved j n' inner? found' there
    obtain ⟨rfl, rfl⟩ := Prod.mk.inj same
    obtain ⟨previous', inner', deferred, rfl⟩ := Progress.of_rename_deferred progress
    rw [sound.deferred i cell.1 previous' inner' found deferred, Option.some.injEq] at inner
    rw [there, ← inner]
    rfl
  · intro j inner there
    have inside : j < a'.store.size := length_eq ▸ (List.getElem?_eq_some_iff.mp there).choose
    obtain ⟨n', found'⟩ := Store.exists_node inside
    obtain ⟨i, cell, alive, found, held, same, rfl⟩ := moved j n' _ found' there
    obtain ⟨-, inner_eq⟩ := Prod.mk.inj same
    obtain ⟨old, known, rfl⟩ := Option.map_eq_some_iff.mp inner_eq.symm
    exact placeBefore_lt sound alive found (held.trans (congrArg some known))

theorem exists_run (roots : List Nat) :
    ∃ m, Moving.run (a.store.liveFrom roots) ⟨Array.replicate a.store.size 0, #[]⟩ 0
        (a.store.nodes.toList.zip a.inners) = .ok m ∧
      m.At (a.store.liveFrom roots) a.store.size ∧
      m.cells.toList = Store.kept (fun i => (a.store.liveFrom roots).getD i false)
        (relinked (a.store.liveFrom roots)) (a.store.nodes.toList.zip a.inners) 0 := by
  have size_eq := Store.size_liveFrom a.store roots
  have start : Moving.At (a.store.liveFrom roots) ⟨Array.replicate a.store.size 0, #[]⟩ 0 := by
    refine ⟨?_, ?_, rfl⟩
    · rw [size_eq, Array.size_replicate]
    · intro l inside
      simp only [placeBefore, Nat.not_lt_zero, false_and, ↓reduceIte, Array.getD_eq_getD_getElem?,
        Array.getElem?_replicate]
      split <;> rfl
  have length_eq : (a.store.nodes.toList.zip a.inners).length = a.store.size := by
    rw [List.length_zip, sound.length_eq, Array.length_toList]
    exact Nat.min_self _
  have inside : ∀ cell ∈ a.store.nodes.toList.zip a.inners,
      (∀ l ∈ cell.1.links, l < (a.store.liveFrom roots).size) ∧
        ∀ inner, cell.2 = some inner → inner < (a.store.liveFrom roots).size := by
    intro cell mem
    obtain ⟨i, there⟩ := List.mem_iff_getElem?.mp mem
    obtain ⟨found, held⟩ := cell_of_zip there
    have bound := Store.lt_size found
    rw [size_eq]
    refine ⟨fun l link => Nat.lt_trans (Store.link_lt sound.store found link) bound, ?_⟩
    intro inner same
    exact Nat.lt_trans (sound.inner_lt i inner (held.trans (congrArg some same))) bound
  obtain ⟨m, run, moved, cells⟩ := Moving.run_eq start (by omega) inside
  rw [length_eq, Nat.zero_add] at moved
  exact ⟨m, run, moved, cells⟩

/-- A node may be moved before its place is known to later ones, for its links go to earlier ones. -/
theorem nodes_of_cells {cells : Array (Node × Option Nat)}
    (same : cells.toList = Store.kept (fun i => (a.store.liveFrom roots).getD i false)
      (relinked (a.store.liveFrom roots)) (a.store.nodes.toList.zip a.inners) 0) :
    cells.map Prod.fst = (a.store.compact roots).1.nodes := by
  have firsts : (a.store.nodes.toList.zip a.inners).map Prod.fst = a.store.nodes.toList := by
    refine List.map_fst_zip ?_
    rw [sound.length_eq, Array.length_toList]
    exact Nat.le_refl _
  rw [← Array.toList_inj, Array.toList_map, same, Store.toList_compact]
  refine (Store.map_kept _ 0 fun i cell there keeps => ?_).trans (by rw [firsts])
  obtain ⟨found, -⟩ := cell_of_zip there
  rw [Nat.zero_add] at keeps ⊢
  refine Node.rename_congr fun l link => ?_
  exact placeBefore_eq_relink sound (a.store.live_iff_getD.mpr keeps) found link

theorem compact_eq (held : ∀ root ∈ roots, root < a.store.size) :
    ∃ a', a.compact roots = .ok (roots.map (a.store.compact roots).2, a') ∧
      a'.store = (a.store.compact roots).1 ∧ a'.Sound := by
  have marked : a.store.markFrom (Array.replicate a.store.size false) roots =
      .ok (a.store.liveFrom roots) := by
    refine Store.markFrom_eq (fun id n found l link => ?_) Array.size_replicate held
    exact Nat.lt_trans (Store.link_lt sound.store found link) (Store.lt_size found)
  obtain ⟨m, run, moved, cells⟩ := exists_run sound roots
  have places : roots.mapM (lookUp m.moved) = .ok (roots.map (a.store.compact roots).2) := by
    refine mapM_eq_ok fun root mem => ?_
    have inside := held root mem
    have alive := Store.live_root a.store mem inside
    have mark := a.store.live_iff_getD.mp alive
    rw [← Store.size_liveFrom a.store roots] at inside
    rw [lookUp_eq (moved.size_eq ▸ inside), moved.moved_eq root inside, Store.place_eq alive,
      placeBefore, if_pos ⟨held root mem, mark⟩]
  have store_eq : Store.mk (m.cells.map Prod.fst) a.store.allocated = (a.store.compact roots).1 := by
    rw [nodes_of_cells sound cells]
    rfl
  have each : ∀ (j : Nat) (n' : Node) (inner? : Option Nat), (m.cells.map Prod.fst)[j]? = some n' →
      (m.cells.toList.map Prod.snd)[j]? = some inner? → a.IsMoved roots j (n', inner?) := by
    intro j n' inner? found' there
    simp only [Array.getElem?_map, List.getElem?_map, Array.getElem?_toList,
      Option.map_eq_some_iff] at found' there
    obtain ⟨cell', here, rfl⟩ := found'
    obtain ⟨cell'', here', rfl⟩ := there
    cases here.symm.trans here'
    rw [← Array.getElem?_toList, cells] at here
    obtain ⟨i, cell, found, keeps, same, place⟩ := Store.exists_of_kept _ _ _ _ here
    rw [Nat.zero_add] at keeps same
    obtain ⟨node, inner⟩ := cell_of_zip found
    exact ⟨i, cell, a.store.live_iff_getD.mpr keeps, node, inner, same, place⟩
  refine ⟨⟨⟨m.cells.map Prod.fst, a.store.allocated⟩, m.cells.toList.map Prod.snd⟩, ?_, store_eq,
    sound_of_moved sound ?_ ?_ each⟩
  · simp only [compact, marked, run, places, bind, Except.bind]
  · exact store_eq ▸ Store.compact_sound a.store roots sound.store
  · simp only [Store.size, List.length_map, Array.length_toList, Array.size_map]

end Compact

section Perform

variable (sound : a.Sound)
include sound

theorem cell_of_push {n m : Node} {inner? : Option Nat} {id : Nat}
    (found : (a.push n inner?).2.store.nodes[id]? = some m) :
    a.store.nodes[id]? = some m ∧ (a.push n inner?).2.inners[id]? = a.inners[id]? ∨
      m = n ∧ (a.push n inner?).2.inners[id]? = some inner? := by
  simp only [push] at found ⊢
  rcases Nat.lt_or_ge id a.store.size with inside | outside
  · rw [Store.push_node_of_lt n inside] at found
    exact .inl ⟨found, List.getElem?_append_left (sound.length_eq.symm ▸ inside)⟩
  · have bound := Store.lt_size found
    simp only [Store.push, Store.size, Array.size_push] at bound outside
    have last : id = a.store.nodes.size := by omega
    subst last
    simp only [Store.push, Array.getElem?_push_size, Option.some.injEq] at found
    refine .inr ⟨found.symm, ?_⟩
    rw [show a.store.nodes.size = a.inners.length from sound.length_eq.symm]
    exact List.getElem?_concat_length

theorem push_sound {n : Node} {inner? : Option Nat} (store : (a.store.push n).2.Sound)
    (entered : n.progress = .entered → inner? = none)
    (deferred : ∀ previous inner, n.progress = .extended previous (.deferred inner) →
      inner? = some inner)
    (older : ∀ inner, inner? = some inner → inner < a.store.size) : (a.push n inner?).2.Sound := by
  refine ⟨store, ?_, ?_, ?_, ?_⟩
  · simp only [push, Store.push, List.length_append, sound.length_eq, Store.size, Array.size_push,
      List.length_singleton]
  · intro id m found progress
    rcases cell_of_push sound found with ⟨old, same⟩ | ⟨rfl, same⟩
    · exact same.trans (sound.entered id m old progress)
    · exact same.trans (congrArg some (entered progress))
  · intro id m previous inner found progress
    rcases cell_of_push sound found with ⟨old, same⟩ | ⟨rfl, same⟩
    · exact same.trans (sound.deferred id m previous inner old progress)
    · exact same.trans (congrArg some (deferred previous inner progress))
  · intro id inner there
    have bound := (List.getElem?_eq_some_iff.mp there).choose
    simp only [push, List.length_append, List.length_singleton] at bound
    rcases Nat.lt_or_ge id a.inners.length with inside | outside
    · exact sound.inner_lt id inner ((List.getElem?_append_left inside).symm.trans there)
    · have last : id = a.inners.length := by omega
      subst last
      have new : inner? = some inner := by simpa [push] using there
      rw [sound.length_eq]
      exact older inner new

theorem cached_sound {t : Store} (caches : a.store.Caches t) : Sound { a with store := t } := by
  have exists_carried : ∀ (id : Nat) (n' : Node), t.nodes[id]? = some n' →
      ∃ n, a.store.nodes[id]? = some n ∧ n.progress.Carried a.store (· < a.store.size)
        (fun i => i) n'.progress := by
    intro id n' found'
    obtain ⟨n, m, found, foundT, node⟩ :=
      caches.carried.node id (caches.size_eq ▸ Store.lt_size found')
    obtain rfl := Option.some.inj (found'.symm.trans foundT)
    exact ⟨n, found, node.progress⟩
  refine ⟨caches.sound, sound.length_eq.trans caches.size_eq.symm, ?_, ?_, sound.inner_lt⟩
  · intro id n' found' entered
    obtain ⟨n, found, progress⟩ := exists_carried id n' found'
    rw [entered] at progress
    generalize same : n.progress = p at progress
    cases progress with
    | entered => exact sound.entered id n found same
  · intro id n' previous inner found' deferred
    obtain ⟨n, found, progress⟩ := exists_carried id n' found'
    rw [deferred] at progress
    generalize same : n.progress = p at progress
    cases progress with
    | extended alive slot =>
      cases slot with
      | deferred => exact sound.deferred id n _ _ found same

end Perform

/-- The command is carried out without a fault, and as the store alone carries it out. -/
def Performs (a : Arena) (c : Command) : Prop :=
  ∃ reply a', a.perform c = .ok (reply, a') ∧ a.store.run? c = some (reply, a'.store) ∧ a'.Sound

section Performs

variable (sound : a.Sound) {id : Nat} (inside : id < a.store.size)
include sound

omit sound in
theorem run?_eq_perform? {c : Command} (held : ∀ id ∈ c.uses, id < a.store.size) :
    a.store.run? c = a.store.perform? c := by
  rw [Store.run?, if_pos]
  simpa only [List.all_eq_true, decide_eq_true_eq] using held

theorem performs_enter {parent? : Option Nat} (sequence : Sequence)
    (held : ∀ p, parent? = some p → p < a.store.size) : a.Performs (.enter parent? sequence) := by
  have follows := Store.enter_follows sound.store sequence held
  have used : ∀ p ∈ (Command.enter parent? sequence).uses, p < a.store.size := by
    simpa [Command.uses] using held
  let n : Node := ⟨parent?, sequence, .entered, 0, parent?.bind a.store.resumeInside⟩
  refine ⟨_, (a.push n none).2, ?_, run?_eq_perform? used,
    push_sound sound follows.sound (fun _ => rfl) (fun _ _ extended => by cases extended)
      (fun _ older => by cases older)⟩
  cases parent? with
  | none => rfl
  | some p =>
    obtain ⟨m, found⟩ := Store.exists_node (held p rfl)
    rw [perform, Store.node_eq found]
    simp only [n, bind, Except.bind, Option.bind_some, Store.resumeInside, found]
    rfl

include inside

theorem extend_eq_ok (slot : Slot) (inner? : Option Nat)
    (slotSound : Store.SlotSound a.store.size slot)
    (deferred : ∀ inner, slot = .deferred inner → inner? = some inner)
    (older : ∀ inner, inner? = some inner → inner < a.store.size) :
    ∃ a', a.extend id slot inner? = .ok (.node (a.store.extend id slot).1, a') ∧
      a'.store = (a.store.extend id slot).2 ∧ a'.Sound := by
  obtain ⟨n, found⟩ := Store.exists_node inside
  have follows := Store.extend_follows sound.store found slot slotSound
  rw [Store.extend_eq found] at follows ⊢
  refine ⟨(a.push (Store.extension id n slot) inner?).2, ?_, rfl,
    push_sound sound follows.sound nofun ?_ older⟩
  · rw [extend, Store.node_eq found]
    rfl
  · rintro previous inner ⟨⟩
    exact deferred inner rfl

theorem performs_addCapture (capture : Capture) : a.Performs (.addCapture id capture) := by
  obtain ⟨a', done, store, sound'⟩ :=
    extend_eq_ok sound inside (.built capture) none trivial nofun nofun
  refine ⟨_, a', done, ?_, sound'⟩
  rw [Store.run?_of_uses inside rfl, store]
  rfl

theorem performs_addFinished {inner : Nat} (insideInner : inner < a.store.size) :
    a.Performs (.addFinished id inner) := by
  obtain ⟨a', done, store, sound'⟩ := extend_eq_ok sound inside (.deferred inner) (some inner)
    insideInner (fun _ same => by cases same; rfl) (fun _ same => by cases same; exact insideInner)
  refine ⟨_, a', done, ?_, sound'⟩
  rw [Store.run?_of_uses inside rfl, store]
  rfl

theorem performs_of_reading {α : Type} {c : Command} {ids : List Nat} {value : α} {f : α → Reply}
    {outcome : Except Fault (α × Store)} (used : c.uses = [id])
    (builds : a.store.Builds ids id outcome value) (within : ∀ i ∈ ids, i ≤ id)
    (perform_eq : ∀ t, outcome = .ok (value, t) → a.perform c = .ok (f value, { a with store := t }))
    (perform?_eq : ∀ t, a.store.Caches t → a.store.buildAll? ids = some t →
      a.store.perform? c = some (f value, t)) : a.Performs c := by
  obtain ⟨t, done, caches, built, -⟩ := builds.done sound.store inside within
  refine ⟨f value, { a with store := t }, perform_eq t done, ?_, cached_sound sound caches⟩
  rw [Store.run?_of_uses inside used]
  exact perform?_eq t caches (built (a.store.size + 1) (by omega))

theorem gather_builds : a.store.Builds (a.store.deferredAt id) id
    (a.store.gather [] id a.levels) (a.store.captures id) := by
  refine (Store.gathers_and_ascends id).1 a.store [] a.levels sound.store inside ?_ ?_
  · exact fun i mem => absurd mem List.not_mem_nil
  · unfold levels
    omega

theorem performs_captures : a.Performs (.captures id) := by
  refine performs_of_reading sound inside rfl (gather_builds sound inside)
    (a.store.deferredAt_le id) (f := .captures) ?_ ?_
  · intro t done
    simp only [perform, done, bind, Except.bind]
  · intro t caches built
    simp only [Store.perform?, built, Option.map_some, (caches.reading_eq sound.store inside).1]

theorem performs_complete : a.Performs (.complete id) := by
  obtain ⟨n, found⟩ := Store.exists_node inside
  refine performs_of_reading sound inside rfl (gather_builds sound inside)
    (a.store.deferredAt_le id)
    (f := fun captures => .completed n.parent? (n.sequence.build captures)) ?_ ?_
  · intro t done
    simp only [perform, Store.node_eq found, done, bind, Except.bind]
  · intro t caches built
    have completed := (caches.retained.lasting sound.store inside).complete_eq
    simp only [Store.perform?, built, Option.map_some, completed]
    simp only [Store.complete, found]

theorem performs_chain (stop? : Option Nat) : a.Performs (.chain id stop?) := by
  have builds : a.store.Builds (a.store.deferredAlong id stop?) id
      (a.store.ascend [] id stop? [] a.levels) (a.store.chain id stop?) := by
    refine (Store.gathers_and_ascends id).2 a.store [] a.levels stop? [] sound.store inside ?_ ?_
    · exact fun i mem => absurd mem List.not_mem_nil
    · unfold levels
      omega
  refine performs_of_reading sound inside rfl builds (a.store.deferredAlong_le id stop?)
    (f := .capture) ?_ ?_
  · intro t done
    simp only [perform, done, bind, Except.bind]
  · intro t caches built
    have same := (caches.retained.lasting sound.store inside).chain_eq stop?
    simp only [Store.perform?, built, Option.map_some, same]

theorem performs_force : a.Performs (.force id) := by
  obtain ⟨n, found⟩ := Store.exists_node inside
  cases progress : n.progress with
  | entered =>
    refine ⟨.done, a, ?_, ?_, sound⟩
    · simp only [perform, Store.node_eq found, progress, bind, Except.bind]
    · have built : a.store.isDeferred id = false := by
        refine Store.isDeferred_eq_false found fun previous inner deferred => ?_
        cases progress.symm.trans deferred
      rw [Store.run?_of_uses inside rfl, Store.perform?, Store.buildAll?_of_built built]
      rfl
  | extended previous slot =>
    have builds : a.store.Builds (Store.unbuilt id slot) id
        (a.store.readSlot [] id previous slot a.levels) (a.store.slotCapture previous slot) := by
      refine Store.readSlot_builds (fun i _ => (Store.gathers_and_ascends i).2) sound.store found
        progress ?_ ?_
      · exact fun i mem => absurd mem List.not_mem_nil
      · unfold levels
        omega
    refine performs_of_reading sound inside rfl builds Store.unbuilt_le (f := fun _ => .done) ?_ ?_
    · intro t done
      simp only [perform, Store.node_eq found, progress, done, bind, Except.bind]
    · intro t caches built
      rw [Store.perform?, ← Store.buildAll?_unbuilt found progress, built]
      rfl

theorem performs_trail : a.Performs (.trail id) := by
  have names : a.store.trailFrom id a.levels = .ok (a.store.trail id) := by
    refine Store.trailFrom_eq sound.store inside ?_
    unfold levels
    omega
  refine ⟨.trail (a.store.trail id), a, ?_, ?_, sound⟩
  · simp only [perform, names, bind, Except.bind]
  · rw [Store.run?_of_uses inside rfl, Store.perform?]

theorem performs_inspect : a.Performs (.inspect id) := by
  obtain ⟨n, found⟩ := Store.exists_node inside
  refine ⟨.summary ⟨n.nextPart?, n.resume?, n.parent?⟩, a, ?_, ?_, sound⟩
  · simp only [perform, Store.node_eq found, bind, Except.bind]
  · rw [Store.run?_of_uses inside rfl, Store.perform?]
    simp only [Store.nextPart?, Store.resume?, Store.parent?, found, Option.bind_some]

omit inside in
theorem performs_compact {roots : List Nat} (held : ∀ root ∈ roots, root < a.store.size) :
    a.Performs (.compact roots) := by
  obtain ⟨a', done, store, sound'⟩ := compact_eq sound held
  refine ⟨.compacted (roots.map (a.store.compact roots).2) a'.store.size, a', ?_, ?_, sound'⟩
  · simp only [perform, done, bind, Except.bind]
  · rw [run?_eq_perform? (c := .compact roots) held, Store.perform?,
      if_pos (Store.isIntact_of_sound sound.store), store]

end Performs

end Arena

/-- The places that the command is given, also those that it does not look at. -/
def Store.Command.places : Command → List Nat
  | .addFinished id inner => [id, inner]
  | c => c.uses

namespace Arena

variable {a : Arena}

theorem performs (sound : a.Sound) {c : Command} (held : ∀ id ∈ c.places, id < a.store.size) :
    a.Performs c := by
  cases c with
  | enter parent? sequence =>
    refine performs_enter sound sequence fun p same => held p ?_
    simp [Command.places, Command.uses, same]
  | addCapture id capture => exact performs_addCapture sound (held id List.mem_cons_self) capture
  | addFinished id inner =>
    exact performs_addFinished sound (held id List.mem_cons_self)
      (held inner (List.mem_cons_of_mem _ List.mem_cons_self))
  | force id => exact performs_force sound (held id List.mem_cons_self)
  | captures id => exact performs_captures sound (held id List.mem_cons_self)
  | chain id stop? => exact performs_chain sound (held id List.mem_cons_self) stop?
  | complete id => exact performs_complete sound (held id List.mem_cons_self)
  | trail id => exact performs_trail sound (held id List.mem_cons_self)
  | inspect id => exact performs_inspect sound (held id List.mem_cons_self)
  | compact roots => exact performs_compact sound held
  | clear => exact ⟨_, _, rfl, rfl, empty_sound⟩
  | count => exact ⟨_, _, rfl, rfl, sound⟩

/-- Commands lead from an empty arena to the arena. Each is given places of nodes that the arena then
holds, and these may be other nodes than the ones meant. -/
inductive Reached : Arena → Prop where
  | empty : Reached {}
  | perform {a a' : Arena} {c : Command} {reply : Reply} (h : Reached a)
      (held : ∀ id ∈ c.places, id < a.store.size) (done : a.perform c = .ok (reply, a')) :
    Reached a'

theorem Reached.sound (h : a.Reached) : a.Sound := by
  induction h with
  | empty => exact empty_sound
  | perform _ held done ih =>
    obtain ⟨reply, a', done', -, sound⟩ := performs ih held
    cases done.symm.trans done'
    exact sound

structure Backward (a : Arena) (id : Nat) (n : Node) : Prop where
  parent_lt : ∀ p, n.parent? = some p → p < id
  resume_lt : ∀ r, n.resume? = some r → r < id
  previous_lt : ∀ previous slot, n.progress = .extended previous slot → previous < id
  inner_lt : ∀ previous inner, n.progress = .extended previous (.deferred inner) → inner < id
  held_lt : ∀ inner, a.inners[id]? = some (some inner) → inner < id
  /-- Until the slot is built, the inner sequence is the one that the slot goes to. -/
  inner_held : ∀ previous inner, n.progress = .extended previous (.deferred inner) →
    a.inners[id]? = some (some inner)

theorem Sound.backward (sound : a.Sound) {id : Nat} {n : Node}
    (found : a.store.nodes[id]? = some n) : a.Backward id n := by
  have nodeSound := sound.store id n found
  have progressSound := nodeSound.progress
  refine ⟨nodeSound.parent_lt, fun r => Store.resume_lt sound.store found, ?_, ?_,
    sound.inner_lt id, fun previous inner => sound.deferred id n previous inner found⟩
  · intro previous slot progress
    rw [progress] at progressSound
    exact progressSound.1
  · intro previous inner progress
    rw [progress] at progressSound
    exact progressSound.2.1

/-- Whatever places of nodes commands are given, all links go to older nodes, and each command is
carried out without a fault: every place that is looked up is there, and no slot is read while it is
being built. -/
theorem places_are_safe (reached : a.Reached) :
    (∀ (id : Nat) (n : Node), a.store.nodes[id]? = some n → a.Backward id n) ∧
      ∀ c : Command, (∀ id ∈ c.places, id < a.store.size) →
        ∃ reply a', a.perform c = .ok (reply, a') ∧ a.store.run? c = some (reply, a'.store) ∧
          a'.Reached := by
  have sound := reached.sound
  refine ⟨fun id n found => sound.backward found, fun c held => ?_⟩
  obtain ⟨reply, a', done, run, -⟩ := performs sound held
  exact ⟨reply, a', done, run, reached.perform held done⟩

/-- Arenas hold the stores that commands lead to, and no others. -/
theorem exists_reached_iff {s : Store} : (∃ a : Arena, a.Reached ∧ a.store = s) ↔ s.Reached := by
  constructor
  · rintro ⟨a, reached, rfl⟩
    induction reached with
    | empty => exact .empty
    | @perform a a' c reply h held done ih =>
      obtain ⟨reply', b, done', run, -⟩ := performs h.sound held
      cases done.symm.trans done'
      refine .run ih ?_ run
      rintro id inner rfl
      exact held inner (List.mem_cons_of_mem _ List.mem_cons_self)
  · intro reached
    induction reached with
    | empty => exact ⟨{}, .empty, rfl⟩
    | @run s s' c reply _ inside done ih =>
      obtain ⟨a, h, rfl⟩ := ih
      have used : ∀ id ∈ c.uses, id < a.store.size := by
        rw [Store.run?] at done
        split at done
        · next used => simpa only [List.all_eq_true, decide_eq_true_eq] using used
        · cases done
      have held : ∀ id ∈ c.places, id < a.store.size := by
        cases c with
        | addFinished id inner =>
          intro i mem
          rcases List.mem_pair.mp mem with rfl | rfl
          · exact used i List.mem_cons_self
          · exact inside id i rfl
        | _ => exact used
      obtain ⟨reply', a', performed, run, -⟩ := performs h.sound held
      cases done.symm.trans run
      exact ⟨a', h.perform held performed, rfl⟩

def forked : Arena := ⟨Store.forked, [none, none, none, none, none, some 4]⟩

theorem forked_reached : forked.Reached := by
  have entered : Reached ⟨(Store.empty.enter none (Store.blanks 2)).2, [none]⟩ :=
    .perform (c := .enter none (Store.blanks 2)) .empty nofun rfl
  have parted := Reached.perform (c := .addCapture 0 (.empty .detached)) entered (by decide) rfl
  have inner := Reached.perform (c := .enter (some 0) (Store.blanks 1)) parted (by decide) rfl
  have innermost := Reached.perform (c := .enter (some 2) (Store.blanks 1)) inner (by decide) rfl
  have finished := Reached.perform (c := .addCapture 3 (.empty .detached)) innermost (by decide) rfl
  exact .perform (c := .addFinished 0 4) finished (by decide) rfl

theorem forked_safe : ∃ (s : Store) (reply : Reply) (a' : Arena),
    forked.perform (.force 5) = .ok (.done, ⟨s, forked.inners⟩) ∧ s.linksAt 5 = [0] ∧
      perform ⟨s, forked.inners⟩ (.compact [5]) = .ok (reply, a') := by
  obtain ⟨s, done, size, links⟩ : ∃ s : Store,
      forked.perform (.force 5) = .ok (.done, ⟨s, forked.inners⟩) ∧ s.size = 6 ∧
        s.linksAt 5 = [0] := ⟨_, rfl, rfl, rfl⟩
  have built : Reached ⟨s, forked.inners⟩ := forked_reached.perform (by decide) done
  have inside : ∀ id ∈ [5], id < s.size := by simp [size]
  obtain ⟨reply, a', moved, -, -⟩ := (places_are_safe built).2 (.compact [5]) inside
  exact ⟨s, reply, a', done, links, moved⟩

end Arena

end Lockstep
