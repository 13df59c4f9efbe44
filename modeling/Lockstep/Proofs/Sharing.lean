import Lockstep.Capture.Combiner
import Lockstep.Capture.Pool
import Lockstep.Proofs.Joining

set_option autoImplicit false

namespace Lockstep

theorem Capture.span?_eq (captures : List Capture) :
    span? captures = Position.ends? (captures.map position) := by
  cases captures with
  | nil => rfl
  | cons c cs => exact (Position.ends?_map position c cs).symm

/-- On plain lists, putting captures in front of an empty list one by one makes the list of them. -/
theorem Combiner.foldr_cons_eq {source : Source} {captures : List Capture}
    (order : Position.InOrder source (captures.map Capture.position)) (start : Position) :
    ∃ position, captures.foldr (fun head tail => cons 0 1 [head, tail]) (.list start []) =
        .list position captures ∧
      (captures.map Capture.position ≠ [] →
        Position.ends? (captures.map Capture.position) = some position) := by
  induction captures with
  | nil => exact ⟨start, rfl, fun some => absurd rfl some⟩
  | cons c cs ih =>
    obtain ⟨later, same, ends⟩ := ih order.tail
    refine ⟨if cs.isEmpty then c.position else c.position.upTo later, ?_, fun _ => ?_⟩
    · rw [List.foldr_cons, same]
      rfl
    · rw [List.map_cons, order.ends?_cons ends, List.isEmpty_map]

namespace Shared

variable {lists lists' : Nat → List Capture}

theorem position_plain (c : Shared) : (c.plain lists).position = c.position := by
  cases c <;> rfl

theorem span?_eq (cs : List Shared) : span? cs = Position.ends? (cs.map position) := by
  cases cs with
  | nil => rfl
  | cons c cs => exact (Position.ends?_map position c cs).symm

theorem span?_plain (cs : List Shared) : Capture.span? (cs.map (plain lists)) = span? cs := by
  rw [Capture.span?_eq, span?_eq, List.map_map]
  exact congrArg (fun f => Position.ends? (cs.map f)) (funext position_plain)

theorem plainAll_eq_map (cs : List Shared) : plainAll lists cs = cs.map (plain lists) := by
  induction cs with
  | nil => rfl
  | cons c cs ih => rw [plainAll, ih, List.map_cons]

theorem mem_placesOfAll {cs : List Shared} {i : Nat} :
    i ∈ placesOfAll cs ↔ ∃ c ∈ cs, i ∈ c.places := by
  induction cs with
  | nil => simp only [placesOfAll, List.not_mem_nil, false_and, exists_false]
  | cons c cs ih => simp only [placesOfAll, List.mem_append, ih, List.exists_mem_cons_iff]

mutual

theorem plain_congr : (c : Shared) → (∀ i ∈ c.places, lists i = lists' i) →
    c.plain lists = c.plain lists'
  | .token _, _ => rfl
  | .empty _, _ => rfl
  | .list h, same => congrArg _ (same h.place List.mem_cons_self)
  | .node tag p parts, same => congrArg (Capture.node tag p) (plainAll_congr parts same)

theorem plainAll_congr : (cs : List Shared) → (∀ i ∈ placesOfAll cs, lists i = lists' i) →
    plainAll lists cs = plainAll lists' cs
  | [], _ => rfl
  | c :: cs, same => by
    rw [plainAll, plainAll, plain_congr c fun i among => same i (List.mem_append_left _ among),
      plainAll_congr cs fun i among => same i (List.mem_append_right _ among)]

end

end Shared

namespace Pool

def Holds (p : Pool) (captures : List Shared) : Prop :=
  ∀ i ∈ Shared.placesOfAll captures, i < p.size

theorem holds_cons {p : Pool} {c : Shared} {cs : List Shared} :
    p.Holds (c :: cs) ↔ (∀ i ∈ c.places, i < p.size) ∧ p.Holds cs := by
  simp only [Holds, Shared.placesOfAll, List.mem_append, or_imp, forall_and]

theorem holds_singleton {p : Pool} {c : Shared} :
    p.Holds [c] ↔ ∀ i ∈ c.places, i < p.size :=
  holds_cons.trans (and_iff_left nofun)

/-- The chunks from `place?` on hold `items`, and each goes on to an older one. -/
inductive Chain (p : Pool) : Option Nat → List Shared → Prop where
  | nil : Chain p none []
  | cons {place : Nat} {c : Chunk} {more : List Shared} (found : p.chunks[place]? = some c)
    (older : ∀ rest ∈ c.rest?, rest < place) (rest : Chain p c.rest? more) :
    Chain p (some place) (c.items ++ more)

/-- The chunks of `p` are in `q` and differ at most in what has been gathered. -/
def Keeps (p q : Pool) : Prop :=
  ∀ (place : Nat) (c : Chunk), p.chunks[place]? = some c →
    ∃ flat?, q.chunks[place]? = some { c with flat? := flat? }

structure Tells (p : Pool) (place : Nat) (c : Chunk) (items : List Shared) : Prop where
  chain : p.Chain (some place) items
  length : c.length = items.length
  gathered : ∀ flat ∈ c.flat?, flat = items
  earlier : ∀ i ∈ Shared.placesOfAll c.items, i < place

def Sound (p : Pool) : Prop :=
  ∀ (place : Nat) (c : Chunk), p.chunks[place]? = some c → ∃ items, p.Tells place c items

variable {p q r : Pool} {place : Nat} {place? : Option Nat} {items items' more : List Shared}

theorem lt_size {c : Chunk} (found : p.chunks[place]? = some c) : place < p.size :=
  (Array.getElem?_eq_some_iff.mp found).1

theorem chunk_of_lt (inside : place < p.size) : ∃ c, p.chunks[place]? = some c :=
  ⟨_, Array.getElem?_eq_getElem inside⟩

theorem Chain.unique (h : p.Chain place? items) (h' : p.Chain place? items') : items = items' := by
  induction h generalizing items' with
  | nil =>
    cases h'
    rfl
  | cons found older rest ih =>
    cases h' with
    | cons found' older' rest' =>
      obtain rfl := Option.some.inj (found.symm.trans found')
      rw [ih rest']

theorem Chain.lt_size (h : p.Chain (some place) items) : place < p.size := by
  cases h with
  | cons found _ _ => exact Pool.lt_size found

theorem Chain.kept (h : p.Chain place? items) (keeps : p.Keeps q) : q.Chain place? items := by
  induction h with
  | nil => exact .nil
  | cons found older rest ih =>
    obtain ⟨flat?, found'⟩ := keeps _ _ found
    have kept := Chain.cons found' older ih
    exact kept

namespace Keeps

theorem refl (p : Pool) : p.Keeps p := fun _ c found => ⟨c.flat?, found⟩

theorem trans (h : p.Keeps q) (h' : q.Keeps r) : p.Keeps r := by
  intro place c found
  obtain ⟨flat?, found'⟩ := h place c found
  have kept := h' place _ found'
  exact kept

theorem size_le (h : p.Keeps q) : p.size ≤ q.size := by
  by_contra less
  obtain ⟨c, found⟩ := chunk_of_lt (Nat.lt_of_not_le less)
  obtain ⟨flat?, found'⟩ := h q.size c found
  exact Nat.lt_irrefl _ (Pool.lt_size found')

theorem lengthAt (h : p.Keeps q) (inside : place < p.size) :
    q.lengthAt place = p.lengthAt place := by
  obtain ⟨c, found⟩ := chunk_of_lt inside
  obtain ⟨flat?, found'⟩ := h _ _ found
  rw [Pool.lengthAt, Pool.lengthAt, found, found']
  rfl

theorem holds (h : p.Keeps q) (held : p.Holds items) : q.Holds items :=
  fun i among => Nat.lt_of_lt_of_le (held i among) h.size_le

end Keeps

theorem Tells.kept {c : Chunk} (h : p.Tells place c items) (keeps : p.Keeps q) :
    q.Tells place c items :=
  ⟨h.chain.kept keeps, h.length, h.gathered, h.earlier⟩

theorem sound_empty : empty.Sound := by
  intro place c found
  cases found

theorem Sound.chain (sound : p.Sound) (inside : place < p.size) :
    ∃ items, p.Chain (some place) items ∧ p.lengthAt place = items.length := by
  obtain ⟨c, found⟩ := chunk_of_lt inside
  obtain ⟨items, told⟩ := sound _ _ found
  refine ⟨items, told.chain, ?_⟩
  rw [lengthAt, found]
  exact told.length

theorem Sound.length_eq (sound : p.Sound) (chain : p.Chain (some place) items) :
    p.lengthAt place = items.length := by
  obtain ⟨items', chain', length⟩ := sound.chain chain.lt_size
  rw [length, chain.unique chain']

theorem elim_older {α : Type} {f : Nat → List α} {rest? : Option Nat}
    (older : ∀ rest ∈ rest?, rest < place) :
    (rest?.elim [] fun rest => if rest < place then f rest else []) = rest?.elim [] f := by
  cases rest? with
  | none => rfl
  | some rest => exact if_pos (older rest rfl)

/-- Whatever has been gathered before, all the items of the chunks from `place?` on are gathered. -/
theorem Sound.gather_eq (sound : p.Sound) (chain : p.Chain place? items) :
    place?.elim [] p.gather = items := by
  induction chain with
  | nil => rfl
  | @cons place c more found older rest ih =>
    obtain ⟨all, told⟩ := sound _ _ found
    have whole := told.chain.unique (.cons found older rest)
    rw [Option.elim_some, gather, found]
    cases flat? : c.flat? with
    | some flat =>
      simp only [flat?]
      rw [← whole, ← told.gathered flat flat?]
    | none =>
      simp only [flat?]
      rw [elim_older older, ih]

/-- All of `p` is kept in `q`, whose chunks tell the truth as well. -/
structure Onward (p q : Pool) : Prop where
  keeps : p.Keeps q
  sound : q.Sound

theorem Onward.refl (sound : p.Sound) : p.Onward p := ⟨.refl p, sound⟩

theorem Onward.trans (h : p.Onward q) (h' : q.Onward r) : p.Onward r :=
  ⟨h.keeps.trans h'.keeps, h'.sound⟩

section Push

variable (own : List Shared) (rest? : Option Nat)

theorem push_chunk_of_lt (inside : place < p.size) :
    (p.push own rest?).2.chunks[place]? = p.chunks[place]? :=
  (Array.getElem?_push).trans (if_neg (Nat.ne_of_lt inside))

theorem keeps_push : p.Keeps (p.push own rest?).2 :=
  fun _ c found => ⟨c.flat?, (push_chunk_of_lt own rest? (lt_size found)).trans found⟩

theorem size_push : (p.push own rest?).2.size = p.size + 1 := Array.size_push _

theorem push_chunk : (p.push own rest?).2.chunks[p.size]? =
    some ⟨own, rest?, own.length + rest?.elim 0 p.lengthAt, none⟩ := Array.getElem?_push_size

variable {own} {rest?}

theorem push_chain (chain : p.Chain rest? more) :
    (p.push own rest?).2.Chain (some p.size) (own ++ more) := by
  have older : ∀ rest ∈ rest?, rest < p.size := by
    intro rest goesOn
    cases goesOn
    exact chain.lt_size
  have whole := Chain.cons (push_chunk own rest?) older (chain.kept (keeps_push own rest?))
  exact whole

theorem push_onward (sound : p.Sound) (held : p.Holds own) (chain : p.Chain rest? more) :
    p.Onward (p.push own rest?).2 := by
  refine ⟨keeps_push own rest?, ?_⟩
  intro place c found
  have known := lt_size found
  rw [size_push] at known
  rcases Nat.lt_succ_iff_lt_or_eq.mp known with inside | rfl
  · obtain ⟨items, told⟩ := sound place c ((push_chunk_of_lt own rest? inside).symm.trans found)
    exact ⟨items, told.kept (keeps_push own rest?)⟩
  · obtain rfl := Option.some.inj ((push_chunk own rest?).symm.trans found)
    have length : rest?.elim 0 p.lengthAt = more.length := by
      cases rest? with
      | none => cases chain; rfl
      | some rest => exact sound.length_eq chain
    exact ⟨own ++ more, push_chain chain, by simp only [length, List.length_append], nofun, held⟩

end Push

theorem remember_chunk (p : Pool) (place i : Nat) (all : List Shared) :
    (p.remember place all).chunks[i]? =
      if place = i then p.chunks[i]?.map fun c => { c with flat? := some all }
      else p.chunks[i]? := Array.getElem?_modify

/-- Putting with a chunk what its chain holds changes no list. -/
theorem remember_onward (sound : p.Sound) (chain : p.Chain (some place) items) :
    p.Onward (p.remember place items) := by
  have keeps : p.Keeps (p.remember place items) := by
    intro i c found
    rw [remember_chunk, found]
    split
    · exact ⟨some items, rfl⟩
    · exact ⟨c.flat?, rfl⟩
  refine ⟨keeps, ?_⟩
  intro i c found
  rw [remember_chunk] at found
  split at found
  · next same =>
    subst same
    obtain ⟨c', found', rfl⟩ := Option.map_eq_some_iff.mp found
    obtain ⟨all, told⟩ := sound place c' found'
    obtain rfl := told.chain.unique chain
    refine ⟨all, told.chain.kept keeps, told.length, ?_, told.earlier⟩
    intro flat eq
    exact (Option.some.inj eq).symm
  · obtain ⟨all, told⟩ := sound i c found
    exact ⟨all, told.kept keeps⟩

section Read

variable {list : Handle}

theorem Sound.read_eq (sound : p.Sound) (chain : p.Chain (some list.place) items) :
    (p.read list).1 = items := by
  cases chain with
  | @cons _ c more found older rest =>
    obtain ⟨all, told⟩ := sound _ c found
    have whole := told.chain.unique (.cons found older rest)
    have gathered := sound.gather_eq rest
    rw [read, found]
    cases rest? : c.rest? with
    | none =>
      rw [rest?] at gathered
      simp only [rest?]
      rw [← gathered]
      exact (List.append_nil _).symm
    | some rest' =>
      rw [rest?] at gathered
      cases flat? : c.flat? with
      | some flat =>
        simp only [rest?, flat?]
        rw [← whole, ← told.gathered flat flat?]
      | none =>
        simp only [rest?, flat?]
        rw [← gathered, Option.elim_some]

theorem Sound.read_onward (sound : p.Sound) (list : Handle) : p.Onward (p.read list).2 := by
  rw [read]
  split
  · exact .refl sound
  · next c found =>
    split
    · exact .refl sound
    · exact .refl sound
    · next rest goesOn fresh =>
      obtain ⟨all, told⟩ := sound _ c found
      cases told.chain with
      | @cons _ c' more found' older tail =>
        obtain rfl := Option.some.inj (found.symm.trans found')
        have gathered := sound.gather_eq tail
        rw [goesOn, Option.elim_some] at gathered
        rw [gathered]
        exact remember_onward sound told.chain

end Read

section Build

variable {head : Shared} {tail whole : Handle}

theorem Sound.prepend_eq (sound : p.Sound) (head : Shared)
    (chain : p.Chain (some tail.place) items) :
    ∃ rest?, p.Chain rest? items ∧ p.prepend head tail =
      (⟨if items.isEmpty then head.position else head.position.upTo tail.position, p.size⟩,
        (p.push [head] rest?).2) := by
  have length : p.length tail = items.length := sound.length_eq chain
  rw [prepend, length]
  cases items with
  | nil => exact ⟨none, .nil, rfl⟩
  | cons c cs => exact ⟨some tail.place, chain, rfl⟩

theorem Sound.prepend_onward (sound : p.Sound) (held : p.Holds [head])
    (inside : tail.place < p.size) : p.Onward (p.prepend head tail).2 := by
  obtain ⟨items, chain, -⟩ := sound.chain inside
  obtain ⟨rest?, chain', made⟩ := sound.prepend_eq head chain
  rw [made]
  exact push_onward sound held chain'

theorem Sound.prepend_chain (sound : p.Sound) (head : Shared)
    (chain : p.Chain (some tail.place) items) :
    (p.prepend head tail).2.Chain (some (p.prepend head tail).1.place) (head :: items) := by
  obtain ⟨rest?, chain', made⟩ := sound.prepend_eq head chain
  rw [made]
  exact push_chain chain'

theorem ofItems?_eq_some (made : p.ofItems? items = some (whole, q)) :
    Shared.span? items = some whole.position ∧ whole.place = p.size ∧
      q = (p.push items none).2 := by
  obtain ⟨position, span, eq⟩ := Option.map_eq_some_iff.mp made
  cases eq
  exact ⟨span, rfl, rfl⟩

theorem Sound.ofItems?_onward (sound : p.Sound) (held : p.Holds items)
    (made : p.ofItems? items = some (whole, q)) : p.Onward q := by
  obtain ⟨-, -, rfl⟩ := ofItems?_eq_some made
  exact push_onward sound held .nil

theorem ofItems?_chain (made : p.ofItems? items = some (whole, q)) :
    q.Chain (some whole.place) items := by
  obtain ⟨-, place, rfl⟩ := ofItems?_eq_some made
  have chain : (p.push items none).2.Chain (some p.size) (items ++ []) := push_chain .nil
  rwa [List.append_nil, ← place] at chain

theorem Sound.emptyList_onward (sound : p.Sound) (anchor : Position) :
    p.Onward (p.emptyList anchor).2 := push_onward sound nofun .nil

end Build

theorem Sound.perform_onward (sound : p.Sound) {c : Command} (held : ∀ i ∈ c.uses, i < p.size) :
    p.Onward (p.perform c).2 := by
  cases c with
  | ofItems items =>
    rw [perform]
    split
    · next made => exact sound.ofItems?_onward held made
    · exact .refl sound
  | emptyList anchor => exact sound.emptyList_onward anchor
  | prepend head tail =>
    have headHeld := holds_singleton.mpr fun i among => held i (List.mem_cons_of_mem _ among)
    exact sound.prepend_onward headHeld (held tail.place List.mem_cons_self)
  | length list => exact .refl sound
  | read list => exact sound.read_onward list

theorem Sound.run?_onward (sound : p.Sound) {c : Command} {reply : Reply}
    (run : p.run? c = some (reply, q)) : p.Onward q := by
  rw [run?] at run
  split at run
  · next inside =>
    have outcome := Option.some.inj run
    have onward := sound.perform_onward fun i among =>
      of_decide_eq_true (List.all_eq_true.mp inside i among)
    rw [outcome] at onward
    exact onward
  · cases run

theorem Sound.after?_onward {commands : List Command} (sound : p.Sound)
    (led : p.after? commands = some q) : p.Onward q := by
  induction commands generalizing p with
  | nil =>
    cases led
    exact .refl sound
  | cons c commands ih =>
    obtain ⟨r, first, rest⟩ := Option.bind_eq_some_iff.mp led
    obtain ⟨⟨reply, r'⟩, run, rfl⟩ := Option.map_eq_some_iff.mp first
    have onward := sound.run?_onward run
    exact onward.trans (ih onward.sound rest)

section Grow

variable {start : Handle}

theorem Sound.prependAll_chain (sound : p.Sound) (held : p.Holds items)
    (none : p.Chain (some start.place) []) :
    let grown := p.prependAll items start
    p.Onward grown.2 ∧ grown.2.Chain (some grown.1.place) items := by
  induction items with
  | nil => exact ⟨.refl sound, none⟩
  | cons c cs ih =>
    obtain ⟨own, later⟩ := holds_cons.mp held
    obtain ⟨onward, chain⟩ := ih later
    have headHeld := onward.keeps.holds (holds_singleton.mpr own)
    exact ⟨onward.trans (onward.sound.prepend_onward headHeld chain.lt_size),
      onward.sound.prepend_chain c chain⟩

theorem Sound.prependAll_position (sound : p.Sound) (held : p.Holds items)
    (none : p.Chain (some start.place) []) {source : Source}
    (order : Position.InOrder source (items.map Shared.position))
    (some : items.map Shared.position ≠ []) :
    Position.ends? (items.map Shared.position) = .some (p.prependAll items start).1.position := by
  induction items with
  | nil => exact absurd rfl some
  | cons c cs ih =>
    have laterHeld := (holds_cons.mp held).2
    obtain ⟨onward, chain⟩ := sound.prependAll_chain laterHeld none
    obtain ⟨rest?, -, made⟩ := onward.sound.prepend_eq c chain
    change _ =
      Option.some ((p.prependAll cs start).2.prepend c (p.prependAll cs start).1).1.position
    rw [made, List.map_cons, order.ends?_cons (ih laterHeld order.tail), List.isEmpty_map]

end Grow

section Plain

/-- What a list stands for depends on its chunks and older ones. -/
theorem Keeps.plainItems_eq (h : p.Keeps q) (inside : place < p.size) :
    q.plainItems place = p.plainItems place := by
  induction place using Nat.strongRecOn with
  | ind place ih =>
    obtain ⟨c, found⟩ := chunk_of_lt inside
    obtain ⟨flat?, found'⟩ := h place c found
    have lists : (fun i => if i < place then q.plainItems i else []) =
        fun i => if i < place then p.plainItems i else [] := by
      funext i
      split
      · next older => exact ih i older (Nat.lt_trans older inside)
      · rfl
    rw [plainItems.eq_def q, plainItems.eq_def p, found, found']
    simp only [lists]

theorem Keeps.plain_eq (h : p.Keeps q) {c : Shared} (held : p.Holds [c]) :
    q.plain c = p.plain c :=
  Shared.plain_congr c fun i among => h.plainItems_eq (holds_singleton.mp held i among)

theorem Keeps.map_plain_eq (h : p.Keeps q) (held : p.Holds items) :
    items.map q.plain = items.map p.plain := by
  have same := Shared.plainAll_congr items fun i among => h.plainItems_eq (held i among)
  rw [Shared.plainAll_eq_map, Shared.plainAll_eq_map] at same
  exact same

theorem Sound.plainItems_eq (sound : p.Sound) (chain : p.Chain place? items) :
    place?.elim [] p.plainItems = items.map p.plain := by
  induction chain with
  | nil => rfl
  | @cons place c more found older rest ih =>
    obtain ⟨all, told⟩ := sound _ _ found
    have own : Shared.plainAll (fun i => if i < place then p.plainItems i else []) c.items =
        c.items.map p.plain :=
      (Shared.plainAll_congr c.items fun i among => if_pos (told.earlier i among)).trans
        (Shared.plainAll_eq_map c.items)
    rw [Option.elim_some, plainItems, found]
    simp only
    rw [own, elim_older older, ih, List.map_append]

variable {list : Handle}

theorem Sound.plain_list (sound : p.Sound) (chain : p.Chain (some list.place) items) :
    p.plain (.list list) = .list list.position (items.map p.plain) :=
  congrArg (Capture.list list.position) (sound.plainItems_eq chain)

/-- A list goes to no chunk made later. -/
theorem Sound.holds (sound : p.Sound) (chain : p.Chain place? items) : p.Holds items := by
  induction chain with
  | nil => exact nofun
  | @cons place c more found older rest ih =>
    obtain ⟨all, told⟩ := sound _ _ found
    intro i among
    obtain ⟨d, member, uses⟩ := Shared.mem_placesOfAll.mp among
    rcases List.mem_append.mp member with own | later
    · have earlier := told.earlier i (Shared.mem_placesOfAll.mpr ⟨d, own, uses⟩)
      exact Nat.lt_trans earlier (lt_size found)
    · exact ih i (Shared.mem_placesOfAll.mpr ⟨d, later, uses⟩)

/-- What `p` holds stands for plain captures, and the lists made of it for those made of them. -/
structure Mirrors (p : Pool) : Prop where
  read : ∀ list : Handle, list.place < p.size →
    p.plain (.list list) = .list list.position ((p.read list).1.map p.plain)
  ofItems? : ∀ items, p.Holds items →
    (p.ofItems? items).map (fun made => made.2.plain (.list made.1)) =
      Capture.ofItems? (items.map p.plain)
  emptyList : ∀ anchor : Position,
    (p.emptyList anchor).2.plain (.list (p.emptyList anchor).1) = Capture.emptyList anchor
  prepend : ∀ (head : Shared) (tail : Handle), p.Holds [head] → tail.place < p.size →
    (p.prepend head tail).2.plain (.list (p.prepend head tail).1) =
      Combiner.cons 0 1 [p.plain head, p.plain (.list tail)]

theorem Sound.mirrors (sound : p.Sound) : p.Mirrors where
  read list inside := by
    obtain ⟨items, chain, -⟩ := sound.chain inside
    rw [sound.plain_list chain, sound.read_eq chain]
  ofItems? items held := by
    have span : Capture.span? (items.map p.plain) = Shared.span? items := Shared.span?_plain items
    rw [Capture.ofItems?, span]
    cases made : p.ofItems? items with
    | none =>
      rw [Option.map_eq_none_iff.mp made]
      rfl
    | some whole =>
      obtain ⟨list, q⟩ := whole
      have onward := sound.ofItems?_onward held made
      have stands := onward.sound.plain_list (ofItems?_chain made)
      rw [(ofItems?_eq_some made).1, Option.map_some, Option.map_some, stands,
        onward.keeps.map_plain_eq held]
  emptyList anchor := by
    have chain : (p.emptyList anchor).2.Chain (some (p.emptyList anchor).1.place) [] :=
      push_chain .nil
    exact (sound.emptyList_onward anchor).sound.plain_list chain
  prepend head tail held inside := by
    obtain ⟨items, chain, -⟩ := sound.chain inside
    have onward := sound.prepend_onward held inside
    have whole := onward.sound.plain_list (sound.prepend_chain head chain)
    rw [whole, List.map_cons, onward.keeps.plain_eq held,
      onward.keeps.map_plain_eq (sound.holds chain), sound.plain_list chain]
    obtain ⟨rest?, -, made⟩ := sound.prepend_eq head chain
    have position : (p.plain head).position = head.position := Shared.position_plain head
    rw [made]
    change _ = (p.plain head).prepend tail.position (items.map p.plain)
    rw [Capture.prepend, List.isEmpty_map, position]

end Plain

/-- Captures that lie in order, put in front of any empty list one at a time, make the list of them.
So they do in a pool, whatever commands led to it: the list grown has the position, the length and
the items of the list made at once. A list of a pool is as long as what is read of it, one that was
put together reads as its head and then its tail, and no commands, readings included, change what
another list reads. What a pool holds stands for plain captures throughout. -/
theorem prepending_is_collecting {commands : List Command} {p : Pool}
    (led : empty.after? commands = some p) :
    (∀ (source : Source) (captures : List Capture) (start : Position), captures ≠ [] →
      Position.InOrder source (captures.map Capture.position) →
        some (captures.foldr (fun head tail => Combiner.cons 0 1 [head, tail]) (.list start [])) =
          Capture.ofItems? captures) ∧
    (∀ (source : Source) (items : List Shared) (start : Handle), items ≠ [] → p.Holds items →
      Position.InOrder source (items.map Shared.position) →
      start.place < p.size → p.length start = 0 →
        let (grown, q) := p.prependAll items start
        ∃ whole r, q.ofItems? items = some (whole, r) ∧ grown.position = whole.position ∧
          r.length grown = items.length ∧ r.length whole = items.length ∧
          (r.read grown).1 = items ∧ (r.read whole).1 = items) ∧
    (∀ list : Handle, list.place < p.size → p.length list = (p.read list).1.length) ∧
    (∀ (head : Shared) (tail : Handle), p.Holds [head] → tail.place < p.size →
      let (list, q) := p.prepend head tail
      (q.read list).1 = head :: (p.read tail).1) ∧
    (∀ (later : List Command) (q : Pool), p.after? later = some q →
      ∀ list : Handle, list.place < p.size →
        (q.read list).1 = (p.read list).1 ∧ q.length list = p.length list ∧
          q.plain (.list list) = p.plain (.list list)) ∧
    p.Mirrors := by
  have sound : p.Sound := (sound_empty.after?_onward led).sound
  refine ⟨?_, ?_, ?_, ?_, ?_, sound.mirrors⟩
  · intro source captures start some order
    obtain ⟨position, same, ends⟩ := Combiner.foldr_cons_eq order start
    have span := ends fun none => some (List.map_eq_nil_iff.mp none)
    rw [same, Capture.ofItems?, Capture.span?_eq, span, Option.map_some]
  · intro source items start some held order inside none
    obtain ⟨more, chain, length⟩ := sound.chain inside
    obtain rfl := List.eq_nil_of_length_eq_zero (length.symm.trans none)
    have ends := sound.prependAll_position held chain order fun none =>
      some (List.map_eq_nil_iff.mp none)
    have grows := sound.prependAll_chain held chain
    generalize p.prependAll items start = grown at ends grows
    obtain ⟨grown, q⟩ := grown
    obtain ⟨onward, grownChain⟩ := grows
    have made : q.ofItems? items = .some (⟨grown.position, q.size⟩, (q.push items .none).2) := by
      rw [ofItems?, Shared.span?_eq, ends]
      rfl
    have onward' := onward.sound.ofItems?_onward (onward.keeps.holds held) made
    have wholeChain := ofItems?_chain made
    have grownChain' := grownChain.kept onward'.keeps
    exact ⟨_, _, made, rfl, onward'.sound.length_eq grownChain', onward'.sound.length_eq wholeChain,
      onward'.sound.read_eq grownChain', onward'.sound.read_eq wholeChain⟩
  · intro list inside
    obtain ⟨items, chain, length⟩ := sound.chain inside
    rw [sound.read_eq chain]
    exact length
  · intro head tail held inside
    obtain ⟨items, chain, -⟩ := sound.chain inside
    have onward := sound.prepend_onward held inside
    change ((p.prepend head tail).2.read (p.prepend head tail).1).1 = _
    rw [onward.sound.read_eq (sound.prepend_chain head chain), sound.read_eq chain]
  · intro later q led' list inside
    obtain ⟨items, chain, -⟩ := sound.chain inside
    have onward := sound.after?_onward led'
    refine ⟨?_, onward.keeps.lengthAt inside, ?_⟩
    · rw [onward.sound.read_eq (chain.kept onward.keeps), sound.read_eq chain]
    · exact congrArg (Capture.list list.position) (onward.keeps.plainItems_eq inside)

def letter (offset : Nat) : Shared :=
  .token ⟨.word, "", .ofSpan (.ofText "t" "a b c") ⟨offset, offset + 1⟩⟩

def twoLetters : List Command :=
  [.emptyList .detached, .prepend (letter 4) ⟨.detached, 0⟩,
    .prepend (letter 2) ⟨(letter 4).position, 1⟩, .read ⟨.detached, 2⟩]

theorem letters_in_front :
    let letters := [0, 2, 4].map letter
    ∃ p, empty.after? twoLetters = some p ∧
      (letters ≠ [] ∧ p.Holds letters ∧
        Position.InOrder (.ofText "t" "a b c") (letters.map Shared.position) ∧ 0 < p.size ∧
        p.length ⟨.detached, 0⟩ = 0) ∧
      (let (grown, q) := p.prependAll letters ⟨.detached, 0⟩
        ∃ whole r, q.ofItems? letters = some (whole, r) ∧ grown.position = whole.position ∧
          r.length grown = 3 ∧ r.length whole = 3 ∧
          (r.read grown).1 = letters ∧ (r.read whole).1 = letters) ∧
      (p.Holds [letter 0] ∧ 2 < p.size) ∧
      let (list, q) := p.prepend (letter 0) ⟨.detached, 2⟩
      (q.read list).1 = letter 0 :: (p.read ⟨.detached, 2⟩).1 := by
  intro letters
  have led : empty.after? twoLetters = some _ := rfl
  obtain ⟨-, grow, -, prepend, -, -⟩ := prepending_is_collecting led
  have placed : ∀ position ∈ letters.map Shared.position,
      ∃ span, position = .ofSpan (.ofText "t" "a b c") span := by
    intro position among
    obtain ⟨c, member, rfl⟩ := List.mem_map.mp among
    obtain ⟨offset, -, rfl⟩ := List.mem_map.mp member
    exact ⟨⟨offset, offset + 1⟩, rfl⟩
  have order : Position.InOrder (.ofText "t" "a b c") (letters.map Shared.position) :=
    ⟨placed, by decide +kernel⟩
  refine ⟨_, led, ⟨List.cons_ne_nil _ _, nofun, order, by decide, rfl⟩, ?_, ⟨nofun, by decide⟩, ?_⟩
  · exact grow _ letters ⟨.detached, 0⟩ (List.cons_ne_nil _ _) nofun order (by decide) rfl
  · exact prepend (letter 0) ⟨.detached, 2⟩ nofun (by decide)

end Pool

end Lockstep
