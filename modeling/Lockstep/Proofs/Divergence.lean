import Mathlib.Data.Set.Finite.Lattice
import Lockstep.Proofs.Completion
import Lockstep.Proofs.Tree

set_option autoImplicit false

/-!
Steps without end. When a rule is entered again from inside its own expansion, the same steps can be
taken once more from there, with more frames around; and when the item of a list can be nothing, the
list is reached again behind it. Either way the tree of steps goes down without end.
-/

namespace Lockstep

/-- Some derivation of the matcher consumes no token. -/
def Grammar.Nullable (g : Grammar) (m : Matcher) : Prop :=
  ∃ c w c' capture, g.Derives m c w c' capture ∧ c'.rest = c.rest

/-- Going down from a place in a forest of steps, where `spotAt?` gives the spots, a rule is entered
again from inside its own expansion, or a list is reached whose item can be nothing. -/
inductive Grammar.Diverges (g : Grammar) (spotAt? : Place → Option Spot) : Prop where
  /-- While the rule is expanded, the frames that it was entered in stay as they are. -/
  | recursion {π σ : Place} {name : String} {guards guards' : List Predicate}
      {inner frames : List Frame} (entered : spotAt? π = some (.next (.rule name guards) frames))
      (again : spotAt? (π ++ σ) = some (.next (.rule name guards') (inner ++ frames)))
      (later : σ ≠ [])
      (inside : ∀ ρ s, ρ <+: σ → spotAt? (π ++ ρ) = some s → frames <:+ s.frames)
  | repetition {π : Place} {item : Matcher} {guards : List Predicate} {frames : List Frame}
      (reached : spotAt? π = some (.next (.list item none guards) frames))
      (nullable : g.Nullable item)

namespace Branching

variable {α : Type} {b : Branching α} {a a' a'' : α} {roots : List α} {π σ : Place}

theorem below?_append (a : α) (π σ : Place) :
    b.below? a (π ++ σ) = (b.below? a π).bind fun a => b.below? a σ := by
  induction π generalizing a with
  | nil => rfl
  | cons i π ih =>
    simp only [List.cons_append, below?, ih, Option.bind_assoc]

theorem nodeAt?_append (here : b.nodeAt? roots π = some a) (σ : Place) :
    b.nodeAt? roots (π ++ σ) = b.below? a σ := by
  cases π with
  | nil => cases here
  | cons i π =>
    obtain ⟨root, found, below⟩ := Option.bind_eq_some_iff.mp here
    simp only [List.cons_append, nodeAt?, found, Option.bind_some, below?_append, below]

def Leads (b : Branching α) (a a' : α) : Prop := ∃ σ, b.below? a σ = some a'

theorem Leads.refl (a : α) : b.Leads a a := ⟨[], rfl⟩

theorem below_of_child (child : a' ∈ b.children a) (more : b.Leads a' a'') :
    ∃ σ, σ ≠ [] ∧ b.below? a σ = some a'' := by
  obtain ⟨i, here⟩ := List.getElem?_of_mem child
  obtain ⟨σ, below⟩ := more
  exact ⟨i :: σ, List.cons_ne_nil i σ, Option.bind_eq_some_iff.mpr ⟨a', here, below⟩⟩

theorem Leads.child (child : a' ∈ b.children a) (more : b.Leads a' a'') : b.Leads a a'' := by
  obtain ⟨σ, -, below⟩ := below_of_child child more
  exact ⟨σ, below⟩

theorem Leads.trans (first : b.Leads a a') (more : b.Leads a' a'') : b.Leads a a'' := by
  obtain ⟨π, first⟩ := first
  obtain ⟨σ, more⟩ := more
  refine ⟨π ++ σ, ?_⟩
  rw [below?_append, first, Option.bind_some, more]

/-- A forest is infinite if some node of it has another one of its kind below it, and so has every
node of this kind. -/
theorem not_finite_of_endless {Kind : α → Prop}
    (endless : ∀ a, Kind a → ∃ σ a', σ ≠ [] ∧ b.below? a σ = some a' ∧ Kind a')
    (here : b.nodeAt? roots π = some a) (kind : Kind a) : ¬ (b.places roots).Finite := by
  have deep : ∀ n, ∃ π a, n ≤ π.length ∧ b.nodeAt? roots π = some a ∧ Kind a := by
    intro n
    induction n with
    | zero => exact ⟨π, a, Nat.zero_le _, here, kind⟩
    | succ n ih =>
      obtain ⟨π, a, long, here, kind⟩ := ih
      obtain ⟨σ, a', later, below, kind'⟩ := endless a kind
      refine ⟨π ++ σ, a', ?_, (nodeAt?_append here σ).trans below, kind'⟩
      rw [List.length_append]
      exact Nat.add_le_add long (List.length_pos_iff.mpr later)
  intro finite
  obtain ⟨N, bound⟩ := (finite.image List.length).bddAbove
  obtain ⟨π, a, long, here, -⟩ := deep (N + 1)
  have place : π ∈ b.places roots := Option.isSome_iff_exists.mpr ⟨a, here⟩
  exact absurd (bound (Set.mem_image_of_mem List.length place)) (Nat.not_le_of_gt long)

end Branching

namespace Frame

variable {c : Capture} {f : Frame} {fs base inner : List Frame} {m : Matcher} {s : Spot}

theorem advance_eq_of_climb (climbed : climb c fs = some s) : advance c fs = s := by
  cases fs with
  | nil => cases climbed
  | cons f fs =>
    cases next : (f.add c).next? with
    | some m =>
      rw [climb_of_next fs next] at climbed
      rw [advance, settle_of_next fs next]
      exact Option.some.inj climbed
    | none =>
      rw [climb_of_finished fs next] at climbed
      rw [advance, settle_of_finished fs next, climbed]
      rfl

theorem climb_of_advance {frames : List Frame} (advanced : advance c fs = .next m frames) :
    climb c fs = some (.next m frames) := by
  cases fs with
  | nil => cases advanced
  | cons f fs =>
    cases next : (f.add c).next? with
    | some m' =>
      rw [advance, settle_of_next fs next] at advanced
      rw [climb_of_next fs next, advanced]
    | none =>
      rw [advance, settle_of_finished fs next] at advanced
      rw [climb_of_finished fs next]
      cases climbed : climb (f.add c).capture fs with
      | none =>
        rw [climbed] at advanced
        cases advanced
      | some s =>
        rw [climbed] at advanced
        exact congrArg some advanced

def GoesOn (fs : List Frame) : Prop := ∀ c, ∃ s, climb c fs = some s

theorem GoesOn.cons (f : Frame) (h : GoesOn fs) : GoesOn (f :: fs) := by
  intro c
  cases next : (f.add c).next? with
  | some m => exact ⟨_, climb_of_next fs next⟩
  | none =>
    rw [climb_of_finished fs next]
    exact h _

theorem length_climb_le (climbed : climb c fs = some s) : s.frames.length ≤ fs.length := by
  induction fs generalizing c with
  | nil => cases climbed
  | cons f fs ih =>
    cases next : (f.add c).next? with
    | some m =>
      rw [climb_of_next fs next] at climbed
      cases climbed
      exact Nat.le_refl _
    | none =>
      rw [climb_of_finished fs next] at climbed
      exact Nat.le_succ_of_le (ih climbed)

/-- Climbing changes the frame that goes on, so the frames are not around the new spot. -/
theorem not_suffix_of_climb (climbed : climb c fs = some s) : ¬ fs <:+ s.frames := by
  intro around
  cases fs with
  | nil => cases climbed
  | cons f fs =>
    cases next : (f.add c).next? with
    | some m =>
      rw [climb_of_next fs next] at climbed
      cases climbed
      have same : f :: fs = f.add c :: fs := around.eq_of_length rfl
      have count := congrArg (fun f => f.captured.length) (List.cons.inj same).1
      simp only [add, List.length_append, List.length_singleton] at count
      exact absurd count (Nat.ne_of_lt (Nat.lt_succ_self _))
    | none =>
      rw [climb_of_finished fs next] at climbed
      exact absurd (Nat.le_trans around.length_le (length_climb_le climbed))
        (Nat.not_succ_le_self _)

/-- A climb that stays above `base` does not depend on it. -/
theorem climb_above {frames : List Frame} (climbed : climb c (inner ++ base) = some (.next m frames))
    (above : base <:+ frames) :
    ∃ inner', frames = inner' ++ base ∧
      ∀ base', climb c (inner ++ base') = some (.next m (inner' ++ base')) := by
  induction inner generalizing c with
  | nil => exact absurd above (not_suffix_of_climb climbed)
  | cons f inner ih =>
    simp only [List.cons_append] at climbed ⊢
    cases next : (f.add c).next? with
    | some m' =>
      rw [climb_of_next _ next] at climbed
      cases climbed
      exact ⟨f.add c :: inner, rfl, fun base' => climb_of_next _ next⟩
    | none =>
      rw [climb_of_finished _ next] at climbed
      obtain ⟨inner', same, anywhere⟩ := ih climbed
      exact ⟨inner', same, fun base' => (climb_of_finished _ next).trans (anywhere base')⟩

theorem settle_above {frames : List Frame}
    (settled : settle (f :: (inner ++ base)) = .next m frames) (above : base <:+ frames) :
    ∃ inner', frames = inner' ++ base ∧
      ∀ base', settle (f :: (inner ++ base')) = .next m (inner' ++ base') := by
  cases next : f.next? with
  | some m' =>
    rw [settle_of_next _ next] at settled
    cases settled
    exact ⟨f :: inner, rfl, fun base' => settle_of_next _ next⟩
  | none =>
    rw [settle_of_finished _ next] at settled
    cases climbed : climb f.capture (inner ++ base) with
    | none =>
      rw [climbed] at settled
      cases settled
    | some s =>
      rw [climbed] at settled
      rw [show s = .next m frames from settled] at climbed
      obtain ⟨inner', same, anywhere⟩ := climb_above climbed above
      refine ⟨inner', same, fun base' => ?_⟩
      rw [settle_of_finished _ next, anywhere]
      rfl

end Frame

namespace Strand

variable {g : Grammar} {marker : Capture} {m m' : Matcher} {frames : List Frame}
  {guards : List Predicate} {t t' u : Strand}

theorem children_of_unfold (defers : m.isDeferred = true) (unfolds : g.unfold m = .ok m') :
    (branching g marker).children ⟨.next m frames, guards⟩ =
      [⟨.next m' frames, guards ++ m.guards⟩] := by
  simp only [branching, expand_of_unfold_ok defers unfolds, Move.strands]

theorem unfolds_of_child {i : Nat} (defers : m.isDeferred = true)
    (child : ((branching g marker).children ⟨.next m frames, guards⟩)[i]? = some u) :
    ∃ m', g.unfold m = .ok m' ∧ i = 0 ∧ u = ⟨.next m' frames, guards ++ m.guards⟩ := by
  cases unfolds : g.unfold m with
  | error name =>
    simp only [branching, expand_of_unfold_error defers unfolds, Move.strands,
      List.getElem?_nil, reduceCtorEq] at child
  | ok m' =>
    rw [children_of_unfold defers unfolds] at child
    obtain ⟨bound, same⟩ := List.getElem?_eq_some_iff.mp child
    obtain rfl : i = 0 := Nat.lt_one_iff.mp bound
    exact ⟨m', rfl, rfl, same.symm⟩

theorem next_of_below {σ : Place} (below : (branching g marker).below? t σ = some u)
    (next : u.spot = .next m frames) : ∃ m' frames', t.spot = .next m' frames' := by
  cases σ with
  | nil =>
    cases below
    exact ⟨m, frames, next⟩
  | cons i σ =>
    obtain ⟨v, child, -⟩ := Option.bind_eq_some_iff.mp below
    cases spot : t.spot with
    | next m' frames' => exact ⟨m', frames', rfl⟩
    | done frames' =>
      simp only [branching, expand, spot, Move.strands, List.getElem?_nil, reduceCtorEq] at child

/-- The strands are at the same matcher, with the same frames above `base` and `base'`. -/
def Rebased (base base' : List Frame) (t t' : Strand) : Prop :=
  ∃ m inner, t.spot = .next m (inner ++ base) ∧ t'.spot = .next m (inner ++ base')

variable {base base' : List Frame}

/-- A step that stays above `base` can be made above `base'`. -/
theorem Rebased.child (h : Rebased base base' t t') {i : Nat}
    (child : ((branching g marker).children t)[i]? = some u) (next : u.spot = .next m frames)
    (above : base <:+ frames) :
    ∃ u', ((branching g marker).children t')[i]? = some u' ∧ Rebased base base' u u' := by
  obtain ⟨m₀, inner, spot, spot'⟩ := h
  obtain ⟨_, guards⟩ := t
  obtain ⟨_, guards'⟩ := t'
  cases spot
  cases spot'
  have deferred : m₀.isDeferred = true →
      ∃ u', ((branching g marker).children ⟨.next m₀ (inner ++ base'), guards'⟩)[i]? = some u' ∧
        Rebased base base' u u' := by
    intro defers
    obtain ⟨m', unfolds, rfl, rfl⟩ := unfolds_of_child defers child
    rw [children_of_unfold defers unfolds]
    exact ⟨_, rfl, m', inner, rfl, rfl⟩
  cases m₀ with
  | token spec guards₀ =>
    simp only [branching, expand, Move.strands, List.getElem?_nil, reduceCtorEq] at child
  | nothing guards₀ =>
    simp only [branching, expand, Move.strands] at child ⊢
    obtain ⟨bound, rfl⟩ := List.getElem?_eq_some_iff.mp child
    obtain rfl : i = 0 := Nat.lt_one_iff.mp bound
    obtain ⟨inner', rfl, anywhere⟩ := Frame.climb_above (Frame.climb_of_advance next) above
    exact ⟨_, rfl, m, inner', next, Frame.advance_eq_of_climb (anywhere base')⟩
  | sequence name? parts build guards₀ =>
    simp only [branching, expand, Move.strands] at child ⊢
    obtain ⟨bound, rfl⟩ := List.getElem?_eq_some_iff.mp child
    obtain rfl : i = 0 := Nat.lt_one_iff.mp bound
    obtain ⟨inner', rfl, anywhere⟩ := Frame.settle_above next above
    exact ⟨_, rfl, m, inner', next, anywhere base'⟩
  | branch options guards₀ =>
    simp only [branching, expand, Move.strands, List.getElem?_map] at child ⊢
    obtain ⟨option, here, rfl⟩ := Option.map_eq_some_iff.mp child
    rw [here]
    exact ⟨_, rfl, option, inner, rfl, rfl⟩
  | rule => exact deferred rfl
  | list => exact deferred rfl
  | tail => exact deferred rfl

theorem Rebased.below (h : Rebased base base' t t') {σ : Place}
    (below : (branching g marker).below? t σ = some u) (next : u.spot = .next m frames)
    (inside : ∀ ρ v, ρ <+: σ → (branching g marker).below? t ρ = some v → base <:+ v.spot.frames) :
    ∃ u', (branching g marker).below? t' σ = some u' ∧ Rebased base base' u u' := by
  induction σ generalizing t t' with
  | nil =>
    cases below
    exact ⟨t', rfl, h⟩
  | cons i σ ih =>
    obtain ⟨v, child, below⟩ := Option.bind_eq_some_iff.mp below
    obtain ⟨m', frames', here⟩ := next_of_below below next
    have inside' : ∀ ρ x, ρ <+: σ → (branching g marker).below? v ρ = some x →
        base <:+ x.spot.frames := by
      intro ρ x shorter found
      exact inside (i :: ρ) x ((List.prefix_cons_inj i).mpr shorter)
        (Option.bind_eq_some_iff.mpr ⟨v, child, found⟩)
    have above : base <:+ v.spot.frames := inside' [] v (List.nil_prefix) rfl
    rw [here] at above
    obtain ⟨v', child', rebased⟩ := h.child child here above
    obtain ⟨u', below', rebased'⟩ := ih rebased below inside'
    exact ⟨u', Option.bind_eq_some_iff.mpr ⟨v', child', below'⟩, rebased'⟩

/-- Steps without a token lead over the matcher to where its frames go on. -/
def PassesOver (g : Grammar) (marker : Capture) (m : Matcher) : Prop :=
  ∀ frames guards, Frame.GoesOn frames → ∃ c s guards', Frame.climb c frames = some s ∧
    (branching g marker).Leads ⟨.next m frames, guards⟩ ⟨s, guards'⟩

def PassesOverAll (g : Grammar) (marker : Capture) (ms : List Matcher) : Prop :=
  ∀ (f : Frame) fs guards, f.remaining = ms → Frame.GoesOn fs → ∃ captures guards',
    captures.length = ms.length ∧ (branching g marker).Leads
      ⟨Frame.settle (f :: fs), guards⟩ ⟨Frame.settle (f.addAll captures :: fs), guards'⟩

theorem PassesOver.sequence {name? : Option String} {parts : List Matcher} {build : Combiner}
    {guards₀ : List Predicate} (all : PassesOverAll g marker parts) :
    PassesOver g marker (.sequence name? parts build guards₀) := by
  intro frames guards around
  let entered : Frame := ⟨⟨name?, parts, build⟩, []⟩
  obtain ⟨captures, guards', count, leads⟩ := all entered frames (guards ++ guards₀) rfl around
  have finished : (entered.addAll captures).next? = none := by
    rw [Frame.next?, List.getElem?_eq_none_iff]
    exact Nat.le_of_eq count.symm
  obtain ⟨s, climbed⟩ := around (entered.addAll captures).capture
  rw [Frame.settle_of_finished frames finished, climbed] at leads
  exact ⟨_, s, guards', climbed, leads.child List.mem_cons_self⟩

theorem PassesOverAll.cons {ms : List Matcher} (head : PassesOver g marker m)
    (tail : PassesOverAll g marker ms) : PassesOverAll g marker (m :: ms) := by
  intro f fs guards parts around
  have next : f.next? = some m := by
    rw [Frame.next?, ← List.head?_drop]
    exact congrArg List.head? parts
  obtain ⟨c, s, guards', climbed, leads⟩ := head (f :: fs) guards (around.cons f)
  have later : (f.add c).remaining = ms := by
    rw [Frame.remaining_eq_cons next] at parts
    rw [Frame.remaining_add]
    exact (List.cons.inj parts).2
  obtain ⟨captures, guards'', count, leads'⟩ := tail (f.add c) fs guards' later around
  have advanced : Frame.settle (f.add c :: fs) = s := Frame.advance_eq_of_climb climbed
  rw [advanced] at leads'
  refine ⟨c :: captures, guards'', congrArg Nat.succ count, ?_⟩
  rw [Frame.addAll_cons, Frame.settle_of_next fs next]
  exact leads.trans leads'

end Strand

namespace Grammar

variable {g : Grammar} {m : Matcher} {ms : List Matcher} {c d : Cursor} {w : Choices}
  {capture : Capture} {captures : List Capture}

theorem Derives.taken (h : g.Derives m c w d capture) : ∃ taken, c.rest = taken ++ d.rest := by
  have finished : g.Finishes (Frame.advance capture [⟨⟨none, [m], .nth 0⟩, []⟩]) d [] d capture :=
    ⟨_, .stay, rfl⟩
  obtain ⟨frames, walk, -⟩ := h.passes _ _ _ _ (List.cons_ne_nil _ _) finished
  obtain ⟨taken, rest, -⟩ := walk.taken
  exact ⟨taken, rest⟩

theorem DerivesAll.taken (h : g.DerivesAll ms c w d captures) :
    ∃ taken, c.rest = taken ++ d.rest := by
  induction ms generalizing c w captures with
  | nil =>
    obtain ⟨-, rfl, -⟩ := derivesAll_nil_iff.mp h
    exact ⟨[], rfl⟩
  | cons m ms ih =>
    obtain ⟨e, u, v, first, later, -, -, head, tail⟩ := derivesAll_cons_iff.mp h
    obtain ⟨taken, rest⟩ := head.taken
    obtain ⟨taken', rest'⟩ := ih tail
    refine ⟨taken ++ taken', ?_⟩
    rw [rest, rest', List.append_assoc]

theorem Derives.passesOver (h : g.Derives m c w d capture) (none : d.rest = c.rest)
    (marker : Capture) : Strand.PassesOver g marker m := by
  revert none
  refine @Derives.rec g
    (fun m c w d capture _ => d.rest = c.rest → Strand.PassesOver g marker m)
    (fun ms c w d captures _ => d.rest = c.rest → Strand.PassesOverAll g marker ms)
    ?token ?nothing ?sequence ?branch ?deferred ?nil ?cons m c w d capture h
  case token =>
    intro spec guards c token rest next accepts admitted none
    have same : rest = token :: rest := none.trans next
    exact absurd same.symm (List.cons_ne_self token rest)
  case nothing =>
    intro guards₀ c none frames guards around
    obtain ⟨s, climbed⟩ := around marker
    refine ⟨marker, s, guards ++ guards₀, climbed, ?_⟩
    rw [← Frame.advance_eq_of_climb climbed]
    exact (Branching.Leads.refl _).child List.mem_cons_self
  case sequence =>
    intro name? parts build guards₀ c d w captures all passes none
    exact .sequence (passes none)
  case branch =>
    intro options guards₀ c d i m w capture option derives passes none frames guards around
    obtain ⟨c', s, guards', climbed, leads⟩ := passes none frames (guards ++ guards₀) around
    refine ⟨c', s, guards', climbed, leads.child ?_⟩
    exact List.mem_map.mpr ⟨m, List.mem_of_getElem? option, rfl⟩
  case deferred =>
    intro m m' c d w capture defers unfolds derives passes none frames guards around
    obtain ⟨c', s, guards', climbed, leads⟩ := passes none frames (guards ++ m.guards) around
    refine ⟨c', s, guards', climbed, leads.child ?_⟩
    rw [Strand.children_of_unfold defers unfolds]
    exact List.mem_cons_self
  case nil =>
    intro c none f fs guards parts around
    refine ⟨[], guards, rfl, ?_⟩
    rw [Frame.addAll_nil]
    exact .refl _
  case cons =>
    intro m ms c d e u v capture captures head tail passes passesAll none
    -- Neither part takes a token, as the two together take none.
    obtain ⟨taken, rest⟩ := head.taken
    obtain ⟨taken', rest'⟩ := tail.taken
    have count := congrArg List.length none
    rw [rest, rest', List.length_append, List.length_append] at count
    obtain rfl : taken = [] := List.length_eq_zero_iff.mp (by omega)
    obtain rfl : taken' = [] := List.length_eq_zero_iff.mp (by omega)
    exact .cons (passes rest.symm) (passesAll rest'.symm)

theorem Nullable.passesOver (h : g.Nullable m) (marker : Capture) :
    Strand.PassesOver g marker m := by
  obtain ⟨c, w, d, capture, derives, none⟩ := h
  exact derives.passesOver none marker

end Grammar

namespace Strand

variable {g : Grammar} {marker : Capture}

def EntersRule (name : String) (t : Strand) : Prop :=
  ∃ guards frames, t.spot = .next (.rule name guards) frames

def EntersList (item : Matcher) (t : Strand) : Prop :=
  ∃ guards frames, t.spot = .next (.list item none guards) frames

/-- A list whose item can be nothing is reached again. -/
theorem list_endless {item : Matcher} (nullable : g.Nullable item) {t : Strand}
    (enters : t.EntersList item) :
    ∃ σ t', σ ≠ [] ∧ (branching g marker).below? t σ = some t' ∧ t'.EntersList item := by
  obtain ⟨_, pending⟩ := t
  obtain ⟨guards, frames, same⟩ := enters
  cases same
  let round : Matcher := .sequence none [item, .list item none []] (.cons 0 1) []
  let entered : Frame := ⟨⟨none, [item, .list item none []], .cons 0 1⟩, []⟩
  have around : Frame.GoesOn (entered :: frames) := fun c => ⟨_, rfl⟩
  obtain ⟨c, s, pending', climbed, ofItem⟩ :=
    nullable.passesOver marker (entered :: frames) (pending ++ guards ++ [] ++ []) around
  have ofRound : (branching g marker).Leads ⟨.next round frames, pending ++ guards ++ []⟩
      ⟨s, pending'⟩ := ofItem.child List.mem_cons_self
  have ofItems : (branching g marker).Leads ⟨.next (.anyItems item) frames, pending ++ guards⟩
      ⟨s, pending'⟩ := ofRound.child List.mem_cons_self
  obtain ⟨σ, later, below⟩ := Branching.below_of_child
    (a := ⟨.next (.list item none guards) frames, pending⟩) List.mem_cons_self ofItems
  cases climbed
  exact ⟨σ, _, later, below, [], _, rfl⟩

/-- What is done from one entry of a rule to the next can be done again from any entry. -/
theorem rule_endless {name : String} {guards guards' : List Predicate} {inner base : List Frame}
    {t u : Strand} {σ : Place} (entered : t.spot = .next (.rule name guards) base)
    (below : (branching g marker).below? t σ = some u) (later : σ ≠ [])
    (again : u.spot = .next (.rule name guards') (inner ++ base))
    (inside : ∀ ρ v, ρ <+: σ → (branching g marker).below? t ρ = some v → base <:+ v.spot.frames)
    {t' : Strand} (enters : t'.EntersRule name) :
    ∃ u', (branching g marker).below? t' σ = some u' ∧ u'.EntersRule name := by
  obtain ⟨_, pending⟩ := t
  obtain ⟨_, pending'⟩ := t'
  obtain ⟨guards₀, frames, same⟩ := enters
  cases entered
  cases same
  cases σ with
  | nil => exact absurd rfl later
  | cons i σ =>
    obtain ⟨v, child, below⟩ := Option.bind_eq_some_iff.mp below
    obtain ⟨m, unfolds, rfl, rfl⟩ := unfolds_of_child rfl child
    have unfolds' : g.unfold (.rule name guards₀) = .ok m := unfolds
    have child' : ((branching g marker).children ⟨.next (.rule name guards₀) frames, pending'⟩)[0]? =
        some ⟨.next m frames, pending' ++ guards₀⟩ := by
      rw [children_of_unfold rfl unfolds']
      rfl
    have rebased : Rebased base frames ⟨.next m base, pending ++ guards⟩
        ⟨.next m frames, pending' ++ guards₀⟩ := ⟨m, [], rfl, rfl⟩
    obtain ⟨u', below', m', inner', here, here'⟩ := rebased.below below again fun ρ x shorter found =>
      inside (0 :: ρ) x ((List.prefix_cons_inj 0).mpr shorter)
        (Option.bind_eq_some_iff.mpr ⟨_, child, found⟩)
    obtain ⟨rfl, -⟩ := Spot.next.inj (again.symm.trans here)
    exact ⟨u', Option.bind_eq_some_iff.mpr ⟨_, child', below'⟩, _, _, here'⟩

theorem not_finite_of_diverges {roots : List Strand}
    (diverges : g.Diverges fun π => ((branching g marker).nodeAt? roots π).map Strand.spot) :
    ¬ ((branching g marker).places roots).Finite := by
  cases diverges with
  | @recursion π σ name guards guards' inner base entered again later inside =>
    obtain ⟨t, here, entered⟩ := Option.map_eq_some_iff.mp entered
    obtain ⟨u, below, again⟩ := Option.map_eq_some_iff.mp again
    rw [Branching.nodeAt?_append here] at below
    have inside' : ∀ ρ v, ρ <+: σ → (branching g marker).below? t ρ = some v →
        base <:+ v.spot.frames := by
      intro ρ v shorter found
      refine inside ρ v.spot shorter (Option.map_eq_some_iff.mpr ⟨v, ?_, rfl⟩)
      rw [Branching.nodeAt?_append here, found]
    have enters : t.EntersRule name := ⟨guards, base, entered⟩
    refine Branching.not_finite_of_endless ?_ here enters
    intro t' enters'
    obtain ⟨u', below', again'⟩ := rule_endless entered below later again inside' enters'
    exact ⟨σ, u', later, below', again'⟩
  | @repetition π item guards frames reached nullable =>
    obtain ⟨t, here, reached⟩ := Option.map_eq_some_iff.mp reached
    have enters : t.EntersList item := ⟨guards, frames, reached⟩
    exact Branching.not_finite_of_endless (fun t' => list_endless nullable) here enters

end Strand

end Lockstep
