import Mathlib.Data.Set.Card
import Lockstep.Proofs.Proper

set_option autoImplicit false

/-!
Trees of steps. What a derivation comes to without a token is a tree: a step leads to one derivation
or, at a branch, to several. Resolving goes through the trees of all derivations depth first and
counts; it ends well exactly if the trees together are small enough, and otherwise hits a limit.
-/

namespace Lockstep

/-- A place in a forest: which root, then which child of it, and so on down. -/
abbrev Place := List Nat

/-- How the nodes of a forest branch, and what those of them wait for that wait. -/
structure Branching (α : Type) where
  children : α → List α
  goal? : α → Option Goal

open Choices (Before)

namespace Branching

section

variable {α : Type} (b : Branching α)

def below? (a : α) : Place → Option α
  | [] => some a
  | i :: π => (b.children a)[i]?.bind fun a => below? a π

def nodeAt? (roots : List α) : Place → Option α
  | [] => none
  | i :: π => roots[i]?.bind fun a => b.below? a π

def places (roots : List α) : Set Place := {π | (b.nodeAt? roots π).isSome}

def goalAt? (roots : List α) (π : Place) : Option Goal := (b.nodeAt? roots π).bind b.goal?

/-- The places of nodes that wait, up to the place `π`, in the order of a depth-first walk. -/
def waitingUpTo (roots : List α) (π : Place) : Set Place :=
  {σ | (b.goalAt? roots σ).isSome ∧ (σ = π ∨ Before σ π)}

/-- The forest is small enough to be resolved under the limits. -/
structure Fits (limits : Limits) (roots : List α) : Prop where
  finite : (b.places roots).Finite
  nodes : (b.places roots).ncard ≤ limits.maxExpansions
  /-- Accepted derivations are counted, but are not bounded themselves. -/
  threads : ∀ π spec, b.goalAt? roots π = some (.token spec) →
    (b.waitingUpTo roots π).ncard ≤ limits.maxThreads

/-- The node `x` is at the place `w` when the trees `ts` are at the places given with them. -/
def Stands (ts : List (Place × α)) (w : Place) (x : α) : Prop :=
  ∃ u t v, (u, t) ∈ ts ∧ w = u ++ v ∧ b.below? t v = some x

def placesOf (ts : List (Place × α)) : Set Place := {w | ∃ x, b.Stands ts w x}

def waitingOf (ts : List (Place × α)) (w : Place) : Set Place :=
  {v | (∃ x, b.Stands ts v x ∧ (b.goal? x).isSome) ∧ (v = w ∨ Before v w)}

def Within (limits : Limits) (spent : Nat) (ts : List (Place × α)) : Prop :=
  ∀ w x spec, b.Stands ts w x → b.goal? x = some (.token spec) →
    spent + (b.waitingOf ts w).encard ≤ limits.maxThreads

/-- With `budget` steps left and `spent` nodes waiting already, the trees can all be resolved. -/
def Affords (limits : Limits) (budget spent : Nat) (ts : List (Place × α)) : Prop :=
  (b.placesOf ts).encard ≤ budget ∧ b.Within limits spent ts

end

end Branching

namespace Choices

theorem Before.asymm {u v : Choices} (h : Before u v) : ¬ Before v u := by
  induction u generalizing v with
  | nil => exact h.elim
  | cons i u ih =>
    cases v with
    | nil => exact h.elim
    | cons j v =>
      rcases h with earlier | ⟨rfl, later⟩
      · rintro (back | ⟨same, -⟩)
        · exact Nat.lt_asymm earlier back
        · exact Nat.ne_of_gt earlier same
      · rintro (back | ⟨-, back⟩)
        · exact Nat.lt_irrefl i back
        · exact ih later back

end Choices

namespace Move

def strands : Move → List Strand
  | .ready _ => []
  | .moved t => [t]
  | .split ts => ts
  | .unknown _ => []

def goal? : Move → Option Goal
  | .ready x => some x.goal
  | _ => none

end Move

def Strand.branching (g : Grammar) (marker : Capture) : Branching Strand where
  children t := (t.expand g marker).1.strands
  goal? t := (t.expand g marker).1.goal?

namespace Branching

variable {b : Branching Strand} {limits : Limits} {spent budget : Nat} {u w : Place}
  {t x : Strand} {ts : List (Place × Strand)}

theorem stands_nil : ¬ b.Stands [] w x := by
  rintro ⟨u, t, v, mem, -⟩
  cases mem

theorem stands_cons_iff :
    b.Stands ((u, t) :: ts) w x ↔
      (w = u ∧ x = t) ∨ b.Stands (forks u (b.children t) ++ ts) w x := by
  constructor
  · rintro ⟨u', t', v, mem, rfl, below⟩
    rcases List.mem_cons.mp mem with same | later
    · cases same
      cases v with
      | nil =>
        cases below
        exact .inl ⟨List.append_nil u, rfl⟩
      | cons i v =>
        obtain ⟨t', child, below⟩ := Option.bind_eq_some_iff.mp below
        have fork : (u ++ [i], t') ∈ forks u (b.children t) := mem_forks_iff.mpr ⟨i, child, rfl⟩
        exact .inr ⟨u ++ [i], t', v, List.mem_append_left ts fork,
          (List.append_assoc u [i] v).symm, below⟩
    · exact .inr ⟨u', t', v, List.mem_append_right _ later, rfl, below⟩
  · rintro (⟨rfl, rfl⟩ | ⟨u', t', v, mem, rfl, below⟩)
    · exact ⟨w, x, [], List.mem_cons_self, (List.append_nil w).symm, rfl⟩
    · rcases List.mem_append.mp mem with fork | later
      · obtain ⟨i, child, rfl⟩ := mem_forks_iff.mp fork
        exact ⟨u, t, i :: v, List.mem_cons_self, List.append_assoc u [i] v,
          Option.bind_eq_some_iff.mpr ⟨t', child, below⟩⟩
      · exact ⟨u', t', v, List.mem_cons_of_mem _ later, rfl, below⟩

theorem before_of_stands (ordered : Ordered ((u, t) :: ts)) (h : b.Stands ts w x) :
    Before u w := by
  obtain ⟨u', t', v, mem, rfl, -⟩ := h
  have before := ((List.pairwise_cons.mp ordered).1 _ mem).extend [] v
  rw [List.append_nil] at before
  exact before

/-- Nothing else is at the place of the first root, or before it. -/
theorem after_of_stands (ordered : Ordered ((u, t) :: ts)) {us : List Strand}
    (h : b.Stands (forks u us ++ ts) w x) : w ≠ u ∧ ¬ Before w u := by
  obtain ⟨u', t', v, mem, rfl, below⟩ := h
  rcases List.mem_append.mp mem with fork | later
  · obtain ⟨i, -, rfl⟩ := mem_forks_iff.mp fork
    rw [List.append_assoc]
    refine ⟨?_, (Choices.not_before_append u ([i] ++ v)).2⟩
    exact fun same => List.cons_ne_nil i v (List.append_right_eq_self.mp same)
  · have before := before_of_stands ordered ⟨u', t', v, later, rfl, below⟩
    refine ⟨?_, before.asymm⟩
    intro same
    rw [same] at before
    exact before.asymm before

theorem encard_placesOf_cons_le_iff (ordered : Ordered ((u, t) :: ts)) :
    (b.placesOf ((u, t) :: ts)).encard ≤ (budget + 1 : Nat) ↔
      (b.placesOf (forks u (b.children t) ++ ts)).encard ≤ budget := by
  have same : b.placesOf ((u, t) :: ts) = insert u (b.placesOf (forks u (b.children t) ++ ts)) := by
    ext w
    simp only [placesOf, stands_cons_iff, Set.mem_ofPred_eq, Set.mem_insert_iff, exists_or,
      exists_and_left, exists_eq, and_true]
  have fresh : u ∉ b.placesOf (forks u (b.children t) ++ ts) := by
    rintro ⟨x, stands⟩
    exact (after_of_stands ordered stands).1 rfl
  rw [same, Set.encard_insert_of_notMem fresh, Nat.cast_add, Nat.cast_one]
  exact WithTop.add_le_add_iff_right ENat.one_ne_top

/-- A step that leads on does not change what waits. -/
theorem within_step_iff (goes : b.goal? t = none) :
    b.Within limits spent ((u, t) :: ts) ↔
      b.Within limits spent (forks u (b.children t) ++ ts) := by
  have waiting : ∀ w x, (b.goal? x).isSome →
      (b.Stands ((u, t) :: ts) w x ↔ b.Stands (forks u (b.children t) ++ ts) w x) := by
    intro w x waits
    rw [stands_cons_iff, or_iff_right]
    rintro ⟨-, rfl⟩
    rw [goes] at waits
    cases waits
  have same : ∀ w, b.waitingOf ((u, t) :: ts) w =
      b.waitingOf (forks u (b.children t) ++ ts) w := by
    intro w
    ext v
    simp only [waitingOf, Set.mem_ofPred_eq]
    refine and_congr_left fun _ => exists_congr fun x => and_congr_left fun waits => ?_
    exact waiting v x waits
  constructor
  · intro h w x spec stands goal
    rw [← same]
    exact h w x spec ((waiting w x (by rw [goal]; rfl)).mpr stands) goal
  · intro h w x spec stands goal
    rw [same]
    exact h w x spec ((waiting w x (by rw [goal]; rfl)).mp stands) goal

section Leaf

variable {goal : Goal} (ordered : Ordered ((u, t) :: ts)) (leaf : b.children t = [])
  (waits : b.goal? t = some goal)
include leaf

theorem stands_leaf_iff :
    b.Stands ((u, t) :: ts) w x ↔ (w = u ∧ x = t) ∨ b.Stands ts w x := by
  rw [stands_cons_iff, leaf]
  rfl

omit leaf in
include ordered in
theorem after_leaf (stands : b.Stands ts w x) : w ≠ u ∧ ¬ Before w u := by
  have others : b.Stands (forks u [] ++ ts) w x := stands
  exact after_of_stands ordered others

include waits

theorem leaf_waits : ∃ x, b.Stands ((u, t) :: ts) u x ∧ (b.goal? x).isSome :=
  ⟨t, (stands_leaf_iff leaf).mpr (.inl ⟨rfl, rfl⟩), Option.isSome_of_eq_some waits⟩

include ordered

theorem waitingOf_leaf : b.waitingOf ((u, t) :: ts) u = {u} := by
  ext v
  simp only [waitingOf, Set.mem_ofPred_eq, Set.mem_singleton_iff]
  constructor
  · rintro ⟨⟨x, stands, -⟩, same | before⟩
    · exact same
    · rcases (stands_leaf_iff leaf).mp stands with ⟨same, -⟩ | later
      · exact same
      · exact absurd before (after_leaf ordered later).2
  · rintro rfl
    exact ⟨leaf_waits leaf waits, .inl rfl⟩

theorem waitingOf_after_leaf (stands : b.Stands ts w x) :
    b.waitingOf ((u, t) :: ts) w = insert u (b.waitingOf ts w) := by
  ext v
  simp only [waitingOf, Set.mem_ofPred_eq, Set.mem_insert_iff]
  constructor
  · rintro ⟨⟨y, stands', waits'⟩, order⟩
    rcases (stands_leaf_iff leaf).mp stands' with ⟨same, -⟩ | later
    · exact .inl same
    · exact .inr ⟨⟨y, later, waits'⟩, order⟩
  · rintro (rfl | ⟨⟨y, later, waits'⟩, order⟩)
    · exact ⟨leaf_waits leaf waits, .inr (before_of_stands ordered stands)⟩
    · exact ⟨⟨y, (stands_leaf_iff leaf).mpr (.inr later), waits'⟩, order⟩

theorem encard_waitingOf_after_leaf (stands : b.Stands ts w x) :
    (spent : ℕ∞) + (b.waitingOf ((u, t) :: ts) w).encard =
      (spent + 1 : Nat) + (b.waitingOf ts w).encard := by
  have fresh : u ∉ b.waitingOf ts w := by
    rintro ⟨⟨y, stands', -⟩, -⟩
    exact (after_leaf ordered stands').1 rfl
  rw [waitingOf_after_leaf ordered leaf waits stands, Set.encard_insert_of_notMem fresh,
    Nat.cast_add, Nat.cast_one, add_assoc, add_comm 1]

/-- A node that waits has none below it and comes before all others. -/
theorem within_leaf_iff :
    b.Within limits spent ((u, t) :: ts) ↔
      (∀ spec, goal = .token spec → spent < limits.maxThreads) ∧
        b.Within limits (spent + 1) ts := by
  constructor
  · intro h
    refine ⟨?_, ?_⟩
    · rintro spec rfl
      have room := h u t spec ((stands_leaf_iff leaf).mpr (.inl ⟨rfl, rfl⟩)) waits
      rw [waitingOf_leaf ordered leaf waits, Set.encard_singleton] at room
      exact_mod_cast room
    · intro w x spec stands token
      rw [← encard_waitingOf_after_leaf ordered leaf waits stands]
      exact h w x spec ((stands_leaf_iff leaf).mpr (.inr stands)) token
  · rintro ⟨room, h⟩ w x spec stands token
    rcases (stands_leaf_iff leaf).mp stands with ⟨rfl, rfl⟩ | later
    · rw [token] at waits
      cases waits
      rw [waitingOf_leaf ordered leaf token, Set.encard_singleton]
      exact_mod_cast room spec rfl
    · rw [encard_waitingOf_after_leaf ordered leaf waits later]
      exact h w x spec later token

end Leaf

theorem stands_roots_iff {roots : List Strand} :
    b.Stands (forks [] roots) w x ↔ b.nodeAt? roots w = some x := by
  constructor
  · rintro ⟨u, t, v, mem, rfl, below⟩
    obtain ⟨i, root, rfl⟩ := mem_forks_iff.mp mem
    exact Option.bind_eq_some_iff.mpr ⟨t, root, below⟩
  · intro found
    cases w with
    | nil => cases found
    | cons i v =>
      obtain ⟨t, root, below⟩ := Option.bind_eq_some_iff.mp found
      exact ⟨[i], t, v, mem_forks_iff.mpr ⟨i, root, rfl⟩, rfl, below⟩

theorem affords_nil : b.Affords limits budget spent [] := by
  have empty : b.placesOf [] = ∅ := by
    refine Set.eq_empty_of_forall_notMem ?_
    rintro w ⟨x, stands⟩
    exact stands_nil stands
  refine ⟨?_, fun w x spec stands => absurd stands stands_nil⟩
  rw [empty, Set.encard_empty]
  exact zero_le

theorem not_affords_zero : ¬ b.Affords limits 0 spent ((u, t) :: ts) := by
  rintro ⟨few, -⟩
  rw [Nat.cast_zero, nonpos_iff_eq_zero, Set.encard_eq_zero] at few
  have here : u ∈ b.placesOf ((u, t) :: ts) := ⟨t, stands_cons_iff.mpr (.inl ⟨rfl, rfl⟩)⟩
  rw [few] at here
  exact here

theorem affords_step_iff (ordered : Ordered ((u, t) :: ts)) (goes : b.goal? t = none) :
    b.Affords limits (budget + 1) spent ((u, t) :: ts) ↔
      b.Affords limits budget spent (forks u (b.children t) ++ ts) :=
  and_congr (encard_placesOf_cons_le_iff ordered) (within_step_iff goes)

theorem affords_leaf_iff {goal : Goal} (ordered : Ordered ((u, t) :: ts))
    (leaf : b.children t = []) (waits : b.goal? t = some goal) :
    b.Affords limits (budget + 1) spent ((u, t) :: ts) ↔
      (∀ spec, goal = .token spec → spent < limits.maxThreads) ∧
        b.Affords limits budget (spent + 1) ts := by
  have places : (b.placesOf ((u, t) :: ts)).encard ≤ (budget + 1 : Nat) ↔
      (b.placesOf ts).encard ≤ budget := by
    rw [encard_placesOf_cons_le_iff ordered, leaf]
    rfl
  rw [Affords, Affords, places, within_leaf_iff ordered leaf waits]
  exact and_left_comm

section Roots

variable {roots : List Strand}

theorem places_eq_placesOf : b.places roots = b.placesOf (forks [] roots) := by
  ext w
  simp only [places, placesOf, Set.mem_ofPred_eq, stands_roots_iff, Option.isSome_iff_exists]

theorem goalAt?_eq_some_iff {goal : Goal} : b.goalAt? roots w = some goal ↔
    ∃ x, b.Stands (forks [] roots) w x ∧ b.goal? x = some goal := by
  simp only [goalAt?, Option.bind_eq_some_iff, stands_roots_iff]

theorem waitingUpTo_eq_waitingOf : b.waitingUpTo roots w = b.waitingOf (forks [] roots) w := by
  ext v
  simp only [waitingUpTo, waitingOf, Set.mem_ofPred_eq, Option.isSome_iff_exists,
    goalAt?_eq_some_iff]
  refine and_congr_left fun _ => ?_
  constructor
  · rintro ⟨goal, x, stands, same⟩
    exact ⟨x, stands, goal, same⟩
  · rintro ⟨x, stands, goal, same⟩
    exact ⟨goal, x, stands, same⟩

theorem waitingUpTo_subset : b.waitingUpTo roots w ⊆ b.places roots := by
  rintro v ⟨waits, -⟩
  obtain ⟨goal, same⟩ := Option.isSome_iff_exists.mp waits
  obtain ⟨x, here, -⟩ := Option.bind_eq_some_iff.mp same
  exact Option.isSome_iff_exists.mpr ⟨x, here⟩

theorem fits_iff :
    b.Fits limits roots ↔ b.Affords limits limits.maxExpansions 0 (forks [] roots) := by
  have counted : (b.places roots).Finite → ∀ w,
      (((b.waitingUpTo roots w).ncard : Nat) : ℕ∞) = (b.waitingOf (forks [] roots) w).encard := by
    intro finite w
    rw [(finite.subset waitingUpTo_subset).cast_ncard_eq, waitingUpTo_eq_waitingOf]
  rw [Affords, ← places_eq_placesOf, Set.encard_le_coe_iff_finite_ncard_le]
  constructor
  · rintro ⟨finite, nodes, threads⟩
    refine ⟨⟨finite, nodes⟩, ?_⟩
    intro w x spec stands goal
    rw [← counted finite w, Nat.cast_zero, zero_add, Nat.cast_le]
    exact threads w spec (goalAt?_eq_some_iff.mpr ⟨x, stands, goal⟩)
  · rintro ⟨⟨finite, nodes⟩, within⟩
    refine ⟨finite, nodes, ?_⟩
    intro w spec goal
    obtain ⟨x, stands, goal⟩ := goalAt?_eq_some_iff.mp goal
    have room := within w x spec stands goal
    rwa [← counted finite w, Nat.cast_zero, zero_add, Nat.cast_le] at room

end Roots

end Branching

def Phase.Decides (p : Phase) (fits : Prop) {α : Type} (outcome : Except ParseError α) : Prop :=
  (fits ∧ ∃ ready, outcome = .ok ready) ∨
    (¬ fits ∧ (outcome = .error (.threadLimit p.limits.maxThreads p.position) ∨
      outcome = .error (.expansionLimit p.limits.maxExpansions p.position)))

namespace Phase

def branching (p : Phase) : Branching Strand := Strand.branching p.grammar p.marker

theorem decides_work (p : Phase) (closed : p.grammar.Closed p.grammar.Defines) (budget : Nat)
    (work : List Strand) (ready : List Waiting) (branches made : Nat)
    {ts : List (Place × Strand)} (tagged : ts.map Prod.snd = work) (ordered : Ordered ts)
    (proper : ∀ t ∈ work, t.spot.Proper p.grammar.Defines) :
    p.Decides (p.branching.Affords p.limits budget ready.length ts)
      (p.resolveStrands budget work ready branches made).outcome := by
  induction budget generalizing work ready branches made ts with
  | zero =>
    cases work with
    | nil =>
      rw [List.map_eq_nil_iff.mp tagged]
      exact .inl ⟨Branching.affords_nil, _, rfl⟩
    | cons t work =>
      obtain ⟨⟨u, t'⟩, ts, rfl, -, -⟩ := List.map_eq_cons_iff.mp tagged
      exact .inr ⟨Branching.not_affords_zero, .inr rfl⟩
  | succ budget ih =>
    cases work with
    | nil =>
      rw [List.map_eq_nil_iff.mp tagged]
      exact .inl ⟨Branching.affords_nil, _, rfl⟩
    | cons t work =>
      obtain ⟨⟨u, t'⟩, ts, rfl, rfl, others⟩ := List.map_eq_cons_iff.mp tagged
      obtain ⟨here, rest⟩ := List.forall_mem_cons.mp proper
      have expanded := Strand.expand_proper closed p.marker here
      have children : p.branching.children t' = (t'.expand p.grammar p.marker).1.strands := rfl
      have goal? : p.branching.goal? t' = (t'.expand p.grammar p.marker).1.goal? := rfl
      simp only [resolveStrands]
      generalize t'.expand p.grammar p.marker = expansion at expanded children goal?
      obtain ⟨move, k⟩ := expansion
      have later : ∀ {branches made : Nat} {us : List Strand}, p.branching.goal? t' = none →
          p.branching.children t' = us → (∀ t ∈ us, t.spot.Proper p.grammar.Defines) →
          p.Decides (p.branching.Affords p.limits (budget + 1) ready.length ((u, t') :: ts))
            (p.resolveStrands budget (us ++ work) ready branches made).outcome := by
        intro branches made us goes leads proper'
        rw [Branching.affords_step_iff ordered goes, leads]
        refine ih _ ready branches made ?_ (ordered_append_forks ordered us) ?_
        · rw [List.map_append, map_snd_forks, others]
        · exact List.forall_mem_append.mpr ⟨proper', rest⟩
      cases move with
      | ready x =>
        have next := ih work (ready ++ [x]) branches (made + k) others
          (List.pairwise_cons.mp ordered).2 rest
        rw [List.length_append, List.length_singleton] at next
        rw [Branching.affords_leaf_iff ordered children goal?]
        cases goal : x.goal with
        | accepted =>
          simp only [goal, reduceCtorEq, false_implies, implies_true, true_and]
          exact next
        | token spec =>
          simp only [goal, Goal.token.injEq, forall_eq']
          by_cases room : ready.length < p.limits.maxThreads
          · simpa only [room, true_and, ↓reduceIte] using next
          · simp only [room, ↓reduceIte]
            exact .inr ⟨fun affords => affords.1, .inl rfl⟩
      | moved t => exact later goal? children (List.forall_mem_singleton.mpr expanded)
      | split us => exact later goal? children expanded.2
      | unknown name =>
        obtain ⟨⟨q, known⟩, missing⟩ := expanded
        rw [known] at missing
        cases missing

theorem decides_strands (p : Phase) (closed : p.grammar.Closed p.grammar.Defines)
    {work : List Strand} (proper : ∀ t ∈ work, t.spot.Proper p.grammar.Defines)
    (branches made : Nat) :
    p.Decides (p.branching.Fits p.limits work)
      (p.resolveStrands p.limits.maxExpansions work [] branches made).outcome := by
  rw [Branching.fits_iff]
  exact p.decides_work closed _ work [] branches made (map_snd_forks [] work)
    (ordered_forks [] work) proper

end Phase

end Lockstep
