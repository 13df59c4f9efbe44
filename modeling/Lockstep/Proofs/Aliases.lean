import Lockstep.Proofs.Twins

set_option autoImplicit false

/-!
Aliases. A matcher may stand inside a sequence that has no other part and captures that part, or be
the matcher of a rule and be asked for by its name. A derivation then takes a step more where it
enters it, and has a frame more around it while it is inside, which hands on what it gets. It makes
the same choices, meets the same guards, takes the same tokens and yields the same.
-/

namespace Lockstep

theorem exists_getElem?_of_length_eq {α β : Type} {xs : List α} {ys : List β}
    (same : xs.length = ys.length) {i : Nat} {x : α} (found : xs[i]? = some x) :
    ∃ y, ys[i]? = some y :=
  have bound : i < ys.length := same ▸ (List.getElem?_eq_some_iff.mp found).1
  ⟨ys[i], List.getElem?_eq_getElem bound⟩

namespace Matcher

/-- After the guards `before`, the second matcher does under `g'` what the first does under `g`. It
is the first one but for the names of sequences, or holds it as its only part, or is the name of a
rule for it. -/
inductive Alike (strict : Prop) (g g' : Grammar) : List Predicate → Matcher → Matcher → Prop where
  | token {before guards guards' : List Predicate} {spec : Spec}
      (same : SameGuards strict guards (before ++ guards')) :
    Alike strict g g' before (.token spec guards) (.token spec guards')
  | nothing {before guards guards' : List Predicate}
      (same : SameGuards strict guards (before ++ guards')) :
    Alike strict g g' before (.nothing guards) (.nothing guards')
  | sequence {before guards guards' : List Predicate} {name? name?' : Option String}
      {parts parts' : List Matcher} {build : Combiner}
      (same : SameGuards strict guards (before ++ guards')) (length_eq : parts.length = parts'.length)
      (all : ∀ (i : Nat) m m', parts[i]? = some m → parts'[i]? = some m' →
        Alike strict g g' [] m m') :
    Alike strict g g' before (.sequence name? parts build guards)
      (.sequence name?' parts' build guards')
  | branch {before guards guards' : List Predicate} {options options' : List Matcher}
      (same : SameGuards strict guards (before ++ guards'))
      (length_eq : options.length = options'.length)
      (all : ∀ (i : Nat) m m', options[i]? = some m → options'[i]? = some m' →
        Alike strict g g' [] m m') :
    Alike strict g g' before (.branch options guards) (.branch options' guards')
  | rule {before guards guards' : List Predicate} {name : String} (known : g.Defines name)
      (same : SameGuards strict guards (before ++ guards')) :
    Alike strict g g' before (.rule name guards) (.rule name guards')
  | list {before guards guards' : List Predicate} {item item' : Matcher}
      {separator? separator?' : Option Matcher}
      (same : SameGuards strict guards (before ++ guards')) (items : Alike strict g g' [] item item')
      (isSome_eq : separator?.isSome = separator?'.isSome)
      (separators : ∀ m m', separator? = some m → separator?' = some m' →
        Alike strict g g' [] m m') :
    Alike strict g g' before (.list item separator? guards) (.list item' separator?' guards')
  | tail {before guards guards' : List Predicate} {item item' : Matcher}
      {separator? separator?' : Option Matcher}
      (same : SameGuards strict guards (before ++ guards')) (items : Alike strict g g' [] item item')
      (isSome_eq : separator?.isSome = separator?'.isSome)
      (separators : ∀ m m', separator? = some m → separator?' = some m' →
        Alike strict g g' [] m m') :
    Alike strict g g' before (.tail item separator? guards) (.tail item' separator?' guards')
  | called {before guards' : List Predicate} {m : Matcher} {name : String} {p : Pattern}
      (found : g'.lookup? name = some p) (core : Alike strict g g' (before ++ guards') m (.lower p)) :
    Alike strict g g' before m (.rule name guards')
  | wrapped {before guards' : List Predicate} {m m' : Matcher} {name? : Option String}
      (core : Alike strict g g' (before ++ guards') m m') :
    Alike strict g g' before m (.sequence name? [m'] (.nth 0) guards')

structure AllAlike (strict : Prop) (g g' : Grammar) (ms ms' : List Matcher) : Prop where
  length_eq : ms.length = ms'.length
  all : ∀ (i : Nat) m m', ms[i]? = some m → ms'[i]? = some m' → m.Alike strict g g' [] m'

def RulesAlike (strict : Prop) (g g' : Grammar) : Prop :=
  ∀ name p, g.lookup? name = some p →
    ∃ p', g'.lookup? name = some p' ∧ (lower p).Alike strict g g' [] (lower p')

variable {strict : Prop} {g g' : Grammar} {before guards guards' : List Predicate}

theorem AllAlike.nil : AllAlike strict g g' [] [] := ⟨rfl, fun _ _ _ found => nomatch found⟩

theorem AllAlike.cons {m m' : Matcher} {ms ms' : List Matcher} (first : m.Alike strict g g' [] m')
    (rest : AllAlike strict g g' ms ms') : AllAlike strict g g' (m :: ms) (m' :: ms') := by
  refine ⟨congrArg (· + 1) rest.length_eq, ?_⟩
  intro i n n' found found'
  cases i with
  | zero =>
    cases found
    cases found'
    exact first
  | succ i => exact rest.all i n n' found found'

theorem AllAlike.sequence {parts parts' : List Matcher} (h : AllAlike strict g g' parts parts')
    (name? : Option String) (build : Combiner) :
    (Matcher.sequence name? parts build []).Alike strict g g' [] (.sequence name? parts' build []) :=
  .sequence (.refl strict []) h.length_eq h.all

theorem AllAlike.branch {options options' : List Matcher}
    (h : AllAlike strict g g' options options') :
    (Matcher.branch options []).Alike strict g g' [] (.branch options' []) :=
  .branch (.refl strict []) h.length_eq h.all

section

variable {ms ms' : List Matcher} (h : AllAlike strict g g' ms ms')
include h

theorem AllAlike.of_left {i : Nat} {m : Matcher} (found : ms[i]? = some m) :
    ∃ m', ms'[i]? = some m' ∧ m.Alike strict g g' [] m' := by
  obtain ⟨m', found'⟩ := exists_getElem?_of_length_eq h.length_eq found
  exact ⟨m', found', h.all i m m' found found'⟩

theorem AllAlike.of_right {i : Nat} {m' : Matcher} (found' : ms'[i]? = some m') :
    ∃ m, ms[i]? = some m ∧ m.Alike strict g g' [] m' := by
  obtain ⟨m, found⟩ := exists_getElem?_of_length_eq h.length_eq.symm found'
  exact ⟨m, found, h.all i m m' found found'⟩

theorem AllAlike.getElem? (i : Nat) : Option.Rel (Alike strict g g' []) ms[i]? ms'[i]? := by
  cases found : ms[i]? with
  | none =>
    have missing : ms'[i]? = none := by
      rw [List.getElem?_eq_none_iff] at found ⊢
      exact h.length_eq ▸ found
    rw [missing]
    exact .none
  | some m =>
    obtain ⟨m', found', alike⟩ := h.of_left found
    rw [found']
    exact .some alike

end

theorem noItems_alike : noItems.Alike strict g g' [] noItems :=
  have empty : (Matcher.nothing []).Alike strict g g' [] (.nothing []) := .nothing (.refl _ _)
  (AllAlike.nil.cons empty).sequence none .emptyList

section

variable {item item' : Matcher} {separator? separator?' : Option Matcher}
  (items : item.Alike strict g g' [] item') (isSome_eq : separator?.isSome = separator?'.isSome)
  (separators : ∀ m m', separator? = some m → separator?' = some m' → m.Alike strict g g' [] m')
include items isSome_eq separators

theorem list_unfolds : ∃ n n', g.unfold (.list item separator? guards) = .ok n ∧
    g'.unfold (.list item' separator?' guards') = .ok n' ∧ n.Alike strict g g' [] n' := by
  cases separator? with
  | none =>
    cases separator?' with
    | none =>
      have more : (Matcher.list item none []).Alike strict g g' [] (.list item' none []) :=
        .list (.refl strict []) items isSome_eq separators
      have some := ((AllAlike.nil.cons more).cons items).sequence none (.cons 0 1)
      exact ⟨_, _, rfl, rfl, ((AllAlike.nil.cons noItems_alike).cons some).branch⟩
    | some separator' => cases isSome_eq
  | some separator =>
    cases separator?' with
    | none => cases isSome_eq
    | some separator' =>
      have more : (Matcher.tail item (some separator) []).Alike strict g g' []
          (.tail item' (some separator') []) :=
        .tail (.refl strict []) items isSome_eq separators
      exact ⟨_, _, rfl, rfl, ((AllAlike.nil.cons more).cons items).sequence none (.cons 0 1)⟩

theorem tail_unfolds : ∃ n n', g.unfold (.tail item separator? guards) = .ok n ∧
    g'.unfold (.tail item' separator?' guards') = .ok n' ∧ n.Alike strict g g' [] n' := by
  cases separator? with
  | none =>
    cases separator?' with
    | none => exact ⟨_, _, rfl, rfl, noItems_alike⟩
    | some separator' => cases isSome_eq
  | some separator =>
    cases separator?' with
    | none => cases isSome_eq
    | some separator' =>
      have more : (Matcher.tail item (some separator) []).Alike strict g g' []
          (.tail item' (some separator') []) :=
        .tail (.refl strict []) items isSome_eq separators
      have some := (((AllAlike.nil.cons more).cons items).cons (separators _ _ rfl rfl)).sequence
        none (.cons 1 2)
      exact ⟨_, _, rfl, rfl, ((AllAlike.nil.cons noItems_alike).cons some).branch⟩

end

theorem rule_unfolds {name : String} (rules : RulesAlike strict g g') (known : g.Defines name) :
    ∃ n n', g.unfold (.rule name guards) = .ok n ∧ g'.unfold (.rule name guards') = .ok n' ∧
      n.Alike strict g g' [] n' := by
  obtain ⟨p, found⟩ := known
  obtain ⟨p', found', alike⟩ := rules name p found
  refine ⟨lower p, lower p', ?_, ?_, alike⟩
  · simp only [Grammar.unfold, found]
  · simp only [Grammar.unfold, found']

inductive Direct (strict : Prop) (g g' : Grammar) (before : List Predicate) :
    Matcher → Matcher → Prop where
  | token {spec : Spec} {guards guards' : List Predicate}
      (same : SameGuards strict guards (before ++ guards')) :
    Direct strict g g' before (.token spec guards) (.token spec guards')
  | nothing {guards guards' : List Predicate} (same : SameGuards strict guards (before ++ guards')) :
    Direct strict g g' before (.nothing guards) (.nothing guards')
  | sequence {name? name?' : Option String} {parts parts' : List Matcher} {build : Combiner}
      {guards guards' : List Predicate} (same : SameGuards strict guards (before ++ guards'))
      (all : AllAlike strict g g' parts parts') :
    Direct strict g g' before (.sequence name? parts build guards)
      (.sequence name?' parts' build guards')
  | branch {options options' : List Matcher} {guards guards' : List Predicate}
      (same : SameGuards strict guards (before ++ guards'))
      (all : AllAlike strict g g' options options') :
    Direct strict g g' before (.branch options guards) (.branch options' guards')
  | deferred {m m' n n' : Matcher} (defers : m.isDeferred = true) (defers' : m'.isDeferred = true)
      (same : SameGuards strict m.guards (before ++ m'.guards)) (unfolds : g.unfold m = .ok n)
      (unfolds' : g'.unfold m' = .ok n') (alike : n.Alike strict g g' [] n') :
    Direct strict g g' before m m'

/-- The first matcher stands under guards for the second: by the name of its rule, or as a sequence
with no other part. -/
inductive StandsFor (g' : Grammar) (guards : List Predicate) : Matcher → Matcher → Prop where
  | called {name : String} {p : Pattern} (found : g'.lookup? name = some p) :
    StandsFor g' guards (.rule name guards) (.lower p)
  | wrapped {name? : Option String} {m : Matcher} :
    StandsFor g' guards (.sequence name? [m] (.nth 0) guards) m

/-- A matcher that is alike has the same form, or stands for another one that is alike. -/
theorem Alike.induction {m : Matcher}
    {motive : (before : List Predicate) → (m' : Matcher) → m.Alike strict g g' before m' → Prop}
    (rules : RulesAlike strict g g')
    (direct : ∀ before m' (h : m.Alike strict g g' before m'), Direct strict g g' before m m' →
      motive before m' h)
    (passes : ∀ before m' guards n' (h : m.Alike strict g g' before m')
      (core : m.Alike strict g g' (before ++ guards) n'), StandsFor g' guards m' n' →
      motive (before ++ guards) n' core → motive before m' h)
    {before : List Predicate} {m' : Matcher} (h : m.Alike strict g g' before m') :
    motive before m' h := by
  induction h with
  | token same => exact direct _ _ _ (.token same)
  | nothing same => exact direct _ _ _ (.nothing same)
  | sequence same length_eq all => exact direct _ _ _ (.sequence same ⟨length_eq, all⟩)
  | branch same length_eq all => exact direct _ _ _ (.branch same ⟨length_eq, all⟩)
  | rule known same =>
    obtain ⟨n, n', unfolds, unfolds', alike⟩ := rule_unfolds rules known
    exact direct _ _ _ (.deferred rfl rfl same unfolds unfolds' alike)
  | list same items isSome_eq separators =>
    obtain ⟨n, n', unfolds, unfolds', alike⟩ := list_unfolds items isSome_eq separators
    exact direct _ _ _ (.deferred rfl rfl same unfolds unfolds' alike)
  | tail same items isSome_eq separators =>
    obtain ⟨n, n', unfolds, unfolds', alike⟩ := tail_unfolds items isSome_eq separators
    exact direct _ _ _ (.deferred rfl rfl same unfolds unfolds' alike)
  | called found core ih => exact passes _ _ _ _ _ core (.called found) (ih direct passes)
  | wrapped core ih => exact passes _ _ _ _ _ core .wrapped (ih direct passes)

theorem Alike.cases {m : Matcher}
    {motive : (before : List Predicate) → (m' : Matcher) → m.Alike strict g g' before m' → Prop}
    (rules : RulesAlike strict g g')
    (direct : ∀ before m' (h : m.Alike strict g g' before m'), Direct strict g g' before m m' →
      motive before m' h)
    (passes : ∀ before m' guards n' (h : m.Alike strict g g' before m')
      (_ : m.Alike strict g g' (before ++ guards) n'), StandsFor g' guards m' n' → motive before m' h)
    {before : List Predicate} {m' : Matcher} (h : m.Alike strict g g' before m') :
    motive before m' h :=
  h.induction rules direct fun before m' guards n' h core stands _ =>
    passes before m' guards n' h core stands

end Matcher

/-- The frames are the same but for the names of sequences, and for frames in the second list that
have one part and nothing captured. -/
inductive FramesAlike (strict : Prop) (g g' : Grammar) : List Frame → List Frame → Prop where
  | nil : FramesAlike strict g g' [] []
  | frame {name? name?' : Option String} {parts parts' : List Matcher} {build : Combiner}
      {captured : List Capture} {fs fs' : List Frame}
      (parts_alike : Matcher.AllAlike strict g g' parts parts') (rest : FramesAlike strict g g' fs fs') :
    FramesAlike strict g g' (⟨⟨name?, parts, build⟩, captured⟩ :: fs)
      (⟨⟨name?', parts', build⟩, captured⟩ :: fs')
  | wrapper {name? : Option String} {m : Matcher} {fs fs' : List Frame}
      (rest : FramesAlike strict g g' fs fs') :
    FramesAlike strict g g' fs (⟨⟨name?, [m], .nth 0⟩, []⟩ :: fs')

inductive Spot.Alike (strict : Prop) (g g' : Grammar) : List Predicate → Spot → Spot → Prop where
  | next {before : List Predicate} {m m' : Matcher} {fs fs' : List Frame}
      (alike : m.Alike strict g g' before m') (frames : FramesAlike strict g g' fs fs')
      (inside : fs ≠ []) :
    Alike strict g g' before (.next m fs) (.next m' fs')
  | done {fs fs' : List Frame} (same : Frame.outermost fs = Frame.outermost fs') :
    Alike strict g g' [] (.done fs) (.done fs')

/-- The second derivation has come as far as the first one, and will have met the same guards when
the first one has met those `before` it as well. -/
structure Cursor.Alike (strict : Prop) (before : List Predicate) (c c' : Cursor) : Prop where
  last_eq : c.last = c'.last
  rest_eq : c.rest = c'.rest
  pending : SameGuards strict (c.pending ++ before) c'.pending

namespace Frame

variable {strict : Prop} {g g' : Grammar} {fs fs' : List Frame}

theorem next?_alike (name? name?' : Option String) (build : Combiner)
    {parts parts' : List Matcher} (alike : Matcher.AllAlike strict g g' parts parts')
    (captured : List Capture) :
    Option.Rel (Matcher.Alike strict g g' []) (next? ⟨⟨name?, parts, build⟩, captured⟩)
      (next? ⟨⟨name?', parts', build⟩, captured⟩) :=
  alike.getElem? captured.length

theorem ne_nil_of_alike (h : FramesAlike strict g g' fs fs') (inside : fs ≠ []) : fs' ≠ [] := by
  cases h with
  | nil => exact inside
  | frame => exact List.cons_ne_nil _ _
  | wrapper => exact List.cons_ne_nil _ _

theorem enclose_alike (h : FramesAlike strict g g' fs fs') (capture : Capture) :
    enclose capture fs = enclose capture fs' := by
  induction h generalizing capture with
  | nil => rfl
  | frame _ _ ih => exact ih _
  | wrapper _ ih =>
    -- its only part is what `nth 0` picks
    exact ih capture

theorem climb_alike (h : FramesAlike strict g g' fs fs') (capture : Capture) :
    Option.Rel (Spot.Alike strict g g' []) (climb capture fs) (climb capture fs') := by
  induction h generalizing capture with
  | nil => exact .none
  | @frame name? name?' parts parts' build captured fs fs' alike rest ih =>
    have nexts := next?_alike name? name?' build alike (captured ++ [capture])
    rw [climb, climb, add, add]
    generalize next? ⟨⟨name?, parts, build⟩, captured ++ [capture]⟩ = m? at nexts
    generalize next? ⟨⟨name?', parts', build⟩, captured ++ [capture]⟩ = m?' at nexts
    cases nexts with
    | none => exact ih _
    | some related => exact .some (.next related (.frame alike rest) (List.cons_ne_nil _ _))
  | wrapper _ ih => exact ih capture

/-- Handing a capture to the innermost frame is climbing, but for the frame that is left when all
are finished. -/
theorem advance_eq (inside : fs ≠ []) (capture : Capture) : ∃ finished,
    advance capture fs = (climb capture fs).getD (.done finished) ∧
      outermost finished = enclose capture fs := by
  cases fs with
  | nil => exact absurd rfl inside
  | cons f fs =>
    refine ⟨f.add capture :: fs, ?_, rfl⟩
    rw [advance, settle, climb]
    cases (f.add capture).next? <;> rfl

theorem advance_alike (h : FramesAlike strict g g' fs fs') (inside : fs ≠ []) (capture : Capture) :
    (advance capture fs).Alike strict g g' [] (advance capture fs') := by
  obtain ⟨finished, same, yields⟩ := advance_eq inside capture
  obtain ⟨finished', same', yields'⟩ := advance_eq (ne_nil_of_alike h inside) capture
  have climbs := climb_alike h capture
  rw [same, same']
  generalize climb capture fs = s? at climbs
  generalize climb capture fs' = s?' at climbs
  cases climbs with
  | none => exact .done (yields.trans ((enclose_alike h capture).trans yields'.symm))
  | some related => exact related

theorem enter_alike {name? name?' : Option String} {parts parts' : List Matcher} {build : Combiner}
    (alike : Matcher.AllAlike strict g g' parts parts') (h : FramesAlike strict g g' fs fs') :
    (settle (⟨⟨name?, parts, build⟩, []⟩ :: fs)).Alike strict g g' []
      (settle (⟨⟨name?', parts', build⟩, []⟩ :: fs')) := by
  have nexts := next?_alike name? name?' build alike []
  have climbs := climb_alike h (build [])
  rw [settle, settle]
  generalize next? ⟨⟨name?, parts, build⟩, []⟩ = m? at nexts
  generalize next? ⟨⟨name?', parts', build⟩, []⟩ = m?' at nexts
  cases nexts with
  | some related => exact .next related (.frame alike h) (List.cons_ne_nil _ _)
  | none =>
    simp only [capture]
    generalize climb (build []) fs = s? at climbs
    generalize climb (build []) fs' = s?' at climbs
    cases climbs with
    | some related => exact related
    | none => exact .done (enclose_alike h (build []))

end Frame

namespace Cursor

variable {strict : Prop} {before guards guards' : List Predicate} {c c' : Cursor}

theorem Alike.visit (h : c.Alike strict before c')
    (same : SameGuards strict guards (before ++ guards')) :
    (c.visit guards).Alike strict [] (c'.visit guards') := by
  refine ⟨h.last_eq, h.rest_eq, ?_⟩
  have met := ((SameGuards.refl strict c.pending).append same).trans
    ((SameGuards.of_eq (List.append_assoc _ _ _).symm).trans
      (h.pending.append (.refl strict guards')))
  rw [List.append_nil]
  exact met

theorem Alike.visit_second (h : c.Alike strict before c') (guards' : List Predicate) :
    c.Alike strict (before ++ guards') (c'.visit guards') := by
  refine ⟨h.last_eq, h.rest_eq, ?_⟩
  rw [← List.append_assoc]
  exact h.pending.append (.refl strict guards')

theorem Alike.admits_eq (h : c.Alike strict [] c') (token : Token) :
    c.admits token = c'.admits token := by
  have pending := h.pending
  rw [List.append_nil] at pending
  rw [admits, admits, pending.all_eq, h.last_eq]

theorem Alike.marker_eq (h : c.Alike strict before c') : c.marker = c'.marker := by
  rw [marker, marker, h.last_eq]

theorem Alike.take (h : c.Alike strict before c') (token : Token) (rest : List Token) :
    (c.take token rest).Alike strict [] (c'.take token rest) := by
  refine ⟨?_, rfl, .refl strict []⟩
  simp only [Cursor.take, h.last_eq]

end Cursor

namespace Grammar

open Matcher (RulesAlike AllAlike)

inductive WaitAlike (strict : Prop) : Option Waiting → Option Waiting → Prop where
  | neither : WaitAlike strict none none
  | both {x x' : Waiting} (alike : x.Alike strict x') : WaitAlike strict (some x) (some x')

theorem WaitAlike.of_left {strict : Prop} {x : Waiting} {x? x?' : Option Waiting}
    (h : WaitAlike strict x? x?') (waits : x? = some x) : ∃ x', x?' = some x' ∧ x.Alike strict x' := by
  cases h with
  | neither => cases waits
  | both alike =>
    cases waits
    exact ⟨_, rfl, alike⟩

theorem WaitAlike.of_right {strict : Prop} {x' : Waiting} {x? x?' : Option Waiting}
    (h : WaitAlike strict x? x?') (waits : x?' = some x') : ∃ x, x? = some x ∧ x.Alike strict x' := by
  cases h with
  | neither => cases waits
  | both alike =>
    cases waits
    exact ⟨_, rfl, alike⟩

def Stand (strict : Prop) (g g' : Grammar) (s : Spot) (c : Cursor) (s' : Spot) (c' : Cursor) :
    Prop :=
  ∃ before, s.Alike strict g g' before s' ∧ c.Alike strict before c'

section

variable {strict : Prop} {g g' : Grammar} {before : List Predicate} {m m' : Matcher}
  {s s' t t' : Spot} {fs fs' : List Frame} {c c' d d' : Cursor} {u w : Choices}

theorem Walk.single (stride : g.Stride s c u t d) : g.Walk s c u t d := by
  rw [← List.append_nil u]
  exact .stride stride .stay

theorem Walk.silent (first : g.Stride s c [] t d) (more : g.Walk t d u s' c') :
    g.Walk s c u s' c' :=
  .stride first more

theorem stride_of_standsFor {guards : List Predicate} {n' : Matcher}
    (stands : m'.StandsFor g' guards n')
    (frames : FramesAlike strict g g' fs fs') : ∃ fs'', FramesAlike strict g g' fs fs'' ∧
      ∀ c u t d, g'.Stride (.next m' fs') c u t d ↔
        u = [] ∧ t = .next n' fs'' ∧ d = c.visit guards := by
  cases stands with
  | @called name p found =>
    refine ⟨fs', frames, fun c u t d => stride_deferred_iff rfl ?_⟩
    simp only [unfold, found]
  | @wrapped name? =>
    exact ⟨⟨⟨name?, [n'], .nth 0⟩, []⟩ :: fs', .wrapper frames, fun _ _ _ _ => stride_sequence_iff⟩

/-- Whatever one of the derivations does next, the other one may do as well, with the same choices. -/
structure InStep (strict : Prop) (g g' : Grammar) (s : Spot) (c : Cursor) (s' : Spot) (c' : Cursor) :
    Prop where
  forth : ∀ u t d, g.Stride s c u t d →
    ∃ t' d', g'.Stride s' c' u t' d' ∧ Stand strict g g' t d t' d'
  back : ∀ u t' d', g'.Stride s' c' u t' d' →
    ∃ t d, g.Stride s c u t d ∧ Stand strict g g' t d t' d'

theorem InStep.of_single (only : ∀ u t₁ d₁, g.Stride s c u t₁ d₁ ↔ u = [] ∧ t₁ = t ∧ d₁ = d)
    (only' : ∀ u t₁ d₁, g'.Stride s' c' u t₁ d₁ ↔ u = [] ∧ t₁ = t' ∧ d₁ = d')
    (stand : Stand strict g g' t d t' d') : InStep strict g g' s c s' c' := by
  constructor
  · intro u t₁ d₁ stride
    obtain ⟨rfl, rfl, rfl⟩ := (only _ _ _).mp stride
    exact ⟨t', d', (only' _ _ _).mpr ⟨rfl, rfl, rfl⟩, stand⟩
  · intro u t₁ d₁ stride
    obtain ⟨rfl, rfl, rfl⟩ := (only' _ _ _).mp stride
    exact ⟨t, d, (only _ _ _).mpr ⟨rfl, rfl, rfl⟩, stand⟩

section

variable {guards guards' : List Predicate} (same : SameGuards strict guards (before ++ guards'))
  (frames : FramesAlike strict g g' fs fs') (inside : fs ≠ []) (cursors : c.Alike strict before c')
include same frames inside cursors

theorem inStep_token (spec : Spec) : InStep strict g g' (.next (.token spec guards) fs) c
    (.next (.token spec guards') fs') c' := by
  have met := cursors.visit same
  have stand : ∀ token rest, Stand strict g g' (Frame.advance (.token token) fs)
      ((c.visit guards).take token rest) (Frame.advance (.token token) fs')
      ((c'.visit guards').take token rest) := fun token rest =>
    ⟨[], Frame.advance_alike frames inside _, met.take token rest⟩
  constructor
  · intro u t d stride
    obtain ⟨token, rest, next, accepts, admitted, rfl, rfl, rfl⟩ := stride_token_iff.mp stride
    rw [met.admits_eq] at admitted
    exact ⟨_, _, .token (cursors.rest_eq.symm.trans next) accepts admitted, stand token rest⟩
  · intro u t' d' stride
    obtain ⟨token, rest, next, accepts, admitted, rfl, rfl, rfl⟩ := stride_token_iff.mp stride
    rw [← met.admits_eq] at admitted
    exact ⟨_, _, .token (cursors.rest_eq.trans next) accepts admitted, stand token rest⟩

theorem inStep_branch {options options' : List Matcher}
    (all : AllAlike strict g g' options options') :
    InStep strict g g' (.next (.branch options guards) fs) c (.next (.branch options' guards') fs')
      c' := by
  have here := cursors.visit same
  constructor
  · intro u t d stride
    obtain ⟨i, m, option, rfl, rfl, rfl⟩ := stride_branch_iff.mp stride
    obtain ⟨m', option', alike⟩ := all.of_left option
    exact ⟨_, _, .branch option', [], .next alike frames inside, here⟩
  · intro u t' d' stride
    obtain ⟨i, m', option', rfl, rfl, rfl⟩ := stride_branch_iff.mp stride
    obtain ⟨m, option, alike⟩ := all.of_right option'
    exact ⟨_, _, .branch option, [], .next alike frames inside, here⟩

end

theorem inStep_of_direct (direct : m.Direct strict g g' before m')
    (frames : FramesAlike strict g g' fs fs') (inside : fs ≠ []) (cursors : c.Alike strict before c') :
    InStep strict g g' (.next m fs) c (.next m' fs') c' := by
  cases direct with
  | token same => exact inStep_token same frames inside cursors _
  | nothing same =>
    refine .of_single (fun _ _ _ => stride_nothing_iff) (fun _ _ _ => stride_nothing_iff) ?_
    rw [cursors.marker_eq]
    exact ⟨[], Frame.advance_alike frames inside _, cursors.visit same⟩
  | sequence same all =>
    exact .of_single (fun _ _ _ => stride_sequence_iff) (fun _ _ _ => stride_sequence_iff)
      ⟨[], Frame.enter_alike all frames, cursors.visit same⟩
  | branch same all => exact inStep_branch same frames inside cursors all
  | deferred defers defers' same unfolds unfolds' alike =>
    exact .of_single (fun _ _ _ => stride_deferred_iff defers unfolds)
      (fun _ _ _ => stride_deferred_iff defers' unfolds')
      ⟨[], .next alike frames inside, cursors.visit same⟩

variable (rules : RulesAlike strict g g')
include rules

/-- A stride of the first derivation is one of the second, after strides that are not the first's. -/
theorem stride_simulated (alike : m.Alike strict g g' before m')
    (frames : FramesAlike strict g g' fs fs') (inside : fs ≠ []) (cursors : c.Alike strict before c')
    (stride : g.Stride (.next m fs) c u t d) :
    ∃ t' d', g'.Walk (.next m' fs') c' u t' d' ∧ Stand strict g g' t d t' d' := by
  -- The second derivation first passes all aliases, while the first one stays where it is.
  induction alike using Matcher.Alike.induction rules generalizing fs' c' with
  | direct before m' _ direct =>
    obtain ⟨t', d', stride', stand⟩ := (inStep_of_direct direct frames inside cursors).forth u t d stride
    exact ⟨t', d', .single stride', stand⟩
  | passes before m' guards n' _ _ stands ih =>
    obtain ⟨fs'', frames', strides⟩ := stride_of_standsFor stands frames
    obtain ⟨t', d', walk, stand⟩ := ih frames' (cursors.visit_second guards)
    exact ⟨t', d', .silent ((strides _ _ _ _).mpr ⟨rfl, rfl, rfl⟩) walk, stand⟩

/-- A stride of the second derivation is one of the first, or leaves the first where it is. -/
theorem stride_simulated_back (alike : m.Alike strict g g' before m')
    (frames : FramesAlike strict g g' fs fs') (inside : fs ≠ []) (cursors : c.Alike strict before c')
    (stride : g'.Stride (.next m' fs') c' u t' d') :
    ∃ t d, g.Walk (.next m fs) c u t d ∧ Stand strict g g' t d t' d' := by
  cases alike using Matcher.Alike.cases rules with
  | direct before m' _ direct =>
    obtain ⟨t, d, stride', stand⟩ := (inStep_of_direct direct frames inside cursors).back u t' d' stride
    exact ⟨t, d, .single stride', stand⟩
  | passes before m' guards n' _ alike stands =>
    obtain ⟨fs'', frames', strides⟩ := stride_of_standsFor stands frames
    obtain ⟨rfl, rfl, rfl⟩ := (strides _ _ _ _).mp stride
    exact ⟨_, _, .stay, _, .next alike frames' inside, cursors.visit_second guards⟩

theorem walk_simulated (stand : Stand strict g g' s c s' c') (walk : g.Walk s c w t d) :
    ∃ t' d', g'.Walk s' c' w t' d' ∧ Stand strict g g' t d t' d' := by
  induction walk generalizing s' c' with
  | stay => exact ⟨s', c', .stay, stand⟩
  | stride first _ ih =>
    obtain ⟨before, spots, cursors⟩ := stand
    cases spots with
    | done => cases first
    | next alike frames inside =>
      obtain ⟨t', d', walk, stand⟩ := stride_simulated rules alike frames inside cursors first
      obtain ⟨t'', d'', walk', stand'⟩ := ih stand
      exact ⟨t'', d'', walk.trans walk', stand'⟩

theorem walk_simulated_back (stand : Stand strict g g' s c s' c') (walk : g'.Walk s' c' w t' d') :
    ∃ t d, g.Walk s c w t d ∧ Stand strict g g' t d t' d' := by
  induction walk generalizing s c with
  | stay => exact ⟨s, c, .stay, stand⟩
  | stride first _ ih =>
    obtain ⟨before, spots, cursors⟩ := stand
    cases spots with
    | done => cases first
    | next alike frames inside =>
      obtain ⟨t, d, walk, stand⟩ := stride_simulated_back rules alike frames inside cursors first
      obtain ⟨t'', d'', walk', stand'⟩ := ih stand
      exact ⟨t'', d'', walk.trans walk', stand'⟩

omit rules in
theorem waiting?_of_deferred (defers : m.isDeferred = true) (pending : List Predicate) :
    (Spot.next m fs).waiting? pending = none := by
  cases m with
  | token => cases defers
  | _ => rfl

omit rules in
theorem waiting?_direct (direct : m.Direct strict g g' before m') (cursors : c.Alike strict before c') :
    WaitAlike strict ((Spot.next m fs).waiting? c.pending)
      ((Spot.next m' fs').waiting? c'.pending) := by
  cases direct with
  | token same =>
    have pending := (cursors.visit same).pending
    rw [List.append_nil] at pending
    exact .both ⟨rfl, pending, nofun⟩
  | deferred defers defers' =>
    rw [waiting?_of_deferred defers, waiting?_of_deferred defers']
    exact .neither
  | _ => exact .neither

omit rules in
theorem waiting?_of_standsFor {guards : List Predicate} {n' : Matcher}
    (stands : m'.StandsFor g' guards n') (pending : List Predicate) :
    (Spot.next m' fs').waiting? pending = none := by
  cases stands <;> rfl

omit rules in
theorem waiting?_done (same : Frame.outermost fs = Frame.outermost fs')
    (cursors : c.Alike strict [] c') :
    WaitAlike strict ((Spot.done fs).waiting? c.pending) ((Spot.done fs').waiting? c'.pending) := by
  have pending := cursors.pending
  rw [List.append_nil] at pending
  exact .both ⟨rfl, pending, fun _ => same⟩

/-- Where the first derivation waits, the second one comes to wait alike. -/
theorem waits_simulated {x : Waiting} (stand : Stand strict g g' s c s' c')
    (waits : s.waiting? c.pending = some x) :
    ∃ t' d' x', g'.Walk s' c' [] t' d' ∧ d'.rest = c'.rest ∧ t'.waiting? d'.pending = some x' ∧
      x.Alike strict x' := by
  obtain ⟨before, spots, cursors⟩ := stand
  cases spots with
  | done same =>
    obtain ⟨x', waits', alike⟩ := (waiting?_done same cursors).of_left waits
    exact ⟨_, c', x', .stay, rfl, waits', alike⟩
  | @next _ m m' fs fs' alike frames inside =>
    induction alike using Matcher.Alike.induction rules generalizing fs' c' with
    | direct before m' _ direct =>
      obtain ⟨x', waits', alike⟩ := (waiting?_direct direct cursors).of_left waits
      exact ⟨_, c', x', .stay, rfl, waits', alike⟩
    | passes before m' guards n' _ _ stands ih =>
      obtain ⟨fs'', frames', strides⟩ := stride_of_standsFor stands frames
      obtain ⟨t', d', x', walk, rest, waits', related⟩ := ih (cursors.visit_second guards) frames'
      exact ⟨t', d', x', .silent ((strides _ _ _ _).mpr ⟨rfl, rfl, rfl⟩) walk, rest, waits', related⟩

theorem waits_simulated_back {x' : Waiting} (stand : Stand strict g g' s c s' c')
    (waits : s'.waiting? c'.pending = some x') :
    ∃ x, s.waiting? c.pending = some x ∧ x.Alike strict x' := by
  obtain ⟨before, spots, cursors⟩ := stand
  cases spots with
  | done same => exact (waiting?_done same cursors).of_right waits
  | next alike frames inside =>
    cases alike using Matcher.Alike.cases rules with
    | direct before m' _ direct => exact (waiting?_direct direct cursors).of_right waits
    | passes before m' guards n' _ _ stands =>
      rw [waiting?_of_standsFor stands] at waits
      cases waits

theorem twins_of_alike {p p' : Pattern} (alike : (Matcher.lower p).Alike strict g g' [] (.lower p'))
    (start : Position) : Twins strict g p g' p' start := by
  have stand : ∀ tokens, Stand strict g g' (.ofPattern p) ⟨start, [], tokens⟩ (.ofPattern p')
      ⟨start, [], tokens⟩ := fun tokens =>
    have roots : FramesAlike strict g g' [⟨⟨none, [.lower p], .nth 0⟩, []⟩]
        [⟨⟨none, [.lower p'], .nth 0⟩, []⟩] :=
      .frame (AllAlike.nil.cons alike) .nil
    ⟨[], .next alike roots (List.cons_ne_nil _ _), rfl, rfl, .refl strict []⟩
  refine ⟨?_, ?_, ?_⟩
  · rintro tokens w x ⟨t, d, walk, dry, waits⟩
    obtain ⟨t', d', walk', before, spots, cursors⟩ := walk_simulated rules (stand tokens) walk
    obtain ⟨t'', d'', x', more, rest, waits', related⟩ :=
      waits_simulated rules ⟨before, spots, cursors⟩ waits
    have whole := walk'.trans more
    rw [List.append_nil] at whole
    exact ⟨x', ⟨t'', d'', whole, rest.trans (cursors.rest_eq.symm.trans dry), waits'⟩, related⟩
  · rintro tokens w x' ⟨t', d', walk', dry, waits'⟩
    obtain ⟨t, d, walk, stands⟩ := walk_simulated_back rules (stand tokens) walk'
    obtain ⟨x, waits, related⟩ := waits_simulated_back rules stands waits'
    obtain ⟨before, spots, cursors⟩ := stands
    exact ⟨x, ⟨t, d, walk, cursors.rest_eq.trans dry, waits⟩, related⟩
  · intro tokens
    constructor
    · rintro ⟨w, t, d, walk, dry⟩
      obtain ⟨t', d', walk', before, spots, cursors⟩ := walk_simulated rules (stand tokens) walk
      exact ⟨w, t', d', walk', cursors.rest_eq.symm.trans dry⟩
    · rintro ⟨w, t', d', walk', dry⟩
      obtain ⟨t, d, walk, before, spots, cursors⟩ := walk_simulated_back rules (stand tokens) walk'
      exact ⟨w, t, d, walk, cursors.rest_eq.trans dry⟩

end

end Grammar

end Lockstep
