import Lockstep.Proofs.Aliases
import Lockstep.Proofs.Proper

set_option autoImplicit false

namespace Lockstep

theorem SameGuards.of_moved {strict : Prop} (loose : ¬ strict)
    {before guards guards' before' more more' : List Predicate}
    (same : SameGuards strict guards (before ++ guards'))
    (moved : (before ++ more).Perm (before' ++ more')) :
    SameGuards strict (guards ++ more) (before' ++ (guards' ++ more')) := by
  refine ⟨?_, fun inOrder => absurd inOrder loose⟩
  calc (guards ++ more).Perm ((before ++ guards') ++ more) := same.perm.append_right more
    _ = before ++ (guards' ++ more) := List.append_assoc _ _ _
    List.Perm _ (before ++ (more ++ guards')) := List.perm_append_comm.append_left before
    _ = (before ++ more) ++ guards' := (List.append_assoc _ _ _).symm
    List.Perm _ ((before' ++ more') ++ guards') := moved.append_right guards'
    _ = before' ++ (more' ++ guards') := List.append_assoc _ _ _
    List.Perm _ (before' ++ (guards' ++ more')) := List.perm_append_comm.append_left before'

namespace Matcher

def under (more : List Predicate) : Matcher → Matcher
  | .token spec guards => .token spec (guards ++ more)
  | .nothing guards => .nothing (guards ++ more)
  | .sequence name? parts build guards => .sequence name? parts build (guards ++ more)
  | .branch options guards => .branch options (guards ++ more)
  | .rule name guards => .rule name (guards ++ more)
  | .list item separator? guards => .list item separator? (guards ++ more)
  | .tail item separator? guards => .tail item separator? (guards ++ more)

theorem under_nil (m : Matcher) : m.under [] = m := by
  cases m <;> simp only [under, List.append_nil]

theorem lower_guarded (p : Pattern) (mark : Nat) (guard : Predicate) :
    lower (p.guarded mark guard) = (lower p).under [guard] := by
  cases p <;> simp only [Pattern.guarded, lower, under]

variable {strict : Prop} {g g' : Grammar}

/-- When their order does not matter, guards of a matcher may be met before it. -/
theorem Alike.under (loose : ¬ strict) {before : List Predicate} {m m' : Matcher}
    (h : m.Alike strict g g' before m') {before' more more' : List Predicate}
    (moved : (before ++ more).Perm (before' ++ more')) :
    (m.under more).Alike strict g g' before' (m'.under more') := by
  have passed : ∀ {before guards' before' more more' : List Predicate},
      (before ++ more).Perm (before' ++ more') →
      ((before ++ guards') ++ more).Perm ((before' ++ (guards' ++ more')) ++ []) := by
    intro before guards' before' more more' moved
    rw [List.append_nil]
    exact ((SameGuards.refl strict (before ++ guards')).of_moved loose moved).perm
  -- What is met at an alias is met before what it stands for, so there the guards move once more.
  induction h generalizing before' more more' with
  | token same => exact .token (same.of_moved loose moved)
  | nothing same => exact .nothing (same.of_moved loose moved)
  | sequence same length_eq all => exact .sequence (same.of_moved loose moved) length_eq all
  | branch same length_eq all => exact .branch (same.of_moved loose moved) length_eq all
  | rule known same => exact .rule known (same.of_moved loose moved)
  | list same items isSome_eq separators =>
    exact .list (same.of_moved loose moved) items isSome_eq separators
  | tail same items isSome_eq separators =>
    exact .tail (same.of_moved loose moved) items isSome_eq separators
  | called found core ih =>
    have inner := ih (passed moved)
    rw [under_nil] at inner
    exact .called found inner
  | wrapped core ih =>
    have inner := ih (passed moved)
    rw [under_nil] at inner
    exact .wrapped inner

theorem AllAlike.of_map {ps ps' : List Pattern} (length_eq : ps.length = ps'.length)
    (all : ∀ (i : Nat) p p', ps[i]? = some p → ps'[i]? = some p' →
      (lower p).Alike strict g g' [] (lower p')) :
    AllAlike strict g g' (lowerAll ps) (lowerAll ps') := by
  rw [lowerAll_eq_map, lowerAll_eq_map]
  refine ⟨by rw [List.length_map, List.length_map, length_eq], ?_⟩
  intro i m m' found found'
  rw [List.getElem?_map, Option.map_eq_some_iff] at found found'
  obtain ⟨p, here, rfl⟩ := found
  obtain ⟨p', here', rfl⟩ := found'
  exact all i p p' here here'

theorem absent_alike (absent? : Option Combiner) :
    (absent absent?).Alike strict g g' [] (absent absent?) := by
  have empty : (Matcher.nothing []).Alike strict g g' [] (.nothing []) := .nothing (.refl _ _)
  cases absent? with
  | none => exact empty
  | some build => exact (AllAlike.nil.cons empty).sequence none build

theorem optional_alike {inner inner' : Pattern} (absent? : Option Combiner)
    (guards : List Predicate) (alike : (lower inner).Alike strict g g' [] (lower inner')) :
    (lower (.optional inner absent? guards)).Alike strict g g' []
      (lower (.optional inner' absent? guards)) := by
  have options := (AllAlike.nil.cons (absent_alike absent?)).cons alike
  exact .branch (.refl strict guards) options.length_eq options.all

theorem list_alike {item item' : Pattern} {separator? separator?' : Option Pattern}
    (guards : List Predicate) (items : (lower item).Alike strict g g' [] (lower item'))
    (isSome_eq : separator?.isSome = separator?'.isSome)
    (separators : ∀ s s', separator? = some s → separator?' = some s' →
      (lower s).Alike strict g g' [] (lower s')) :
    (lower (.list item separator? guards)).Alike strict g g' []
      (lower (.list item' separator?' guards)) := by
  refine .list (.refl strict guards) items ?_ ?_
  · rw [lowerSome_eq_map, lowerSome_eq_map, Option.isSome_map, Option.isSome_map, isSome_eq]
  · intro m m' found found'
    rw [lowerSome_eq_map, Option.map_eq_some_iff] at found found'
    obtain ⟨s, here, rfl⟩ := found
    obtain ⟨s', here', rfl⟩ := found'
    exact separators s s' here here'

theorem AllAlike.of_self {ps : List Pattern}
    (all : ∀ p ∈ ps, (lower p).Alike strict g g' [] (lower p)) :
    AllAlike strict g g' (lowerAll ps) (lowerAll ps) := by
  refine .of_map rfl fun i p p' found found' => ?_
  rw [found] at found'
  cases found'
  exact all p (List.mem_of_getElem? found)

/-- When it refers to rules of the first grammar only, a pattern is derived alike under both. -/
theorem alike_of_proper {p : Pattern} (proper : p.Proper g.Defines) :
    (lower p).Alike strict g g' [] (lower p) := by
  induction proper with
  | token => exact .token (.refl _ _)
  | nothing => exact .nothing (.refl _ _)
  | sequence _ _ ih =>
    have parts := AllAlike.of_self ih
    exact .sequence (.refl _ _) parts.length_eq parts.all
  | branch _ _ ih =>
    have options := AllAlike.of_self ih
    exact .branch (.refl _ _) options.length_eq options.all
  | reference known => exact .rule known (.refl _ _)
  | optional _ ih => exact optional_alike _ _ ih
  | list _ _ ih ihs =>
    refine list_alike _ ih rfl fun s s' found found' => ?_
    rw [found] at found'
    cases found'
    exact ihs s found

end Matcher

namespace Pattern

/-- `q'` is `q` with references to `name` where `p` stood, in some places or in none. If they are
`bare`, the references stand under no guards of their own; else they have those that `p` stood under
besides its own ones. Marks do not count. -/
inductive Replaced (p : Pattern) (name : String) (bare : Prop) : Pattern → Pattern → Prop where
  | same {q : Pattern} : Replaced p name bare q q
  | here : Replaced p name bare p (.reference name [])
  | guarded {q q' : Pattern} (loose : ¬ bare) (inside : Replaced p name bare q q')
      (mark mark' : Nat) (guard : Predicate) :
    Replaced p name bare (q.guarded mark guard) (q'.guarded mark' guard)
  | sequence {mark mark' : Nat} {name? : Option String} {parts parts' : List Pattern}
      {build : Combiner} {guards : List Predicate} (length_eq : parts.length = parts'.length)
      (all : ∀ (i : Nat) q q', parts[i]? = some q → parts'[i]? = some q' →
        Replaced p name bare q q') :
    Replaced p name bare (.sequence mark name? parts build guards)
      (.sequence mark' name? parts' build guards)
  | branch {options options' : List Pattern} {guards : List Predicate}
      (length_eq : options.length = options'.length)
      (all : ∀ (i : Nat) q q', options[i]? = some q → options'[i]? = some q' →
        Replaced p name bare q q') :
    Replaced p name bare (.branch options guards) (.branch options' guards)
  | optional {inner inner' : Pattern} {absent? : Option Combiner} {guards : List Predicate}
      (inside : Replaced p name bare inner inner') :
    Replaced p name bare (.optional inner absent? guards) (.optional inner' absent? guards)
  | list {item item' : Pattern} {separator? separator?' : Option Pattern} {guards : List Predicate}
      (items : Replaced p name bare item item') (isSome_eq : separator?.isSome = separator?'.isSome)
      (separators : ∀ s s', separator? = some s → separator?' = some s' →
        Replaced p name bare s s') :
    Replaced p name bare (.list item separator? guards) (.list item' separator?' guards)

theorem proper_of_guarded {defined : String → Prop} {q : Pattern} {mark : Nat} {guard : Predicate}
    (h : (q.guarded mark guard).Proper defined) : q.Proper defined := by
  cases q with
  | token => exact .token
  | nothing => exact .nothing
  | sequence => cases h with | sequence nonempty all => exact .sequence nonempty all
  | branch => cases h with | branch nonempty all => exact .branch nonempty all
  | reference => cases h with | reference known => exact .reference known
  | optional => cases h with | optional proper => exact .optional proper
  | list => cases h with | list proper separated => exact .list proper separated

theorem Proper.of_occurs {defined : String → Prop} {p q : Pattern} (h : p.Proper defined)
    (inside : q.Occurs p) : q.Proper defined := by
  induction inside with
  | self => exact h
  | part mem _ ih => cases h with | sequence _ all => exact ih (all _ mem)
  | option mem _ ih => cases h with | branch _ all => exact ih (all _ mem)
  | inner _ ih => cases h with | optional proper => exact ih proper
  | item _ ih => cases h with | list proper => exact ih proper
  | separator _ ih => cases h with | list _ separated => exact ih (separated _ rfl)

section

variable {p q q' : Pattern} {name : String} {bare : Prop} {g g' : Grammar}

/-- Replacing keeps what is derived, if the reference does for the pattern itself. -/
theorem Replaced.alike (h : p.Replaced name bare q q') (proper : q.Proper g.Defines)
    (call : (Matcher.lower p).Alike bare g g' [] (.rule name [])) :
    (Matcher.lower q).Alike bare g g' [] (Matcher.lower q') := by
  induction h with
  | same => exact Matcher.alike_of_proper proper
  | here => exact call
  | guarded loose _ mark mark' guard ih =>
    rw [Matcher.lower_guarded, Matcher.lower_guarded]
    exact (ih (proper_of_guarded proper)).under loose (.refl _)
  | sequence length_eq _ ih =>
    cases proper with
    | sequence _ all =>
      have parts := Matcher.AllAlike.of_map length_eq fun i q q' found found' =>
        ih i q q' found found' (all q (List.mem_of_getElem? found))
      exact .sequence (.refl _ _) parts.length_eq parts.all
  | branch length_eq _ ih =>
    cases proper with
    | branch _ all =>
      have options := Matcher.AllAlike.of_map length_eq fun i q q' found found' =>
        ih i q q' found found' (all q (List.mem_of_getElem? found))
      exact .branch (.refl _ _) options.length_eq options.all
  | optional _ ih =>
    cases proper with
    | optional proper => exact Matcher.optional_alike _ _ (ih proper)
  | list _ isSome_eq _ ih ihs =>
    cases proper with
    | list proper separated =>
      exact Matcher.list_alike _ (ih proper) isSome_eq fun s s' found found' =>
        ihs s s' found found' (separated s found)

theorem Replaced.proper_all {defined : String → Prop} {ps ps' : List Pattern}
    (length_eq : ps.length = ps'.length) (proper : ∀ q ∈ ps, q.Proper defined)
    (all : ∀ (i : Nat) q q', ps[i]? = some q → ps'[i]? = some q' → q.Proper defined →
      q'.Proper defined) : ∀ q' ∈ ps', q'.Proper defined := by
  intro q' mem
  obtain ⟨i, found'⟩ := List.mem_iff_getElem?.mp mem
  obtain ⟨q, found⟩ := exists_getElem?_of_length_eq length_eq.symm found'
  exact all i q q' found found' (proper q (List.mem_of_getElem? found))

theorem Replaced.proper {defined : String → Prop} (h : p.Replaced name bare q q')
    (proper : q.Proper defined) (known : defined name) : q'.Proper defined := by
  have nonempty : ∀ {ps ps' : List Pattern}, ps.length = ps'.length → ps ≠ [] → ps' ≠ [] := by
    intro ps ps' same some none
    rw [none, List.length_nil, List.length_eq_zero_iff] at same
    exact some same
  induction h with
  | same => exact proper
  | here => exact .reference known
  | guarded _ _ mark mark' guard ih => exact (ih (proper_of_guarded proper)).guarded mark' guard
  | sequence length_eq _ ih =>
    cases proper with
    | sequence some all => exact .sequence (nonempty length_eq some) (proper_all length_eq all ih)
  | branch length_eq _ ih =>
    cases proper with
    | branch some all => exact .branch (nonempty length_eq some) (proper_all length_eq all ih)
  | optional _ ih =>
    cases proper with
    | optional proper => exact .optional (ih proper)
  | list _ isSome_eq _ ih ihs =>
    cases proper with
    | list proper separated =>
      refine .list (ih proper) fun s' found' => ?_
      obtain ⟨s, found⟩ := Option.isSome_iff_exists.mp (isSome_eq.trans (Option.isSome_iff_exists.mpr ⟨s', found'⟩))
      exact ihs s s' found found' (separated s found)

end

end Pattern

namespace Builder

variable {b b' : Builder} {made : List Pattern} {p : Pattern} {name : String}

/-- A builder gives a grammar when it has met no defect, and all names that it refers to or is to
start from have rules. -/
theorem grammar_ok_iff : (∃ g, b.grammar = .ok g) ↔ b.defects = [] ∧
    (∀ name ∈ b.referenced, ∃ p, b.lookup? name = some p) ∧
    ∀ name, b.main? = some name → ∃ p, b.lookup? name = some p := by
  have complete : b.referenced.find? (fun name => (b.lookup? name).isNone) = none ↔
      ∀ name ∈ b.referenced, ∃ p, b.lookup? name = some p := by
    rw [List.find?_eq_none]
    refine forall₂_congr fun name _ => ?_
    rw [Bool.not_eq_true, Option.isNone_eq_false_iff, Option.isSome_iff_exists]
  rw [← complete]
  constructor
  · rintro ⟨g, ok⟩
    unfold Builder.grammar at ok
    split at ok
    · cases ok
    · cases ok
    · next name none found main =>
      split at ok
      · next here =>
        refine ⟨none, found, ?_⟩
        rintro name' same
        rw [main] at same
        cases same
        exact Option.isSome_iff_exists.mp here
      · cases ok
    · next none found main =>
      refine ⟨none, found, fun name same => ?_⟩
      rw [main] at same
      cases same
  · rintro ⟨none, found, start⟩
    unfold Builder.grammar
    rw [none, found]
    cases main : b.main? with
    | none => exact ⟨_, rfl⟩
    | some name =>
      have here := Option.isSome_iff_exists.mpr (start name main)
      simp only [here, ↓reduceIte]
      exact ⟨_, rfl⟩

theorem names_mention (b : Builder) (name : String) :
    name ∈ (b.mention name).names ∧ ∀ other ∈ b.names, other ∈ (b.mention name).names := by
  unfold mention
  split
  · next here => exact ⟨List.contains_iff_mem.mp here, fun _ mem => mem⟩
  · exact ⟨List.mem_append_right _ List.mem_cons_self, fun _ mem => List.mem_append_left _ mem⟩

def RulesNamed (b : Builder) : Prop := ∀ rule ∈ b.rules, rule.1 ∈ b.names

theorem RulesNamed.of_eq (h : b.RulesNamed) (rules : b'.rules = b.rules)
    (names : ∀ name ∈ b.names, name ∈ b'.names) : b'.RulesNamed := by
  intro rule mem
  rw [rules] at mem
  exact names _ (h rule mem)

theorem RulesNamed.mention (h : b.RulesNamed) (name : String) : (b.mention name).RulesNamed :=
  h.of_eq (mention_eq b name).2 (names_mention b name).2

theorem RulesNamed.register (h : b.RulesNamed) (name : String) (p : Pattern) :
    (b.register name p).2.RulesNamed := by
  have mentioned := h.mention name
  simp only [Builder.register]
  split
  · exact mentioned.of_eq rfl fun _ mem => mem
  · intro rule mem
    rcases List.mem_append.mp mem with old | new
    · exact mentioned rule old
    · rw [List.mem_singleton.mp new]
      exact (names_mention b name).1

theorem RulesNamed.sequence (h : b.RulesNamed) (name? : Option String) (build : Combiner)
    (parts : List Pattern) : (b.sequence name? build parts).2.RulesNamed := by
  unfold Builder.sequence
  split <;> exact h.of_eq rfl fun _ mem => mem

theorem RulesNamed.run (h : b.RulesNamed) (op : Operation) : (op.run b).2.RulesNamed := by
  cases op with
  | keyword word =>
    simp only [Operation.run, Builder.keyword]
    split
    · exact h
    · exact h.of_eq rfl fun _ mem => mem
  | operator text =>
    simp only [Operation.run, Builder.operator]
    split
    · exact h.of_eq rfl fun _ mem => mem
    · exact h
    · exact h.sequence _ _ _
  | sequence build parts => exact h.sequence none build parts
  | namedSequence name build parts => exact (h.sequence (some name) build parts).register name _
  | oneOf options =>
    simp only [Operation.run, Builder.oneOf]
    split
    · exact h.of_eq rfl fun _ mem => mem
    · exact h
  | reference name => exact (h.mention name).of_eq rfl fun _ mem => mem
  | guarded pattern guard => exact h.of_eq rfl fun _ mem => mem
  | define name pattern =>
    obtain ⟨mark, same⟩ := named_eq b name pattern
    have named : (b.named name pattern).2.RulesNamed := by
      rw [same]
      exact h.of_eq rfl fun _ mem => mem
    exact named.register name _
  | register name pattern => exact h.register name pattern
  | _ => exact h

theorem Built.rulesNamed (h : b.Built made) : b.RulesNamed := by
  induction h with
  | empty => exact fun _ mem => absurd mem List.not_mem_nil
  | operation _ op _ ih => exact ih.run op
  | setMain _ name ih => exact (ih.mention name).of_eq rfl fun _ mem => mem

theorem Built.lookup?_eq_none (h : b.Built made) (fresh : name ∉ b.names) : b.lookup? name = none := by
  refine List.lookup_eq_none_iff.mpr fun rule mem => ?_
  rw [bne_iff_ne]
  rintro rfl
  exact fresh (h.rulesNamed rule mem)

/-- The operation makes `p` the rule `name`, as a named sequence or as it is. -/
def Operation.Names (op : Operation) (name : String) (p : Pattern) : Prop :=
  op = .define name p ∨ op = .register name p

theorem register_eq (free : b.lookup? name = none) (p : Pattern) : b.register name p =
    (p, { b.mention name with rules := b.rules ++ [(name, p)] }) := by
  have same : (b.mention name).lookup? name = none := by
    rw [lookup?, (mention_eq b name).2]
    exact free
  simp only [Builder.register, same, Option.isSome_none, Bool.false_eq_true, ↓reduceIte,
    (mention_eq b name).2]

theorem Operation.Names.run_eq {op : Operation} (names : op.Names name p)
    (free : b.lookup? name = none) : ∃ mark, (op.run b).2 =
      { b.mention name with rules := b.rules ++ [(name, (op.run b).1)], nextMark := mark } := by
  rcases names with rfl | rfl
  · obtain ⟨mark, same⟩ := named_eq b name p
    have free' : (b.named name p).2.lookup? name = none := by
      rw [same]
      exact free
    refine ⟨mark, ?_⟩
    have run : (Operation.define name p).run b = _ := register_eq free' (b.named name p).1
    rw [run, same]
    simp only [Builder.mention]
    split <;> rfl
  · refine ⟨(b.mention name).nextMark, ?_⟩
    have run : (Operation.register name p).run b = _ := register_eq free p
    rw [run]

theorem mention_keeps (b : Builder) (name : String) :
    (b.mention name).defects = b.defects ∧ (b.mention name).main? = b.main? := by
  unfold mention
  split <;> exact ⟨rfl, rfl⟩

section

variable {op : Operation} {g : Grammar} (names : op.Names name p) (free : b.lookup? name = none)
include names free

theorem Operation.Names.lookup?_eq : (op.run b).2.lookup? name = some (op.run b).1 ∧
    ∀ other, other ≠ name → (op.run b).2.lookup? other = b.lookup? other := by
  obtain ⟨mark, same⟩ := names.run_eq free
  rw [same]
  simp only [lookup?, List.lookup_append] at free ⊢
  refine ⟨?_, ?_⟩
  · rw [free, Option.none_or, List.lookup_cons_self]
  · intro other different
    have elsewhere : List.lookup other [(name, (op.run b).1)] = none := by
      rw [List.lookup_cons, beq_eq_false_iff_ne.mpr different]
      rfl
    rw [elsewhere, Option.or_none]

theorem Operation.Names.grammar_ok (ok : b.grammar = .ok g) :
    (∃ g', (op.run b).2.grammar = .ok g') ∧
      ∃ g', ((op.run b).2.reference name).2.grammar = .ok g' := by
  obtain ⟨none, found, start⟩ := grammar_ok_iff.mp ⟨g, ok⟩
  obtain ⟨here, elsewhere⟩ := names.lookup?_eq free
  obtain ⟨mark, same⟩ := names.run_eq free
  have defects : (op.run b).2.defects = [] := by
    rw [same]
    exact (mention_keeps b name).1.trans none
  have referenced : (op.run b).2.referenced = b.referenced := by
    rw [same]
    exact (mention_eq b name).1
  have main : (op.run b).2.main? = b.main? := by
    rw [same]
    exact (mention_keeps b name).2
  have known : ∀ other, (∃ q, b.lookup? other = some q) → ∃ q, (op.run b).2.lookup? other = some q := by
    intro other old
    by_cases new : other = name
    · exact ⟨_, new ▸ here⟩
    · rw [elsewhere other new]
      exact old
  refine ⟨grammar_ok_iff.mpr ⟨defects, ?_, ?_⟩, grammar_ok_iff.mpr ⟨?_, ?_, ?_⟩⟩
  · intro other mem
    exact known other (found other (referenced ▸ mem))
  · intro other chosen
    exact known other (start other (main ▸ chosen))
  · exact (mention_keeps _ name).1.trans defects
  · intro other mem
    have mentioned : (((op.run b).2.reference name).2.lookup? other) = (op.run b).2.lookup? other :=
      congrArg (List.lookup other) (mention_eq _ name).2
    rw [mentioned]
    have listed : ((op.run b).2.reference name).2.referenced = b.referenced ++ [name] :=
      congrArg (· ++ [name]) ((mention_eq _ name).1.trans referenced)
    rw [listed] at mem
    rcases List.mem_append.mp mem with old | new
    · exact known other (found other old)
    · rw [List.mem_singleton.mp new]
      exact ⟨_, here⟩
  · intro other chosen
    have mentioned : (((op.run b).2.reference name).2.lookup? other) = (op.run b).2.lookup? other :=
      congrArg (List.lookup other) (mention_eq _ name).2
    rw [mentioned]
    have chosen' : b.main? = some other := (main.symm.trans (mention_keeps _ name).2.symm).trans chosen
    exact known other (start other chosen')

end

end Builder

def Pattern.Among (made : List Pattern) (p : Pattern) : Prop := ∃ q ∈ made, p.Occurs q

namespace Grammar

/-- The rules of `g'` are those of `g`, with references to `name` where `p` stood in others. -/
structure Refactored (g : Grammar) (p : Pattern) (name : String) (bare : Prop) (g' : Grammar) :
    Prop where
  definition : g'.lookup? name = g.lookup? name
  rules : ∀ other, other ≠ name →
    Option.Rel (p.Replaced name bare) (g.lookup? other) (g'.lookup? other)

/-- Beside the rules of `g`, which may refer to it where `p` stood, `g'` has the new rule `d`. -/
structure Introduces (g : Grammar) (p : Pattern) (name : String) (d : Pattern) (bare : Prop)
    (g' : Grammar) : Prop where
  fresh : g.lookup? name = none
  definition : g'.lookup? name = some d
  rules : ∀ other, other ≠ name →
    Option.Rel (p.Replaced name bare) (g.lookup? other) (g'.lookup? other)

variable {g g' : Grammar} {p d q q' : Pattern} {name : String} {bare : Prop}
  (h : g.Introduces p name d bare g')
include h

theorem Introduces.of_rule {other : String} (found : g.lookup? other = some q) :
    ∃ q', g'.lookup? other = some q' ∧ p.Replaced name bare q q' := by
  have different : other ≠ name := by
    rintro rfl
    rw [h.fresh] at found
    cases found
  have related := h.rules other different
  rw [found] at related
  cases found' : g'.lookup? other with
  | none =>
    rw [found'] at related
    cases related
  | some q' =>
    rw [found'] at related
    cases related with
    | some replaced => exact ⟨q', rfl, replaced⟩

theorem Introduces.to_rule {other : String} (found' : g'.lookup? other = some q') :
    (other = name ∧ q' = d) ∨ ∃ q, g.lookup? other = some q ∧ p.Replaced name bare q q' := by
  by_cases different : other = name
  · subst different
    rw [h.definition] at found'
    cases found'
    exact .inl ⟨rfl, rfl⟩
  · have related := h.rules other different
    rw [found'] at related
    cases found : g.lookup? other with
    | none =>
      rw [found] at related
      cases related
    | some q =>
      rw [found] at related
      cases related with
      | some replaced => exact .inr ⟨q, rfl, replaced⟩

theorem Introduces.defines (other : String) (known : g.Defines other) : g'.Defines other := by
  obtain ⟨q, found⟩ := known
  obtain ⟨q', found', -⟩ := h.of_rule found
  exact ⟨q', found'⟩

theorem Introduces.proper (replaced : p.Replaced name bare q q') (proper : q.Proper g.Defines) :
    q'.Proper g'.Defines :=
  replaced.proper (proper.mono h.defines) ⟨d, h.definition⟩

theorem Introduces.closed (closed : g.Closed g.Defines) (proper : d.Proper g.Defines) :
    g'.Closed g'.Defines := by
  intro other q' found'
  rcases h.to_rule found' with ⟨rfl, rfl⟩ | ⟨q, found, replaced⟩
  · exact proper.mono h.defines
  · exact h.proper replaced (closed other q found)

theorem Introduces.call (alike : (Matcher.lower p).Alike bare g g' [] (.lower d)) :
    (Matcher.lower p).Alike bare g g' [] (.rule name []) :=
  .called h.definition alike

theorem Introduces.rulesAlike (closed : g.Closed g.Defines)
    (alike : (Matcher.lower p).Alike bare g g' [] (.lower d)) : Matcher.RulesAlike bare g g' := by
  intro other q found
  obtain ⟨q', found', replaced⟩ := h.of_rule found
  exact ⟨q', found', replaced.alike (closed other q found) (h.call alike)⟩

end Grammar

namespace Builder

variable {b : Builder} {made : List Pattern} {g g' : Grammar} {p : Pattern} {name : String}
  {op : Operation} {bare : Prop}

/-- A sequence that takes a name is derived as before, and so is what becomes its only part. -/
theorem Operation.Names.alike (names : op.Names name p) (proper : p.Proper g.Defines) :
    (Matcher.lower p).Alike bare g g' [] (.lower (op.run b).1) := by
  have itself : (Matcher.lower p).Alike bare g g' [] (.lower p) := Matcher.alike_of_proper proper
  rcases names with rfl | rfl
  · cases p with
    | sequence mark name? parts build guards =>
      cases name? with
      | some own => exact itself
      | none =>
        have parts_alike : Matcher.AllAlike bare g g' (Matcher.lowerAll parts)
            (Matcher.lowerAll parts) := by
          cases proper with
          | sequence _ all => exact .of_self fun q mem => Matcher.alike_of_proper (all q mem)
        exact .sequence (.refl _ _) parts_alike.length_eq parts_alike.all
    | _ => exact .wrapped itself
  · exact itself

theorem Operation.Names.proper {defined : String → Prop} (names : op.Names name p)
    (proper : p.Proper defined) : (op.run b).1.Proper defined := by
  rcases names with rfl | rfl
  · have only : ∀ q ∈ [p], q.Proper defined := List.forall_mem_singleton.mpr proper
    cases p with
    | sequence mark name? parts build guards =>
      cases name? with
      | some own => exact proper
      | none =>
        cases proper with
        | sequence some all => exact .sequence some all
    | _ => exact .sequence (List.cons_ne_nil _ _) only
  · exact proper

end Builder

namespace Parser

open Builder (Operation)

/-- Take a grammar that was built, a pattern `p` of it and a name that nothing in it uses. Then the
grammar can be finished with `p` defined under that name as well, and with the name referred to. In
that grammar, references to the name may take the place of `p` wherever it stands, in rules and in
the pattern to start from, and the definition may be started from in place of `p`. As long as no
limit is hit, a parser goes through any calls as it does for the grammar and the pattern as they
were. -/
theorem naming_is_transparent {b : Builder} {made : List Pattern} {g : Grammar} {p : Pattern}
    {name : String} {op : Operation} (built : b.Built made) (ok : b.grammar = .ok g)
    (among : Pattern.Among made p) (fresh : name ∉ b.names) (names : op.Names name p) :
    (∃ g₁, (op.run b).2.grammar = .ok g₁) ∧
    (∃ g₁, ((op.run b).2.reference name).2.grammar = .ok g₁) ∧
    ∀ g₁, (op.run b).2.grammar = .ok g₁ ∨ ((op.run b).2.reference name).2.grammar = .ok g₁ →
      ∀ bare g', g₁.Refactored p name bare g' →
      ∀ q q', Pattern.Among made q → p.Replaced name bare q q' ∨ (q = p ∧ q' = (op.run b).1) →
      ∀ (a a' : Parser) (start : Position) (calls : List Call), a.grammar = g → a'.grammar = g' →
        (a.setup q start).KeepsLimits calls → (a'.setup q' start).KeepsLimits calls →
          (a.setup q start).Concurs bare calls (a'.setup q' start) := by
  have free := built.lookup?_eq_none fresh
  have proper : ∀ q, Pattern.Among made q → q.Proper g.Defines := by
    rintro q ⟨r, mem, inside⟩
    exact (built.proper_of_grammar ok r mem).of_occurs inside
  obtain ⟨finished, finished'⟩ := names.grammar_ok free ok
  refine ⟨finished, finished', ?_⟩
  intro g₁ ok₁ bare g' refactored q q' amongQ replaced a a' start calls same same' keeps keeps'
  -- Referring to the name adds no rule, so both builders that were finished have the same ones.
  have rules : g.rules = b.rules := (Builder.grammar_eq_ok ok).1
  have rules₁ : g₁.rules = (op.run b).2.rules := by
    rcases ok₁ with ok₁ | ok₁
    · exact (Builder.grammar_eq_ok ok₁).1
    · exact (Builder.grammar_eq_ok ok₁).1.trans (Builder.mention_eq _ name).2
  obtain ⟨here, elsewhere⟩ := names.lookup?_eq free
  have added : g.Introduces p name (op.run b).1 bare g' := by
    refine ⟨?_, ?_, ?_⟩
    · rw [Grammar.lookup?, rules]
      exact free
    · rw [refactored.definition, Grammar.lookup?, rules₁]
      exact here
    · intro other different
      have related := refactored.rules other different
      rw [Grammar.lookup?, rules₁] at related
      rw [Grammar.lookup?, rules]
      have unchanged : (op.run b).2.rules.lookup other = b.rules.lookup other :=
        elsewhere other different
      rw [unchanged] at related
      exact related
  have closed := built.closed ok
  have alike : (Matcher.lower p).Alike bare g g' [] (.lower (op.run b).1) :=
    names.alike (proper p among)
  have defined : (op.run b).1.Proper g.Defines := names.proper (proper p among)
  have derived : (Matcher.lower q).Alike bare g g' [] (.lower q') ∧ q'.Proper g'.Defines := by
    rcases replaced with replaced | ⟨rfl, rfl⟩
    · exact ⟨replaced.alike (proper q amongQ) (added.call alike),
        added.proper replaced (proper q amongQ)⟩
    · exact ⟨alike, defined.mono added.defines⟩
  have twins := Grammar.twins_of_alike (added.rulesAlike closed alike) derived.1 start
  exact concurs_of_twins twins same same' closed (added.closed closed defined) (proper q amongQ)
    derived.2 keeps keeps'

theorem keepsLimits_of_ok {p : Parser} {calls : List Call}
    (ok : ∀ o ∈ p.observed calls, o.error? = none) : p.KeepsLimits calls := by
  intro o mem e failed
  rw [ok o mem] at failed
  cases failed

open Builder (wordPattern moreWords wordsPattern wordsBuilder wordsGrammar wordsBuilder_built
  wordsBuilder_grammar)

def namedMore : Pattern :=
  .sequence 1 (some "more") [wordPattern, .reference "main" []] (.nth 1) []

def wordsByName : Pattern := .branch [.reference "more" [], wordPattern] []

def moreWordsGrammar (main : Pattern) : Grammar :=
  ⟨["main", "more"], [("main", main), ("more", namedMore)], [], some "main"⟩

def wordsFed : List Call := [.feed wordA, .feed wordA, .finish]

theorem wordsByName_replaced : moreWords.Replaced "more" True wordsPattern wordsByName := by
  refine .branch rfl fun i q q' found found' => ?_
  match i with
  | 0 =>
    cases found
    cases found'
    exact .here
  | 1 =>
    cases found
    cases found'
    exact .same

theorem moreWordsGrammar_refactored : (moreWordsGrammar wordsPattern).Refactored moreWords "more" True
    (moreWordsGrammar wordsByName) := by
  refine ⟨rfl, fun other different => ?_⟩
  by_cases main : other = "main"
  · subst main
    exact .some wordsByName_replaced
  · have missing : ∀ p, (moreWordsGrammar p).lookup? other = none := by
      intro p
      simp only [Grammar.lookup?, moreWordsGrammar, List.lookup_cons,
        beq_eq_false_iff_ne.mpr main, beq_eq_false_iff_ne.mpr different, List.lookup_nil]
    rw [missing, missing]
    exact .none

theorem more_words_by_name :
    (((ofGrammar wordsGrammar {}).setup wordsPattern .detached).called wordsFed).results.size = 1 ∧
      ((ofGrammar wordsGrammar {}).setup wordsPattern .detached).Concurs True wordsFed
        ((ofGrammar (moreWordsGrammar wordsByName) {}).setup wordsByName .detached) := by
  have ok : ∀ o ∈ ((ofGrammar wordsGrammar {}).setup wordsPattern .detached).observed wordsFed,
      o.error? = none := by decide +kernel
  have ok' : ∀ o ∈ ((ofGrammar (moreWordsGrammar wordsByName) {}).setup wordsByName
      .detached).observed wordsFed, o.error? = none := by decide +kernel
  have among : Pattern.Among [wordsPattern, wordsPattern, moreWords, .reference "main" [], wordPattern]
      moreWords := ⟨moreWords, by simp, .self⟩
  have fresh : "more" ∉ wordsBuilder.names := by decide
  have names : (Operation.define "more" moreWords).Names "more" moreWords := .inl rfl
  obtain ⟨-, -, transparent⟩ :=
    naming_is_transparent wordsBuilder_built wordsBuilder_grammar among fresh names
  refine ⟨by decide +kernel, ?_⟩
  exact transparent (moreWordsGrammar wordsPattern) (.inl rfl) True _ moreWordsGrammar_refactored
    wordsPattern wordsByName ⟨wordsPattern, by simp, .self⟩ (.inl wordsByName_replaced) _ _ .detached
    wordsFed rfl rfl (keepsLimits_of_ok ok) (keepsLimits_of_ok ok')

end Parser

end Lockstep
