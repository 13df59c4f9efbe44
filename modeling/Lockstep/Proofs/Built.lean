import Lockstep.Grammar.Script

set_option autoImplicit false

namespace Lockstep

namespace Pattern

/-- `q` is `p` itself or stands somewhere inside it. -/
inductive Occurs (q : Pattern) : Pattern → Prop where
  | self : Occurs q q
  | part {mark : Nat} {name? : Option String} {parts : List Pattern} {build : Combiner}
      {guards : List Predicate} {p : Pattern} (mem : p ∈ parts) (inside : Occurs q p) :
    Occurs q (.sequence mark name? parts build guards)
  | option {options : List Pattern} {guards : List Predicate} {p : Pattern} (mem : p ∈ options)
      (inside : Occurs q p) :
    Occurs q (.branch options guards)
  | inner {p : Pattern} {absent? : Option Combiner} {guards : List Predicate}
      (inside : Occurs q p) :
    Occurs q (.optional p absent? guards)
  | item {p : Pattern} {separator? : Option Pattern} {guards : List Predicate}
      (inside : Occurs q p) :
    Occurs q (.list p separator? guards)
  | separator {item p : Pattern} {guards : List Predicate} (inside : Occurs q p) :
    Occurs q (.list item (some p) guards)

/-- The pattern is not empty, and if it is a reference, the name is one of those `defined`. What
stands inside it is not looked at. -/
def Grounded (defined : String → Prop) : Pattern → Prop
  | .sequence _ _ parts _ _ => parts ≠ []
  | .branch options _ => options ≠ []
  | .reference name _ => defined name
  | _ => True

inductive Proper (defined : String → Prop) : Pattern → Prop where
  | token {spec : Spec} {guards : List Predicate} : Proper defined (.token spec guards)
  | nothing {guards : List Predicate} : Proper defined (.nothing guards)
  | sequence {mark : Nat} {name? : Option String} {parts : List Pattern} {build : Combiner}
      {guards : List Predicate} (nonempty : parts ≠ []) (all : ∀ p ∈ parts, Proper defined p) :
    Proper defined (.sequence mark name? parts build guards)
  | branch {options : List Pattern} {guards : List Predicate} (nonempty : options ≠ [])
      (all : ∀ p ∈ options, Proper defined p) :
    Proper defined (.branch options guards)
  | reference {name : String} {guards : List Predicate} (known : defined name) :
    Proper defined (.reference name guards)
  | optional {inner : Pattern} {absent? : Option Combiner} {guards : List Predicate}
      (proper : Proper defined inner) :
    Proper defined (.optional inner absent? guards)
  | list {item : Pattern} {separator? : Option Pattern} {guards : List Predicate}
      (proper : Proper defined item) (separated : ∀ s, separator? = some s → Proper defined s) :
    Proper defined (.list item separator? guards)

variable {defined defined' : String → Prop} {p q : Pattern}

theorem Proper.mono (more : ∀ name, defined name → defined' name) (h : p.Proper defined) :
    p.Proper defined' := by
  induction h with
  | token => exact .token
  | nothing => exact .nothing
  | sequence nonempty _ ih => exact .sequence nonempty ih
  | branch nonempty _ ih => exact .branch nonempty ih
  | reference known => exact .reference (more _ known)
  | optional _ ih => exact .optional ih
  | list _ _ ih ihs => exact .list ih ihs

theorem Proper.grounded (h : p.Proper defined) (inside : q.Occurs p) : q.Grounded defined := by
  induction inside with
  | self =>
    cases h with
    | sequence nonempty => exact nonempty
    | branch nonempty => exact nonempty
    | reference known => exact known
    | _ => trivial
  | part mem _ ih =>
    cases h with
    | sequence _ all => exact ih (all _ mem)
  | option mem _ ih =>
    cases h with
    | branch _ all => exact ih (all _ mem)
  | inner _ ih =>
    cases h with
    | optional proper => exact ih proper
  | item _ ih =>
    cases h with
    | list proper => exact ih proper
  | separator _ ih =>
    cases h with
    | list _ separated => exact ih (separated _ rfl)

theorem Proper.guarded (h : p.Proper defined) (mark : Nat) (guard : Predicate) :
    (p.guarded mark guard).Proper defined := by
  cases h with
  | token => exact .token
  | nothing => exact .nothing
  | sequence nonempty all => exact .sequence nonempty all
  | branch nonempty all => exact .branch nonempty all
  | reference known => exact .reference known
  | optional proper => exact .optional proper
  | list proper separated => exact .list proper separated

theorem operatorPart_proper (glued : Bool) (c : Char) :
    (Builder.operatorPart glued c).Proper defined :=
  .token

end Pattern

namespace Builder

inductive Operation where
  | token (spec : Spec)
  | keyword (word : String)
  | operator (text : String)
  | nothing
  | optional (inner : Pattern) (absent? : Option Combiner)
  | list (item : Pattern) (separator? : Option Pattern)
  | sequence (build : Combiner) (parts : List Pattern)
  | namedSequence (name : String) (build : Combiner) (parts : List Pattern)
  | oneOf (options : List Pattern)
  | reference (name : String)
  | guarded (pattern : Pattern) (guard : Predicate)
  | define (name : String) (pattern : Pattern)
  | register (name : String) (pattern : Pattern)

namespace Operation

def operands : Operation → List Pattern
  | .optional inner _ => [inner]
  | .list item separator? => item :: separator?.toList
  | .sequence _ parts => parts
  | .namedSequence _ _ parts => parts
  | .oneOf options => options
  | .guarded pattern _ => [pattern]
  | .define _ pattern => [pattern]
  | .register _ pattern => [pattern]
  | _ => []

def run (b : Builder) : Operation → Pattern × Builder
  | .token spec => b.token spec
  | .keyword word => b.keyword word
  | .operator text => b.operator text
  | .nothing => b.nothing
  | .optional inner absent? => b.optional inner absent?
  | .list item separator? => b.list item separator?
  | .sequence build parts => b.sequence none build parts
  | .namedSequence name build parts => b.namedSequence name build parts
  | .oneOf options => b.oneOf options
  | .reference name => b.reference name
  | .guarded pattern guard => b.guarded pattern guard
  | .define name pattern => b.define name pattern
  | .register name pattern => b.register name pattern

end Operation

/-- `b` was made by operations, and `made` are all patterns that these have made. -/
inductive Built : Builder → List Pattern → Prop where
  | empty : Built .empty []
  | operation {b : Builder} {made : List Pattern} (built : Built b made) (op : Operation)
      (known : ∀ p ∈ op.operands, p ∈ made) :
    Built (op.run b).2 ((op.run b).1 :: made)
  | setMain {b : Builder} {made : List Pattern} (built : Built b made) (name : String) :
    Built (b.setMain name) made

structure Sound (b : Builder) (made : List Pattern) : Prop where
  proper : ∀ p ∈ made, p.Proper (· ∈ b.referenced)
  rules_made : ∀ rule ∈ b.rules, rule.2 ∈ made

variable {b b' : Builder} {made : List Pattern} {p : Pattern}

theorem Sound.of_eq (h : b.Sound made) (referenced : b'.referenced = b.referenced)
    (rules : b'.rules = b.rules) : b'.Sound made :=
  ⟨by rw [referenced]; exact h.proper, by rw [rules]; exact h.rules_made⟩

theorem Sound.add (h : b.Sound made) (proper : p.Proper (· ∈ b.referenced)) :
    b.Sound (p :: made) := by
  refine ⟨?_, fun rule mem => List.mem_cons_of_mem p (h.rules_made rule mem)⟩
  intro q mem
  rcases List.mem_cons.mp mem with rfl | old
  · exact proper
  · exact h.proper q old

theorem Sound.make (h : b.Sound made) (referenced : b'.referenced = b.referenced)
    (rules : b'.rules = b.rules) (proper : p.Proper (· ∈ b.referenced)) : b'.Sound (p :: made) :=
  (h.of_eq referenced rules).add (referenced ▸ proper)

theorem mention_eq (b : Builder) (name : String) :
    (b.mention name).referenced = b.referenced ∧ (b.mention name).rules = b.rules := by
  unfold mention
  split <;> exact ⟨rfl, rfl⟩

theorem named_eq (b : Builder) (name : String) (p : Pattern) :
    ∃ mark, (b.named name p).2 = { b with nextMark := mark } := by
  cases p with
  | sequence _ name? =>
    cases name? with
    | some own => exact ⟨b.nextMark, rfl⟩
    | none => exact ⟨b.nextMark + 1, rfl⟩
  | _ => exact ⟨b.nextMark + 1, rfl⟩

theorem Sound.sequence (h : b.Sound made) (name? : Option String) (build : Combiner)
    {parts : List Pattern} (known : ∀ p ∈ parts, p ∈ made) :
    (b.sequence name? build parts).2.Sound ((b.sequence name? build parts).1 :: made) := by
  unfold Builder.sequence
  split
  · exact h.make rfl rfl .nothing
  · next nonempty =>
    refine h.make rfl rfl (.sequence ?_ fun p mem => h.proper p (known p mem))
    exact fun same => nonempty (List.isEmpty_iff.mpr same)

theorem Sound.operator (h : b.Sound made) (text : String) :
    (b.operator text).2.Sound ((b.operator text).1 :: made) := by
  unfold Builder.operator
  split
  · exact h.make rfl rfl .nothing
  · exact h.add (Pattern.operatorPart_proper _ _)
  · -- The parts are made on the spot, so they are not among the patterns made before.
    simp only [Builder.sequence, List.isEmpty_cons, Bool.false_eq_true, ↓reduceIte]
    refine h.make rfl rfl (.sequence (List.cons_ne_nil _ _) ?_)
    intro p mem
    rcases List.mem_cons.mp mem with rfl | later
    · exact Pattern.operatorPart_proper _ _
    · obtain ⟨c, -, rfl⟩ := List.mem_map.mp later
      exact Pattern.operatorPart_proper _ _

theorem Sound.oneOf (h : b.Sound made) {options : List Pattern}
    (known : ∀ p ∈ options, p ∈ made) :
    (b.oneOf options).2.Sound ((b.oneOf options).1 :: made) := by
  unfold Builder.oneOf
  split
  · exact h.make rfl rfl .nothing
  · next nonempty =>
    refine h.add (.branch ?_ fun p mem => h.proper p (known p mem))
    exact fun same => nonempty (List.isEmpty_iff.mpr same)

theorem Sound.reference (h : b.Sound made) (name : String) :
    (b.reference name).2.Sound ((b.reference name).1 :: made) := by
  obtain ⟨referenced, rules⟩ := mention_eq b name
  have more : (b.reference name).2.Sound made := by
    refine ⟨fun p mem => (h.proper p mem).mono fun other known => ?_, ?_⟩
    · exact List.mem_append_left _ (referenced ▸ known)
    · exact fun rule mem => h.rules_made rule (rules ▸ mem)
  exact more.add (.reference (List.mem_append_right _ List.mem_cons_self))

theorem Sound.register (h : b.Sound made) (name : String) (known : p ∈ made) :
    (b.register name p).2.Sound made := by
  obtain ⟨referenced, rules⟩ := mention_eq b name
  have mentioned : (b.mention name).Sound made := h.of_eq referenced rules
  simp only [Builder.register]
  split
  · exact mentioned.of_eq rfl rfl
  · refine ⟨mentioned.proper, ?_⟩
    intro rule mem
    rcases List.mem_append.mp mem with old | new
    · exact mentioned.rules_made rule old
    · rw [List.mem_singleton.mp new]
      exact known

theorem Sound.named (h : b.Sound made) (name : String) (known : p ∈ made) :
    (b.named name p).2.Sound ((b.named name p).1 :: made) := by
  have proper := h.proper p known
  have wrapped : ∀ q ∈ [p], q.Proper (· ∈ b.referenced) := by
    intro q mem
    rw [List.mem_singleton.mp mem]
    exact proper
  cases p with
  | sequence mark name? parts build guards =>
    cases proper with
    | sequence nonempty all =>
      cases name? with
      | some own => exact h.add (.sequence nonempty all)
      | none => exact h.make rfl rfl (.sequence nonempty all)
  | _ => exact h.make rfl rfl (.sequence (List.cons_ne_nil _ _) wrapped)

theorem Sound.run (h : b.Sound made) (op : Operation) (known : ∀ p ∈ op.operands, p ∈ made) :
    (op.run b).2.Sound ((op.run b).1 :: made) := by
  cases op with
  | token spec => exact h.add .token
  | keyword word =>
    refine h.make ?_ ?_ .token
    all_goals simp only [Operation.run, Builder.keyword]; split <;> rfl
  | operator text => exact h.operator text
  | nothing => exact h.add .nothing
  | optional inner absent? => exact h.add (.optional (h.proper inner (known _ List.mem_cons_self)))
  | list item separator? =>
    refine h.add (.list (h.proper item (known _ List.mem_cons_self)) ?_)
    rintro s rfl
    exact h.proper s (known s (List.mem_cons_of_mem _ List.mem_cons_self))
  | sequence build parts => exact h.sequence none build known
  | namedSequence name build parts =>
    exact (h.sequence (some name) build known).register name List.mem_cons_self
  | oneOf options => exact h.oneOf known
  | reference name => exact h.reference name
  | guarded pattern guard =>
    have proper := h.proper pattern (known _ List.mem_cons_self)
    exact h.make rfl rfl (proper.guarded b.nextMark guard)
  | define name pattern =>
    exact (h.named name (known _ List.mem_cons_self)).register name List.mem_cons_self
  | register name pattern =>
    have here := known pattern List.mem_cons_self
    exact (h.register name here).add ((h.register name here).proper pattern here)

theorem Built.sound (h : b.Built made) : b.Sound made := by
  induction h with
  | empty => exact ⟨fun _ mem => absurd mem List.not_mem_nil, fun _ mem => absurd mem List.not_mem_nil⟩
  | operation _ op known ih => exact ih.run op known
  | @setMain b made _ name ih =>
    obtain ⟨referenced, rules⟩ := mention_eq b name
    exact ih.of_eq referenced rules

end Builder

namespace Grammar

def Defines (g : Grammar) (name : String) : Prop := ∃ p, g.lookup? name = some p

/-- Nothing inside a rule is empty, and all references go to names that are `defined`. -/
def Closed (defined : String → Prop) (g : Grammar) : Prop :=
  ∀ name p, g.lookup? name = some p → p.Proper defined

end Grammar

namespace Builder

variable {b : Builder} {made : List Pattern} {g : Grammar}

/-- A grammar that was built has the rules of its builder, and all names that were referred to are
names of rules; so is the name of the rule to start from. -/
theorem grammar_eq_ok (ok : b.grammar = .ok g) :
    g.rules = b.rules ∧ (∀ name ∈ b.referenced, g.Defines name) ∧
      ∀ name, g.main? = some name → g.Defines name := by
  have defined : b.referenced.find? (fun name => (b.lookup? name).isNone) = none →
      ∀ name ∈ b.referenced, ∃ p, b.lookup? name = some p := by
    intro complete name mem
    have found := List.find?_eq_none.mp complete name mem
    rwa [Bool.not_eq_true, Option.isNone_eq_false_iff, Option.isSome_iff_exists] at found
  unfold Builder.grammar at ok
  split at ok
  · cases ok
  · cases ok
  · next complete _ =>
    split at ok
    · next found =>
      cases ok
      refine ⟨rfl, defined complete, ?_⟩
      intro name same
      cases same
      exact Option.isSome_iff_exists.mp found
    · cases ok
  · next complete _ =>
    cases ok
    refine ⟨rfl, defined complete, ?_⟩
    intro name same
    obtain ⟨p, found, rfl⟩ := Option.map_eq_some_iff.mp same
    exact ⟨p, found⟩

theorem Built.proper_of_grammar (h : b.Built made) (ok : b.grammar = .ok g) :
    ∀ p ∈ made, p.Proper g.Defines := fun p mem =>
  (h.sound.proper p mem).mono (grammar_eq_ok ok).2.1

theorem Built.rule_made (h : b.Built made) (ok : b.grammar = .ok g) {name : String} {p : Pattern}
    (found : g.lookup? name = some p) : p ∈ made := by
  obtain ⟨front, back, split, -⟩ := List.lookup_eq_some_iff.mp found
  have mem : (name, p) ∈ g.rules := by rw [split]; simp
  rw [(grammar_eq_ok ok).1] at mem
  exact h.sound.rules_made _ mem

theorem Built.closed (h : b.Built made) (ok : b.grammar = .ok g) : g.Closed g.Defines :=
  fun _ p found => h.proper_of_grammar ok p (h.rule_made ok found)

def wordPattern : Pattern := .token ⟨.word, none⟩ []

def moreWords : Pattern := .sequence 0 none [wordPattern, .reference "main" []] (.nth 1) []

def wordsPattern : Pattern := .branch [moreWords, wordPattern] []

def wordsBuilder : Builder where
  names := ["main"]
  rules := [("main", wordsPattern)]
  referenced := ["main"]
  nextMark := 1

def wordsGrammar : Grammar := ⟨["main"], [("main", wordsPattern)], [], some "main"⟩

theorem wordsBuilder_built : wordsBuilder.Built
    [wordsPattern, wordsPattern, moreWords, .reference "main" [], wordPattern] := by
  have word := Built.empty.operation (.token ⟨.word, none⟩) (by simp [Operation.operands])
  have rest := word.operation (.reference "main") (by simp [Operation.operands])
  have more := rest.operation (.sequence (.nth 1) [wordPattern, .reference "main" []])
    (by simp [Operation.operands, Operation.run, Builder.token, Builder.reference, wordPattern])
  have words := more.operation (.oneOf [moreWords, wordPattern])
    (by simp [Operation.operands, Operation.run, Builder.token, Builder.reference,
      Builder.sequence, mention, Builder.empty, moreWords, wordPattern])
  exact words.operation (.register "main" wordsPattern)
    (by simp [Operation.operands, Operation.run, Builder.token, Builder.reference,
      Builder.sequence, Builder.oneOf, mention, Builder.empty, wordsPattern, moreWords,
      wordPattern])

theorem wordsBuilder_grammar : wordsBuilder.grammar = .ok wordsGrammar := rfl

end Builder

namespace Expr

open Builder (Built)

def Makes (b : Builder) (ps : List Pattern) (b' : Builder) : Prop :=
  ∀ made, b.Built made → ∃ made', b'.Built made' ∧ (∀ p ∈ ps, p ∈ made') ∧ ∀ p ∈ made, p ∈ made'

variable {b b' b'' : Builder} {ps qs : List Pattern}

theorem Makes.nothing (b : Builder) : Makes b [] b :=
  fun made built => ⟨made, built, fun _ mem => absurd mem List.not_mem_nil, fun _ mem => mem⟩

theorem Makes.append (first : Makes b ps b') (second : Makes b' qs b'') :
    Makes b (ps ++ qs) b'' := by
  intro made built
  obtain ⟨made', built', here, old⟩ := first made built
  obtain ⟨made'', built'', here', old'⟩ := second made' built'
  refine ⟨made'', built'', ?_, fun p mem => old' p (old p mem)⟩
  intro p mem
  rcases List.mem_append.mp mem with left | right
  · exact old' p (here p left)
  · exact here' p right

theorem Makes.operation (parts : Makes b ps b') (op : Builder.Operation)
    (operands : op.operands = ps) : Makes b [(op.run b').1] (op.run b').2 := by
  intro made built
  obtain ⟨made', built', here, old⟩ := parts made built
  refine ⟨_, built'.operation op (operands ▸ here), ?_, ?_⟩
  · intro p mem
    rw [List.mem_singleton.mp mem]
    exact List.mem_cons_self
  · exact fun p mem => List.mem_cons_of_mem _ (old p mem)

theorem makes_guarded {p : Pattern} (guards : List Predicate) (h : Makes b [p] b') :
    let r := guards.foldl (fun (p, b) guard => b.guarded p guard) (p, b')
    Makes b [r.1] r.2 := by
  induction guards generalizing p b' with
  | nil => exact h
  | cons guard guards ih => exact ih (h.operation (.guarded p guard) rfl)

mutual

theorem build_makes : ∀ (e : Expr) (b : Builder), Makes b [(e.build b).1] (e.build b).2
  | .token spec, b => (Makes.nothing b).operation (.token spec) rfl
  | .keyword word, b => (Makes.nothing b).operation (.keyword word) rfl
  | .operator text, b => (Makes.nothing b).operation (.operator text) rfl
  | .nothing, b => (Makes.nothing b).operation .nothing rfl
  | .optional inner absent?, b => (build_makes inner b).operation (.optional _ absent?) rfl
  | .list item separator?, b =>
    ((build_makes item b).append (buildSome_makes separator? _)).operation (.list _ _) rfl
  | .sequence combiner parts, b => (buildAll_makes parts b).operation (.sequence combiner _) rfl
  | .namedSequence name combiner parts, b =>
    (buildAll_makes parts b).operation (.namedSequence name combiner _) rfl
  | .oneOf options, b => (buildAll_makes options b).operation (.oneOf _) rfl
  | .reference name, b => (Makes.nothing b).operation (.reference name) rfl
  | .guarded inner guards, b => makes_guarded guards (build_makes inner b)
  | .define name inner, b => (build_makes inner b).operation (.define name _) rfl
  | .register name inner, b => (build_makes inner b).operation (.register name _) rfl

theorem buildSome_makes : ∀ (e? : Option Expr) (b : Builder),
    Makes b (buildSome e? b).1.toList (buildSome e? b).2
  | none, b => Makes.nothing b
  | some e, b => build_makes e b

theorem buildAll_makes : ∀ (es : List Expr) (b : Builder),
    Makes b (buildAll es b).1 (buildAll es b).2
  | [], b => Makes.nothing b
  | e :: es, b => (build_makes e b).append (buildAll_makes es _)

end

end Expr

theorem Grammar.built_of_script {script : List Statement} {g : Grammar}
    (ok : Grammar.ofScript script = .ok g) :
    ∃ (b : Builder) (made : List Pattern), b.Built made ∧ b.grammar = .ok g := by
  have run : ∀ (b : Builder) (made : List Pattern), b.Built made →
      ∃ made', (script.foldl (fun b statement => (statement.run b).2) b).Built made' := by
    intro b made built
    clear ok
    induction script generalizing b made with
    | nil => exact ⟨made, built⟩
    | cons statement script ih =>
      cases statement with
      | setMain name => exact ih _ made (built.setMain name)
      | pattern e =>
        obtain ⟨made', built', -, -⟩ := e.build_makes b made built
        exact ih _ made' built'
  obtain ⟨made, built⟩ := run .empty [] .empty
  exact ⟨_, made, built, ok⟩

end Lockstep
