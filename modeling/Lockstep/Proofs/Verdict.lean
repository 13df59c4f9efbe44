import Lockstep.Proofs.Built
import Mathlib.Data.List.Induction
import Mathlib.Data.Set.Card

set_option autoImplicit false

/-!
What a builder answers in the end is told from the calls on it alone. The calls are read from the
first to the last: which names they register and refer to, which start they choose, and what is wrong
with each of them, by itself or because of those before it.
-/

namespace Lockstep

namespace Builder

inductive Call where
  | operation (op : Operation)
  | setMain (name : String)

namespace Operation

def registers? : Operation → Option String
  | .namedSequence name _ _ => some name
  | .define name _ => some name
  | .register name _ => some name
  | _ => none

def refers? : Operation → Option String
  | .reference name => some name
  | _ => none

def keyword? : Operation → Option String
  | .keyword word => some word
  | _ => none

def flaw? : Operation → Option GrammarError
  | .operator text => if text.toList = [] then some (.emptySequence none) else none
  | .sequence _ [] => some (.emptySequence none)
  | .namedSequence name _ [] => some (.emptySequence (some name))
  | .oneOf [] => some .emptyChoice
  | _ => none

end Operation

namespace Call

def of? {α : Type} (f : Operation → Option α) : Call → Option α
  | .operation op => f op
  | .setMain _ => none

def chooses? : Call → Option String
  | .operation _ => none
  | .setMain name => some name

def after (b : Builder) : Call → Builder
  | .operation op => (op.run b).2
  | .setMain name => b.setMain name

def registration? (b : Builder) : Call → Option (String × Pattern)
  | .operation op => op.registers?.map fun name => (name, (op.run b).1)
  | .setMain _ => none

/-- The defects of the call, the names `earlier` being registered before. -/
def defects (earlier : List String) (c : Call) : List GrammarError :=
  (c.of? Operation.flaw?).toList ++
    ((c.of? Operation.registers?).toList.filter (· ∈ earlier)).map .redefinition

end Call

def after (b : Builder) (calls : List Call) : Builder := calls.foldl Call.after b

def registered (calls : List Call) : List String := calls.filterMap (Call.of? Operation.registers?)

def references (calls : List Call) : List String := calls.filterMap (Call.of? Operation.refers?)

def chosen? (calls : List Call) : Option String := (calls.filterMap Call.chooses?).getLast?

def defectsAfter (earlier : List Call) : List Call → List GrammarError
  | [] => []
  | c :: cs => c.defects (registered earlier) ++ defectsAfter (earlier ++ [c]) cs

def registrations (b : Builder) : List Call → List (String × Pattern)
  | [] => []
  | c :: cs => (c.registration? b).toList ++ registrations (c.after b) cs

structure Describes (calls : List Call) (g : Grammar) : Prop where
  lookup_eq : ∀ name, g.lookup? name = (registrations .empty calls).lookup name
  main_eq : g.mainPattern? = (after .empty calls).mainPattern?
  main_chosen : g.mainPattern? = g.lookup? ((chosen? calls).getD "main")
  main_known : ∀ name, g.main? = some name → name ∈ registered calls
  mem_keywords_iff : ∀ word, word ∈ g.keywords ↔ Call.operation (.keyword word) ∈ calls
  keywords_nodup : g.keywords.Nodup
  size_eq : g.size = {name | name ∈ registered calls}.ncard

inductive Verdict (calls : List Call) : Except GrammarError Grammar → Prop where
  | defect {e : GrammarError} (first : (defectsAfter [] calls).head? = some e) :
    Verdict calls (.error e)
  | undefined {before after : List String} {name : String} (sound : defectsAfter [] calls = [])
      (split : references calls = before ++ name :: after)
      (known : ∀ other ∈ before, other ∈ registered calls) (unknown : name ∉ registered calls) :
    Verdict calls (.error (.undefinedRule name))
  | unknownMain {name : String} (sound : defectsAfter [] calls = [])
      (known : ∀ other ∈ references calls, other ∈ registered calls)
      (last : chosen? calls = some name) (unknown : name ∉ registered calls) :
    Verdict calls (.error (.unknownMain name))
  | grammar {g : Grammar} (sound : defectsAfter [] calls = [])
      (known : ∀ other ∈ references calls, other ∈ registered calls)
      (start : ∀ name, chosen? calls = some name → name ∈ registered calls)
      (describes : Describes calls g) :
    Verdict calls (.ok g)

section Effect

structure Effect (b : Builder) (c : Call) : Prop where
  defects_eq : (c.after b).defects = b.defects ++ c.defects (b.rules.map Prod.fst)
  referenced_eq : (c.after b).referenced = b.referenced ++ (c.of? Operation.refers?).toList
  main_eq : (c.after b).main? = c.chooses?.or b.main?
  keywords_eq : (c.after b).keywords =
    b.keywords ++ (c.of? Operation.keyword?).toList.filter (· ∉ b.keywords)
  rules_eq : (c.after b).rules =
    b.rules ++ (c.registration? b).toList.filter (·.1 ∉ b.rules.map Prod.fst)

variable {b b' : Builder} {op : Operation} {name : String} {p : Pattern} (mark : Nat)

theorem effect_of_flaw (plain : op.registers? = none ∧ op.refers? = none ∧ op.keyword? = none)
    (same : (op.run b).2 = { b with defects := b.defects ++ op.flaw?.toList, nextMark := mark }) :
    Effect b (.operation op) := by
  obtain ⟨registers, refers, keyword⟩ := plain
  constructor
  · simp [Call.after, Call.defects, Call.of?, same, registers]
  · simp [Call.after, Call.of?, same, refers]
  · simp [Call.after, Call.chooses?, same]
  · simp [Call.after, Call.of?, same, keyword]
  · simp [Call.after, Call.registration?, same, registers]

theorem lookup_isSome_iff (rules : List (String × Pattern)) (name : String) :
    (rules.lookup name).isSome = true ↔ name ∈ rules.map Prod.fst := by
  simp [List.lookup_isSome_iff]

theorem mention_changes (b : Builder) (name : String) :
    ∃ names, b.mention name = { b with names } := by
  unfold mention
  split
  · exact ⟨b.names, rfl⟩
  · exact ⟨b.names ++ [name], rfl⟩

theorem effect_of_register (plain : op.refers? = none ∧ op.keyword? = none)
    (registers : op.registers? = some name)
    (prior : b' = { b with defects := b.defects ++ op.flaw?.toList, nextMark := mark })
    (run : op.run b = b'.register name p) : Effect b (.operation op) := by
  obtain ⟨refers, keyword⟩ := plain
  subst prior
  have made : (op.run b).1 = p := congrArg Prod.fst run
  obtain ⟨names, mentioned⟩ := mention_changes
    { b with defects := b.defects ++ op.flaw?.toList, nextMark := mark } name
  have left := congrArg Prod.snd run
  simp only [Builder.register, mentioned, lookup?] at left
  by_cases known : name ∈ b.rules.map Prod.fst
  · rw [if_pos ((lookup_isSome_iff b.rules name).mpr known)] at left
    constructor
    · simp [Call.after, Call.defects, Call.of?, left, registers, known, defect]
    · simp [Call.after, Call.of?, left, refers, defect]
    · simp [Call.after, Call.chooses?, left, defect]
    · simp [Call.after, Call.of?, left, keyword, defect]
    · simp [Call.after, Call.registration?, left, registers, known, defect]
  · rw [if_neg fun found => known ((lookup_isSome_iff b.rules name).mp found)] at left
    constructor
    · simp [Call.after, Call.defects, Call.of?, left, registers, known]
    · simp [Call.after, Call.of?, left, refers]
    · simp [Call.after, Call.chooses?, left]
    · simp [Call.after, Call.of?, left, keyword]
    · simp [Call.after, Call.registration?, left, registers, known, made]

theorem sequence_eq (b : Builder) (name? : Option String) (build : Combiner) (parts : List Pattern) :
    ∃ mark, (b.sequence name? build parts).2 =
      { b with
        defects := b.defects ++ if parts = [] then [.emptySequence name?] else []
        nextMark := mark } := by
  unfold Builder.sequence
  cases parts with
  | nil => exact ⟨b.nextMark, rfl⟩
  | cons _ _ => exact ⟨b.nextMark + 1, by simp⟩

theorem effect_of_quiet (plain : op.registers? = none ∧ op.refers? = none ∧ op.keyword? = none)
    (sound : op.flaw? = none) (same : (op.run b).2 = { b with nextMark := mark }) :
    Effect b (.operation op) := by
  refine effect_of_flaw mark plain ?_
  rw [same, sound, Option.toList_none, List.append_nil]

theorem operation_effect (b : Builder) (op : Operation) : Effect b (.operation op) := by
  cases op with
  | token spec => exact effect_of_quiet b.nextMark ⟨rfl, rfl, rfl⟩ rfl rfl
  | nothing => exact effect_of_quiet b.nextMark ⟨rfl, rfl, rfl⟩ rfl rfl
  | optional inner absent? => exact effect_of_quiet b.nextMark ⟨rfl, rfl, rfl⟩ rfl rfl
  | list item separator? => exact effect_of_quiet b.nextMark ⟨rfl, rfl, rfl⟩ rfl rfl
  | guarded pattern guard =>
    exact effect_of_quiet (b.nextMark + 1) ⟨rfl, rfl, rfl⟩ rfl rfl
  | keyword word =>
    have left : ((Operation.keyword word).run b).2 =
        { b with keywords := b.keywords ++ [word].filter (· ∉ b.keywords) } := by
      simp only [Operation.run, Builder.keyword]
      split <;> simp_all
    constructor
    all_goals simp only [Call.after, left]
    · simp [Call.defects, Call.of?, Operation.registers?, Operation.flaw?]
    · simp [Call.of?, Operation.refers?]
    · rfl
    · rfl
    · simp [Call.registration?, Operation.registers?]
  | operator text =>
    have flaw : (Operation.operator text).flaw? =
        if text.toList = [] then some (.emptySequence none) else none := rfl
    rcases chars : text.toList with _ | ⟨c, _ | ⟨c', cs⟩⟩
    · refine effect_of_flaw b.nextMark ⟨rfl, rfl, rfl⟩ ?_
      simp only [Operation.run, Builder.operator, chars, flaw]
      rfl
    · refine effect_of_quiet b.nextMark ⟨rfl, rfl, rfl⟩ ?_ ?_
      · simp only [flaw, chars, reduceCtorEq, ↓reduceIte]
      · simp only [Operation.run, Builder.operator, chars]
    · refine effect_of_quiet (b.nextMark + 1) ⟨rfl, rfl, rfl⟩ ?_ ?_
      · simp only [flaw, chars, reduceCtorEq, ↓reduceIte]
      · simp only [Operation.run, Builder.operator, chars]
        rfl
  | sequence build parts =>
    obtain ⟨mark, same⟩ := sequence_eq b none build parts
    refine effect_of_flaw mark ⟨rfl, rfl, rfl⟩ (same.trans ?_)
    cases parts <;> rfl
  | namedSequence name build parts =>
    obtain ⟨mark, same⟩ := sequence_eq b (some name) build parts
    refine effect_of_register mark ⟨rfl, rfl⟩ rfl (same.trans ?_) rfl
    cases parts <;> rfl
  | oneOf options =>
    refine effect_of_flaw b.nextMark ⟨rfl, rfl, rfl⟩ ?_
    cases options with
    | nil => rfl
    | cons _ _ => simp [Operation.run, Builder.oneOf, Operation.flaw?]
  | reference name =>
    obtain ⟨names, mentioned⟩ := mention_changes b name
    have left : ((Operation.reference name).run b).2 =
        { b with names, referenced := b.referenced ++ [name] } := by
      simp only [Operation.run, Builder.reference, mentioned]
    constructor
    all_goals simp only [Call.after, left]
    · simp [Call.defects, Call.of?, Operation.registers?, Operation.flaw?]
    · rfl
    · rfl
    · simp [Call.of?, Operation.keyword?]
    · simp [Call.registration?, Operation.registers?]
  | define name pattern =>
    obtain ⟨mark, same⟩ := named_eq b name pattern
    refine effect_of_register mark ⟨rfl, rfl⟩ rfl (same.trans ?_) rfl
    simp [Operation.flaw?]
  | register name pattern =>
    refine effect_of_register b.nextMark ⟨rfl, rfl⟩ rfl ?_ rfl
    simp [Operation.flaw?]

/-- Each call adds to what the builder has recorded, and takes nothing away. -/
theorem call_effect (b : Builder) (c : Call) : Effect b c := by
  cases c with
  | operation op => exact operation_effect b op
  | setMain name =>
    obtain ⟨names, mentioned⟩ := mention_changes b name
    have left : b.setMain name = { b with names, main? := some name } := by
      simp only [setMain, mentioned]
    constructor
    all_goals simp only [Call.after, left]
    · simp [Call.defects, Call.of?]
    · simp [Call.of?]
    · rfl
    · simp [Call.of?]
    · simp [Call.registration?]

end Effect

section Records

structure Records (b : Builder) (calls : List Call) : Prop where
  defects_eq : b.defects = defectsAfter [] calls
  referenced_eq : b.referenced = references calls
  main_eq : b.main? = chosen? calls
  mem_keywords_iff : ∀ word, word ∈ b.keywords ↔ Call.operation (.keyword word) ∈ calls
  keywords_nodup : b.keywords.Nodup
  mem_names_iff : ∀ name, name ∈ b.rules.map Prod.fst ↔ name ∈ registered calls
  names_nodup : (b.rules.map Prod.fst).Nodup
  lookup_eq : ∀ name, b.lookup? name = (registrations .empty calls).lookup name

theorem after_append (b : Builder) (calls later : List Call) :
    b.after (calls ++ later) = (b.after calls).after later :=
  List.foldl_append

theorem defectsAfter_append (earlier calls later : List Call) :
    defectsAfter earlier (calls ++ later) =
      defectsAfter earlier calls ++ defectsAfter (earlier ++ calls) later := by
  induction calls generalizing earlier with
  | nil => simp [defectsAfter]
  | cons c calls ih => simp [defectsAfter, ih]

theorem registrations_append (b : Builder) (calls later : List Call) :
    registrations b (calls ++ later) =
      registrations b calls ++ registrations (b.after calls) later := by
  induction calls generalizing b with
  | nil => rfl
  | cons c calls ih => simp [registrations, ih, after]

theorem filterMap_concat {α β : Type} (f : α → Option β) (xs : List α) (x : α) :
    (xs ++ [x]).filterMap f = xs.filterMap f ++ (f x).toList := by
  rw [List.filterMap_append]
  cases found : f x <;> simp [found]

/-- Of the names registered before, it matters only which they are. -/
theorem Call.defects_congr {earlier earlier' : List String}
    (same : ∀ name, name ∈ earlier ↔ name ∈ earlier') (c : Call) :
    c.defects earlier = c.defects earlier' := by
  simp only [Call.defects, same]

theorem Call.registration_names (c : Call) (b : Builder) :
    (c.registration? b).map Prod.fst = c.of? Operation.registers? := by
  cases c with
  | operation op => cases found : op.registers? <;> simp [registration?, of?, found]
  | setMain name => rfl

theorem mem_add_iff {xs : List String} {new? : Option String} {x : String} :
    x ∈ xs ++ new?.toList.filter (· ∉ xs) ↔ x ∈ xs ∨ new? = some x := by
  by_cases old : x ∈ xs <;> simp [old]

theorem nodup_add {xs : List String} (nodup : xs.Nodup) (new? : Option String) :
    (xs ++ new?.toList.filter (· ∉ xs)).Nodup := by
  refine List.nodup_append.mpr ⟨nodup, ?_, ?_⟩
  · cases new? with
    | none => exact List.nodup_nil
    | some x => exact (List.nodup_singleton x).filter _
  · intro x old y new
    have fresh : y ∉ xs := of_decide_eq_true (List.mem_filter.mp new).2
    rintro rfl
    exact fresh old

/-- A name that is taken is never looked up under its second pattern. -/
theorem lookup_add (rules : List (String × Pattern)) (new? : Option (String × Pattern))
    (name : String) :
    (rules ++ new?.toList.filter (·.1 ∉ rules.map Prod.fst)).lookup name =
      (rules ++ new?.toList).lookup name := by
  cases new? with
  | none => rfl
  | some new =>
    obtain ⟨own, p⟩ := new
    by_cases known : own ∈ rules.map Prod.fst
    · have found := (lookup_isSome_iff rules own).mpr known
      have hidden : (rules ++ [(own, p)]).lookup name = rules.lookup name := by
        rw [List.lookup_append]
        by_cases same : name = own
        · rw [same]
          exact Option.or_of_isSome found
        · rw [List.lookup_cons, beq_false_of_ne same]
          exact Option.or_none
      rw [Option.toList_some, List.filter_cons_of_neg (by simpa using known), List.filter_nil,
        List.append_nil, hidden]
    · rw [Option.toList_some, List.filter_cons_of_pos (by simpa using known), List.filter_nil]

theorem Effect.names_eq {b : Builder} {c : Call} (h : Effect b c) :
    (c.after b).rules.map Prod.fst = b.rules.map Prod.fst ++
      (c.of? Operation.registers?).toList.filter (· ∉ b.rules.map Prod.fst) := by
  rw [h.rules_eq, List.map_append, ← c.registration_names b]
  cases c.registration? b with
  | none => rfl
  | some new =>
    have moved := List.filter_map (f := Prod.fst) (p := (· ∉ b.rules.map Prod.fst)) (l := [new])
    exact congrArg (b.rules.map Prod.fst ++ ·) moved.symm

theorem Call.of_keyword_eq_some_iff {c : Call} {word : String} :
    c.of? Operation.keyword? = some word ↔ c = .operation (.keyword word) := by
  cases c with
  | operation op => cases op <;> simp [of?, Operation.keyword?]
  | setMain name => simp [of?]

theorem records_after (calls : List Call) : Records (after .empty calls) calls := by
  induction calls using List.reverseRecOn with
  | nil =>
    constructor
    · rfl
    · rfl
    · rfl
    · simp [after, empty]
    · exact List.nodup_nil
    · simp [after, empty, registered]
    · exact List.nodup_nil
    · exact fun _ => rfl
  | append_singleton calls c ih =>
    have effect := call_effect (after .empty calls) c
    rw [after_append, show (after .empty calls).after [c] = c.after (after .empty calls) from rfl]
    constructor
    · rw [effect.defects_eq, ih.defects_eq, defectsAfter_append, c.defects_congr ih.mem_names_iff]
      simp [defectsAfter]
    · rw [effect.referenced_eq, ih.referenced_eq]
      exact (filterMap_concat _ calls c).symm
    · rw [effect.main_eq, ih.main_eq, chosen?, chosen?, filterMap_concat, List.getLast?_append]
      cases c.chooses? <;> rfl
    · intro word
      rw [effect.keywords_eq, mem_add_iff, ih.mem_keywords_iff, Call.of_keyword_eq_some_iff]
      simp [eq_comm]
    · rw [effect.keywords_eq]
      exact nodup_add ih.keywords_nodup _
    · intro name
      rw [effect.names_eq, mem_add_iff, ih.mem_names_iff, registered, registered, filterMap_concat]
      simp
    · rw [effect.names_eq]
      exact nodup_add ih.names_nodup _
    · intro name
      have before := ih.lookup_eq name
      rw [lookup?] at before
      rw [lookup?, effect.rules_eq, lookup_add, List.lookup_append, before, registrations_append,
        List.lookup_append]
      simp [registrations]

end Records

section Answer

variable {b : Builder} {calls : List Call}

theorem lookup_isSome_iff_registered (records : Records b calls) (name : String) :
    (b.lookup? name).isSome = true ↔ name ∈ registered calls :=
  (lookup_isSome_iff b.rules name).trans (records.mem_names_iff name)

theorem describes_of_records {main? : Option String} (records : Records (after .empty calls) calls)
    (known : ∀ name, main? = some name → name ∈ registered calls)
    (chosen : main?.bind (after .empty calls).lookup? = (after .empty calls).mainPattern?) :
    Describes calls ⟨(after .empty calls).names, (after .empty calls).rules,
      (after .empty calls).keywords, main?⟩ := by
  constructor
  · exact records.lookup_eq
  · exact chosen
  · rw [← records.main_eq]
    exact chosen
  · exact known
  · exact records.mem_keywords_iff
  · exact records.keywords_nodup
  · -- The rules have names of their own, so there are as many of them as names.
    have names : {name | name ∈ registered calls} =
        ↑((after .empty calls).rules.map Prod.fst).toFinset := by
      ext name
      simp only [Set.mem_ofPred_eq, Finset.mem_coe, List.mem_toFinset]
      exact (records.mem_names_iff name).symm
    rw [names, Set.ncard_coe_finset, List.toFinset_card_of_nodup records.names_nodup,
      List.length_map]
    rfl

theorem verdict (calls : List Call) : Verdict calls (after .empty calls).grammar := by
  have records := records_after calls
  have registered_iff := lookup_isSome_iff_registered records
  have isNone_iff : ∀ name, ((after .empty calls).lookup? name).isNone = true ↔
      name ∉ registered calls := by
    intro name
    rw [← registered_iff, Bool.not_eq_true, Option.isSome_eq_false_iff]
  unfold grammar
  -- The cases are those that the builder itself goes through, in the same order.
  cases defects : (after .empty calls).defects with
  | cons e es =>
    rw [records.defects_eq] at defects
    exact .defect (by rw [defects]; rfl)
  | nil =>
    rw [records.defects_eq] at defects
    rw [records.referenced_eq]
    cases missing : (references calls).find? fun name =>
      ((after .empty calls).lookup? name).isNone with
    | some name =>
      obtain ⟨unknown, before, later, split, known⟩ := List.find?_eq_some_iff_append.mp missing
      refine .undefined defects split ?_ ((isNone_iff name).mp unknown)
      intro other mem
      have found := known other mem
      rw [Option.not_isNone] at found
      exact (registered_iff other).mp found
    | none =>
      have known : ∀ other ∈ references calls, other ∈ registered calls := by
        intro other mem
        have found := List.find?_eq_none.mp missing other mem
        rwa [isNone_iff, not_not] at found
      cases chosen : (after .empty calls).main? with
      | some name =>
        have last : chosen? calls = some name := records.main_eq ▸ chosen
        by_cases found : ((after .empty calls).lookup? name).isSome = true
        · simp only [found, ↓reduceIte]
          have start := (registered_iff name).mp found
          refine .grammar defects known ?_ (describes_of_records records ?_ ?_)
          · intro other same
            cases last.symm.trans same
            exact start
          · rintro other ⟨⟩
            exact start
          · rw [mainPattern?, chosen]
            rfl
        · simp only [found]
          exact .unknownMain defects known last fun mem => found ((registered_iff name).mpr mem)
      | none =>
        have last : chosen? calls = none := records.main_eq ▸ chosen
        refine .grammar defects known ?_ (describes_of_records records ?_ ?_)
        · intro other same
          cases last.symm.trans same
        · intro other same
          obtain ⟨p, found, rfl⟩ := Option.map_eq_some_iff.mp same
          exact (registered_iff defaultMain).mp (Option.isSome_of_eq_some found)
        · rw [mainPattern?, chosen, Option.getD_none]
          cases found : (after .empty calls).lookup? defaultMain with
          | none => rfl
          | some p => exact found

end Answer

def guardCalls (b : Builder) (p : Pattern) : List Predicate → List Call
  | [] => []
  | guard :: guards =>
    .operation (.guarded p guard) ::
      guardCalls (b.guarded p guard).2 (b.guarded p guard).1 guards

end Builder

section Scripts

open Builder (Call guardCalls after after_append)

namespace Expr

mutual

/-- The calls on `b` that build the expression: what stands inside it comes first. -/
def calls (b : Builder) : Expr → List Call
  | .token spec => [.operation (.token spec)]
  | .keyword word => [.operation (.keyword word)]
  | .operator text => [.operation (.operator text)]
  | .nothing => [.operation .nothing]
  | .optional inner absent? => calls b inner ++ [.operation (.optional (inner.build b).1 absent?)]
  | .list item separator? =>
    calls b item ++ (callsSome (item.build b).2 separator? ++
      [.operation (.list (item.build b).1 (buildSome separator? (item.build b).2).1)])
  | .sequence build parts => callsAll b parts ++ [.operation (.sequence build (buildAll parts b).1)]
  | .namedSequence name build parts =>
    callsAll b parts ++ [.operation (.namedSequence name build (buildAll parts b).1)]
  | .oneOf options => callsAll b options ++ [.operation (.oneOf (buildAll options b).1)]
  | .reference name => [.operation (.reference name)]
  | .guarded inner guards =>
    calls b inner ++ guardCalls (inner.build b).2 (inner.build b).1 guards
  | .define name inner => calls b inner ++ [.operation (.define name (inner.build b).1)]
  | .register name inner => calls b inner ++ [.operation (.register name (inner.build b).1)]

def callsSome (b : Builder) : Option Expr → List Call
  | none => []
  | some e => calls b e

def callsAll (b : Builder) : List Expr → List Call
  | [] => []
  | e :: es => calls b e ++ callsAll (e.build b).2 es

end

theorem after_guardCalls (guards : List Predicate) (p : Pattern) (b : Builder) :
    b.after (guardCalls b p guards) =
      (guards.foldl (fun (p, b) guard => b.guarded p guard) (p, b)).2 := by
  induction guards generalizing p b with
  | nil => rfl
  | cons guard guards ih => exact ih _ _

mutual

theorem after_calls : ∀ (e : Expr) (b : Builder), b.after (e.calls b) = (e.build b).2
  | .token _, _ => rfl
  | .keyword _, _ => rfl
  | .operator _, _ => rfl
  | .nothing, _ => rfl
  | .optional inner _, b => by
    rw [calls, after_append, after_calls inner b]
    rfl
  | .list item separator?, b => by
    rw [calls, after_append, after_append, after_calls item b, after_callsSome separator? _]
    rfl
  | .sequence _ parts, b => by
    rw [calls, after_append, after_callsAll parts b]
    rfl
  | .namedSequence _ _ parts, b => by
    rw [calls, after_append, after_callsAll parts b]
    rfl
  | .oneOf options, b => by
    rw [calls, after_append, after_callsAll options b]
    rfl
  | .reference _, _ => rfl
  | .guarded inner guards, b => by
    rw [calls, after_append, after_calls inner b]
    exact after_guardCalls guards _ _
  | .define _ inner, b => by
    rw [calls, after_append, after_calls inner b]
    rfl
  | .register _ inner, b => by
    rw [calls, after_append, after_calls inner b]
    rfl

theorem after_callsSome : ∀ (e? : Option Expr) (b : Builder),
    b.after (callsSome b e?) = (buildSome e? b).2
  | none, _ => rfl
  | some e, b => after_calls e b

theorem after_callsAll : ∀ (es : List Expr) (b : Builder),
    b.after (callsAll b es) = (buildAll es b).2
  | [], _ => rfl
  | e :: es, b => by
    rw [callsAll, after_append, after_calls e b, after_callsAll es _]
    rfl

end

end Expr

namespace Statement

def calls (b : Builder) : List Statement → List Call
  | [] => []
  | .setMain name :: script => .setMain name :: calls (b.setMain name) script
  | .pattern e :: script => e.calls b ++ calls (e.build b).2 script

theorem after_calls (script : List Statement) (b : Builder) :
    b.after (calls b script) = script.foldl (fun b statement => (statement.run b).2) b := by
  induction script generalizing b with
  | nil => rfl
  | cons statement script ih =>
    cases statement with
    | setMain name => exact ih _
    | pattern e =>
      rw [calls, after_append, e.after_calls b]
      exact ih _

end Statement

/-- The calls alone, however they are nested, decide whether there is a grammar and what is in it. -/
theorem Grammar.told_from_calls :
    (∀ calls : List Call, Builder.Verdict calls (after .empty calls).grammar) ∧
      ∀ script : List Statement,
        Builder.Verdict (Statement.calls .empty script) (Grammar.ofScript script) := by
  refine ⟨Builder.verdict, fun script => ?_⟩
  rw [Grammar.ofScript, ← Statement.after_calls]
  exact Builder.verdict _

/-- The empty choice is made before the rule that holds it repeats a name, and that `other` is no rule
matters only where nothing else is wrong. -/
example : Grammar.ofScript [.pattern (.reference "other"), .pattern (.define "main" .nothing),
    .pattern (.define "main" (.oneOf []))] = .error .emptyChoice := by
  rfl

end Scripts

end Lockstep
