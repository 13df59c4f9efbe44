import Lockstep.Proofs.Derivation

set_option autoImplicit false

namespace Lockstep

namespace Capture

def extent : Capture → List Capture → Position
  | c, [] => c.position
  | c, d :: ds => c.position.upTo (extent d ds)

/-- The list of `items`; if there are none, the empty list at the point `anchor`. -/
def listAt (anchor : Position) : List Capture → Capture
  | [] => emptyList anchor
  | c :: cs => .list (extent c cs) (c :: cs)

theorem listAt_eq_list (anchor : Position) (items : List Capture) :
    ∃ position, listAt anchor items = .list position items := by
  cases items with
  | nil => exact ⟨_, rfl⟩
  | cons c cs => exact ⟨_, rfl⟩

end Capture

namespace Combiner

theorem cons_listAt {parts : List Capture} {head tail : Nat} {first : Capture} {anchor : Position}
    {items : List Capture} (atHead : parts[head]? = some first)
    (atTail : parts[tail]? = some (.listAt anchor items)) :
    cons head tail parts = .listAt anchor (first :: items) := by
  cases items with
  | nil =>
    rw [Capture.listAt, Capture.emptyList] at atTail
    simp only [cons, atHead, atTail]
    rfl
  | cons c cs =>
    rw [Capture.listAt] at atTail
    simp only [cons, atHead, atTail]
    rfl

/-- The parts are what the combiner looks for, so it does not fall back. -/
inductive Fits : Combiner → List Capture → Prop where
  | cons {head tail : Nat} {parts : List Capture} {first : Capture} {position : Position}
      {items : List Capture} (atHead : parts[head]? = some first)
      (atTail : parts[tail]? = some (.list position items)) :
    Fits (.cons head tail) parts
  | emptyList (first : Capture) (more : List Capture) : Fits .emptyList (first :: more)

end Combiner

namespace Matcher

def isRepeated : Matcher → Bool
  | .list _ _ _ => true
  | .tail _ _ _ => true
  | _ => false

/-- The options of a branch; any other matcher is its own only one. -/
def alternatives : Matcher → List Matcher
  | .branch options _ => options
  | m => [m]

end Matcher

namespace Grammar

/-- Any number of rounds, in each of which all of `ms` are derived. -/
inductive Rounds (g : Grammar) (ms : List Matcher) :
    Cursor → List Choices → Cursor → List (List Capture) → Prop where
  | nil {c : Cursor} : g.Rounds ms c [] c []
  | cons {c d e : Cursor} {u : Choices} {us : List Choices} {row : List Capture}
      {rows : List (List Capture)} (round : g.DerivesAll ms c u d row)
      (more : g.Rounds ms d us e rows) :
    g.Rounds ms c (u :: us) e (row :: rows)

/-- The choices of a list whose rounds make the choices `us`: the first option for each round, the
second one at the end. -/
def listChoices (us : List Choices) : Choices := us.flatMap (0 :: ·) ++ [1]

def absentCapture (anchor : Position) : Option Combiner → Capture
  | none => .empty anchor
  | some build => build [.empty anchor]

variable {g : Grammar} {c c' : Cursor} {w : Choices} {capture : Capture}

theorem derivesAll_append_iff {ms ns : List Matcher} {captures : List Capture} :
    g.DerivesAll (ms ++ ns) c w c' captures ↔
      ∃ d u v row later, w = u ++ v ∧ captures = row ++ later ∧ g.DerivesAll ms c u d row ∧
        g.DerivesAll ns d v c' later := by
  induction ms generalizing c w captures with
  | nil =>
    constructor
    · intro all
      exact ⟨c, [], w, [], captures, rfl, rfl, .nil, all⟩
    · rintro ⟨d, u, v, row, later, rfl, rfl, front, back⟩
      obtain ⟨rfl, rfl, rfl⟩ := derivesAll_nil_iff.mp front
      exact back
  | cons m ms ih =>
    constructor
    · intro all
      obtain ⟨d, u, v, first, rest, rfl, rfl, head, tail⟩ := derivesAll_cons_iff.mp all
      obtain ⟨e, u', v', row, later, rfl, rfl, front, back⟩ := ih.mp tail
      exact ⟨e, u ++ u', v', first :: row, later, (List.append_assoc u u' v').symm, rfl,
        .cons head front, back⟩
    · rintro ⟨d, u, v, row, later, rfl, rfl, front, back⟩
      obtain ⟨e, u', v', first, rest, rfl, rfl, head, tail⟩ := derivesAll_cons_iff.mp front
      rw [List.append_assoc]
      exact .cons head (ih.mpr ⟨d, v', v, rest, later, rfl, rfl, tail, back⟩)

theorem derives_absent_iff {absent? : Option Combiner} :
    g.Derives (.absent absent?) c w c' capture ↔
      w = [] ∧ c' = c ∧ capture = absentCapture c.last.endPoint absent? := by
  have nothing : ∀ w c' capture, g.Derives (.nothing []) c w c' capture ↔
      w = [] ∧ c' = c ∧ capture = c.marker := by
    intro w c' capture
    rw [derives_nothing_iff, visit_nil]
  cases absent? with
  | none => exact nothing w c' capture
  | some build =>
    rw [Matcher.absent, derives_sequence_iff, visit_nil]
    constructor
    · rintro ⟨captures, all, rfl⟩
      obtain ⟨only, rfl, derives⟩ := derivesAll_singleton_iff.mp all
      obtain ⟨rfl, rfl, rfl⟩ := (nothing _ _ _).mp derives
      exact ⟨rfl, rfl, rfl⟩
    · rintro ⟨rfl, rfl, rfl⟩
      have derives := (nothing [] c' c'.marker).mpr ⟨rfl, rfl, rfl⟩
      exact ⟨[c'.marker], derivesAll_singleton_iff.mpr ⟨_, rfl, derives⟩, rfl⟩

theorem derives_noItems_iff :
    g.Derives .noItems c w c' capture ↔
      w = [] ∧ c' = c ∧ capture = .listAt c.last.endPoint [] := by
  have same : Matcher.noItems = .absent (some .emptyList) := rfl
  rw [same]
  exact derives_absent_iff

theorem derives_either_iff {m n : Matcher} {guards : List Predicate} :
    g.Derives (.branch [m, n] guards) c w c' capture ↔
      (∃ u, w = 0 :: u ∧ g.Derives m (c.visit guards) u c' capture) ∨
        (∃ u, w = 1 :: u ∧ g.Derives n (c.visit guards) u c' capture) := by
  rw [derives_branch_iff]
  constructor
  · rintro ⟨i, m', u, option, rfl, derives⟩
    match i, option with
    | 0, option =>
      cases option
      exact .inl ⟨u, rfl, derives⟩
    | 1, option =>
      cases option
      exact .inr ⟨u, rfl, derives⟩
  · rintro (⟨u, rfl, derives⟩ | ⟨u, rfl, derives⟩)
    · exact ⟨0, m, u, rfl, rfl, derives⟩
    · exact ⟨1, n, u, rfl, rfl, derives⟩

theorem cons_round {ms : List Matcher} {n : Nat} {d : Cursor} {u : Choices} {row : List Capture}
    (length_eq : ms.length = n + 1) (round : g.DerivesAll ms c u d row) (anchor : Position)
    (items : List Capture) :
    Combiner.cons n (n + 1) (row ++ [.listAt anchor items]) =
      .listAt anchor (row.drop n ++ items) := by
  have length_row : row.length = n + 1 := (length_of_derivesAll round).trans length_eq
  have bound : n < row.length := by omega
  have item : row.drop n = [row[n]] := by
    rw [List.drop_eq_getElem_cons bound, List.drop_eq_nil_of_le (by omega)]
  have atHead : (row ++ [Capture.listAt anchor items])[n]? = some row[n] := by
    rw [List.getElem?_append_left bound, List.getElem?_eq_getElem bound]
  have atTail : (row ++ [Capture.listAt anchor items])[n + 1]? = some (.listAt anchor items) := by
    rw [← length_row, List.getElem?_concat_length]
  rw [item, Combiner.cons_listAt atHead atTail]
  rfl

section

variable {m : Matcher} {ms : List Matcher} {n : Nat} (defers : m.isDeferred = true)
  (unguarded : m.guards = []) (length_eq : ms.length = n + 1)
  (unfolds : g.unfold m =
    .ok (.branch [.sequence none (ms ++ [m]) (.cons n (n + 1)) [], .noItems] []))

include defers unguarded unfolds

theorem derives_round_iff :
    g.Derives m c w c' capture ↔
      (∃ d u v row tail, w = 0 :: (u ++ v) ∧ g.DerivesAll ms c u d row ∧ g.Derives m d v c' tail ∧
        capture = Combiner.cons n (n + 1) (row ++ [tail])) ∨
      (w = [1] ∧ c' = c ∧ capture = .listAt c.last.endPoint []) := by
  rw [derives_deferred_iff defers unfolds, unguarded, visit_nil, derives_either_iff, visit_nil]
  constructor
  · rintro (⟨u, rfl, derives⟩ | ⟨u, rfl, derives⟩)
    · obtain ⟨captures, all, rfl⟩ := derives_sequence_iff.mp derives
      rw [visit_nil] at all
      obtain ⟨d, u, v, row, later, rfl, rfl, round, rest⟩ := derivesAll_append_iff.mp all
      obtain ⟨tail, rfl, more⟩ := derivesAll_singleton_iff.mp rest
      exact .inl ⟨d, u, v, row, tail, rfl, round, more, rfl⟩
    · obtain ⟨rfl, rfl, rfl⟩ := derives_noItems_iff.mp derives
      exact .inr ⟨rfl, rfl, rfl⟩
  · rintro (⟨d, u, v, row, tail, rfl, round, more, rfl⟩ | ⟨rfl, rfl, rfl⟩)
    · have all : g.DerivesAll (ms ++ [m]) (c.visit []) (u ++ v) c' (row ++ [tail]) := by
        rw [visit_nil]
        exact derivesAll_append_iff.mpr ⟨d, u, v, row, [tail], rfl, rfl, round,
          derivesAll_singleton_iff.mpr ⟨tail, rfl, more⟩⟩
      exact .inl ⟨u ++ v, rfl, derives_sequence_iff.mpr ⟨_, all, rfl⟩⟩
    · exact .inr ⟨[], rfl, derives_noItems_iff.mpr ⟨rfl, rfl, rfl⟩⟩

include length_eq

/-- A matcher that repeats derives rounds, and yields the list of their items. -/
theorem derives_rounds_iff :
    g.Derives m c w c' capture ↔
      ∃ us rows, g.Rounds ms c us c' rows ∧ w = listChoices us ∧
        capture = .listAt c'.last.endPoint (rows.flatMap (List.drop n)) := by
  constructor
  · -- Each round makes a choice, so what follows it makes fewer.
    intro derives
    induction length : w.length using Nat.strongRecOn generalizing c w capture with
    | ind k ih =>
      rcases (derives_round_iff defers unguarded unfolds).mp derives with
        ⟨d, u, v, row, tail, rfl, round, more, rfl⟩ | ⟨rfl, rfl, rfl⟩
      · have shorter : v.length < k := by
          rw [← length, List.length_cons, List.length_append]
          omega
        obtain ⟨us, rows, rounds, rfl, rfl⟩ := ih v.length shorter more rfl
        refine ⟨u :: us, row :: rows, .cons round rounds, ?_, ?_⟩
        · simp only [listChoices, List.flatMap_cons, List.cons_append, List.append_assoc]
        · rw [cons_round length_eq round, List.flatMap_cons]
      · exact ⟨[], [], .nil, rfl, rfl⟩
  · rintro ⟨us, rows, rounds, rfl, rfl⟩
    induction rounds with
    | nil => exact (derives_round_iff defers unguarded unfolds).mpr (.inr ⟨rfl, rfl, rfl⟩)
    | @cons c d e u us row rows round more ih =>
      refine (derives_round_iff defers unguarded unfolds).mpr
        (.inl ⟨d, u, listChoices us, row, _, ?_, round, ih, ?_⟩)
      · simp only [listChoices, List.flatMap_cons, List.cons_append, List.append_assoc]
      · rw [cons_round length_eq round, List.flatMap_cons]

end

variable {p : Pattern} {guards : List Predicate}

theorem derives_optional_iff {absent? : Option Combiner} :
    g.Derives (.lower (.optional p absent? guards)) c w c' capture ↔
      (∃ u, w = 0 :: u ∧ g.Derives (.lower p) (c.visit guards) u c' capture) ∨
        (w = [1] ∧ c' = c.visit guards ∧ capture = absentCapture c.last.endPoint absent?) := by
  rw [Matcher.lower, derives_either_iff]
  refine or_congr_right ?_
  constructor
  · rintro ⟨u, rfl, derives⟩
    obtain ⟨rfl, rfl, rfl⟩ := derives_absent_iff.mp derives
    exact ⟨rfl, rfl, rfl⟩
  · rintro ⟨rfl, rfl, rfl⟩
    exact ⟨[], rfl, derives_absent_iff.mpr ⟨rfl, rfl, rfl⟩⟩

theorem derives_unguarded_iff {m n m' : Matcher} (defers : m.isDeferred = true)
    (unfolds : g.unfold m = .ok m') (defers' : n.isDeferred = true) (unfolds' : g.unfold n = .ok m')
    (unguarded : n.guards = []) :
    g.Derives m c w c' capture ↔ g.Derives n (c.visit m.guards) w c' capture := by
  rw [derives_deferred_iff defers unfolds, derives_deferred_iff defers' unfolds', unguarded,
    visit_nil]

theorem derives_items_iff {item : Matcher} :
    g.Derives (.list item none guards) c w c' capture ↔
      ∃ us rows, g.Rounds [item] (c.visit guards) us c' rows ∧ w = listChoices us ∧
        capture = .listAt c'.last.endPoint rows.flatten := by
  have inner : g.Derives (.list item none guards) c w c' capture ↔
      g.Derives (.list item none []) (c.visit guards) w c' capture :=
    derives_unguarded_iff rfl rfl rfl rfl rfl
  have rounds : g.Derives (.list item none []) (c.visit guards) w c' capture ↔
      ∃ us rows, g.Rounds [item] (c.visit guards) us c' rows ∧ w = listChoices us ∧
        capture = .listAt c'.last.endPoint (rows.flatMap (List.drop 0)) :=
    derives_rounds_iff rfl rfl rfl rfl
  have whole : List.drop 0 = (id : List Capture → List Capture) := rfl
  rw [inner, rounds, whole]
  simp only [List.flatMap_id]

theorem derives_moreItems_iff {item separator : Matcher} :
    g.Derives (.tail item (some separator) guards) c w c' capture ↔
      ∃ us rows, g.Rounds [separator, item] (c.visit guards) us c' rows ∧ w = listChoices us ∧
        capture = .listAt c'.last.endPoint (rows.flatMap (List.drop 1)) := by
  have inner : g.Derives (.tail item (some separator) guards) c w c' capture ↔
      g.Derives (.tail item (some separator) []) (c.visit guards) w c' capture :=
    derives_unguarded_iff rfl rfl rfl rfl rfl
  rw [inner]
  exact derives_rounds_iff rfl rfl rfl rfl

theorem derives_delimited_iff {item separator : Matcher} :
    g.Derives (.list item (some separator) guards) c w c' capture ↔
      ∃ d u first us rows, g.Derives item (c.visit guards) u d first ∧
        g.Rounds [separator, item] d us c' rows ∧ w = u ++ listChoices us ∧
        capture = .listAt c'.last.endPoint (first :: rows.flatMap (List.drop 1)) := by
  have outer : g.Derives (.list item (some separator) guards) c w c' capture ↔
      g.Derives (.someItems item (some separator)) (c.visit guards) w c' capture :=
    derives_deferred_iff rfl rfl
  rw [outer, Matcher.someItems, derives_sequence_iff, visit_nil]
  constructor
  · rintro ⟨captures, all, rfl⟩
    obtain ⟨d, u, v, first, later, rfl, rfl, head, rest⟩ := derivesAll_cons_iff.mp all
    obtain ⟨tail, rfl, more⟩ := derivesAll_singleton_iff.mp rest
    obtain ⟨us, rows, rounds, rfl, rfl⟩ := derives_moreItems_iff.mp more
    rw [visit_nil] at rounds
    exact ⟨d, u, first, us, rows, head, rounds, rfl, Combiner.cons_listAt rfl rfl⟩
  · rintro ⟨d, u, first, us, rows, head, rounds, rfl, rfl⟩
    rw [← visit_nil d] at rounds
    have more := derives_moreItems_iff.mpr ⟨us, rows, rounds, rfl, rfl⟩
    exact ⟨_, .cons head (derivesAll_singleton_iff.mpr ⟨_, rfl, more⟩),
      (Combiner.cons_listAt rfl rfl).symm⟩

theorem list_of_derives_repeated {m : Matcher} (repeats : m.isRepeated = true)
    (derives : g.Derives m c w c' capture) : ∃ position items, capture = .list position items := by
  have isList : ∀ anchor items, capture = .listAt anchor items →
      ∃ position items, capture = .list position items := by
    intro anchor items same
    obtain ⟨position, list⟩ := Capture.listAt_eq_list anchor items
    exact ⟨position, items, same.trans list⟩
  cases m with
  | list item separator? guards =>
    cases separator? with
    | none =>
      obtain ⟨us, rows, -, -, same⟩ := derives_items_iff.mp derives
      exact isList _ _ same
    | some separator =>
      obtain ⟨d, u, first, us, rows, -, -, -, same⟩ := derives_delimited_iff.mp derives
      exact isList _ _ same
  | tail item separator? guards =>
    cases separator? with
    | none =>
      have derives := (derives_deferred_iff rfl rfl).mp derives
      exact isList _ _ (derives_noItems_iff.mp derives).2.2
    | some separator =>
      obtain ⟨us, rows, -, -, same⟩ := derives_moreItems_iff.mp derives
      exact isList _ _ same
  | token => cases repeats
  | nothing => cases repeats
  | sequence => cases repeats
  | branch => cases repeats
  | rule => cases repeats

theorem fits_of_row {ms : List Matcher} {item m : Matcher} {n : Nat} {captures : List Capture}
    (length_eq : ms.length = n) (repeats : m.isRepeated = true)
    (all : g.DerivesAll (ms ++ [item, m]) c w c' captures) :
    (Combiner.cons n (n + 1)).Fits captures := by
  obtain ⟨d, u, v, row, later, rfl, rfl, front, back⟩ := derivesAll_append_iff.mp all
  obtain ⟨e, u', v', first, rest, rfl, rfl, head, more⟩ := derivesAll_cons_iff.mp back
  obtain ⟨tail, rfl, derives⟩ := derivesAll_singleton_iff.mp more
  obtain ⟨position, items, rfl⟩ := list_of_derives_repeated repeats derives
  have length_row : row.length = n := (length_of_derivesAll front).trans length_eq
  subst length_row
  have atHead : (row ++ [first, .list position items])[row.length]? = some first := by
    rw [List.getElem?_append_right (Nat.le_refl _), Nat.sub_self]
    rfl
  have atTail : (row ++ [first, .list position items])[row.length + 1]? =
      some (.list position items) := by
    rw [List.getElem?_append_right (Nat.le_add_right _ 1), Nat.add_sub_cancel_left]
    rfl
  exact .cons atHead atTail

/-- No sequence that a list stands for or may go on with falls back. -/
theorem fits_of_derivesAll {m m' : Matcher} {name? : Option String} {parts : List Matcher}
    {build : Combiner} {captures : List Capture} (repeats : m.isRepeated = true)
    (unfolds : g.unfold m = .ok m') (mem : .sequence name? parts build guards ∈ m'.alternatives)
    (all : g.DerivesAll parts c w c' captures) : build.Fits captures := by
  have noItems : .sequence name? parts build guards = Matcher.noItems → build.Fits captures := by
    intro same
    cases same
    obtain ⟨only, rfl, -⟩ := derivesAll_singleton_iff.mp all
    exact .emptyList only []
  cases m with
  | list item separator? guards =>
    cases separator? with
    | none =>
      cases unfolds
      rcases List.mem_cons.mp mem with same | mem
      · cases same
        exact fits_of_row List.length_nil rfl all
      · exact noItems (List.mem_singleton.mp mem)
    | some separator =>
      cases unfolds
      cases List.mem_singleton.mp mem
      exact fits_of_row List.length_nil rfl all
  | tail item separator? guards =>
    cases separator? with
    | none =>
      cases unfolds
      exact noItems (List.mem_singleton.mp mem)
    | some separator =>
      cases unfolds
      rcases List.mem_cons.mp mem with same | mem
      · cases same
        exact fits_of_row (List.length_singleton (a := separator)) rfl all
      · exact noItems (List.mem_singleton.mp mem)
  | token => cases repeats
  | nothing => cases repeats
  | sequence => cases repeats
  | branch => cases repeats
  | rule => cases repeats

/-- The derivations of an optional pattern are those of the pattern inside, and then the absent one.
Those of a list are the runs of derivations of its item, and those of a list with separators are the
runs with a separator between any two items; both yield the list of the items. Nothing that a list
is lowered to falls back. -/
theorem lowering_keeps_meaning (g : Grammar) (p s : Pattern) (guards : List Predicate) :
    (∀ c w c' capture, g.Derives (.lower (.optional p none guards)) c w c' capture ↔
      (∃ u, w = 0 :: u ∧ g.Derives (.lower p) (c.visit guards) u c' capture) ∨
        (w = [1] ∧ c' = c.visit guards ∧ capture = .empty c.last.endPoint)) ∧
    (∀ absent c w c' capture,
      g.Derives (.lower (.optional p (some absent) guards)) c w c' capture ↔
        (∃ u, w = 0 :: u ∧ g.Derives (.lower p) (c.visit guards) u c' capture) ∨
          (w = [1] ∧ c' = c.visit guards ∧ capture = absent [.empty c.last.endPoint])) ∧
    (∀ c w c' capture, g.Derives (.lower (.list p none guards)) c w c' capture ↔
      ∃ us rows, g.Rounds [.lower p] (c.visit guards) us c' rows ∧ w = listChoices us ∧
        capture = .listAt c'.last.endPoint rows.flatten) ∧
    (∀ c w c' capture, g.Derives (.lower (.list p (some s) guards)) c w c' capture ↔
      ∃ d u first us rows, g.Derives (.lower p) (c.visit guards) u d first ∧
        g.Rounds [.lower s, .lower p] d us c' rows ∧ w = u ++ listChoices us ∧
        capture = .listAt c'.last.endPoint (first :: rows.flatMap (List.drop 1))) ∧
    (∀ m m', m.isRepeated = true → g.unfold m = .ok m' →
      ∀ name? parts build guards, .sequence name? parts build guards ∈ m'.alternatives →
        ∀ c w c' captures, g.DerivesAll parts c w c' captures → build.Fits captures) := by
  refine ⟨?_, ?_, ?_, ?_, ?_⟩
  · intro c w c' capture
    exact derives_optional_iff
  · intro absent c w c' capture
    exact derives_optional_iff
  · intro c w c' capture
    rw [Matcher.lower, Matcher.lowerSome]
    exact derives_items_iff
  · intro c w c' capture
    rw [Matcher.lower, Matcher.lowerSome]
    exact derives_delimited_iff
  · intro m m' repeats unfolds name? parts build guards mem c w c' captures all
    exact fits_of_derivesAll repeats unfolds mem all

end Grammar

end Lockstep
