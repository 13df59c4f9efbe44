import Lockstep.Proofs.Lines

set_option autoImplicit false

namespace Lockstep

/-- A line, and the terminator behind it; the last line of a text has none. -/
structure Line where
  chars : List Char
  terminator : List Char

namespace Line

def whole (line : Line) : List Char := line.chars ++ line.terminator

def joined (lines : List Line) : List Char := lines.flatMap whole

end Line

def IsPlain (cs : List Char) : Prop := ∀ c ∈ cs, LineTable.isTerminator c = false

inductive Lined : List Char → List Line → Prop where
  | last {chars : List Char} (plain : IsPlain chars) : Lined chars [⟨chars, []⟩]
  | more {chars terminator rest : List Char} {lines : List Line} (plain : IsPlain chars)
      (ends : Terminates chars terminator rest) (later : Lined rest lines) :
    Lined (chars ++ (terminator ++ rest)) (⟨chars, terminator⟩ :: lines)

section

variable {cs chars front terminator rest body : List Char} {lines : List Line} {line : Line}
  {c : Char} {n o : Nat}

theorem isTerminator_eq_false_iff : LineTable.isTerminator c = false ↔ c ≠ '\n' ∧ c ≠ '\r' := by
  simp [LineTable.isTerminator]

theorem isPlain_nil : IsPlain [] := fun _ mem => absurd mem List.not_mem_nil

theorem isPlain_cons_iff : IsPlain (c :: cs) ↔ LineTable.isTerminator c = false ∧ IsPlain cs :=
  List.forall_mem_cons

theorem IsPlain.getLast?_ne (plain : IsPlain chars) : chars.getLast? ≠ some '\r' := by
  intro last
  exact absurd (plain '\r' (List.mem_of_getLast? last)) (by decide)

theorem Terminates.isTerminator (h : Terminates front terminator rest) :
    ∀ c ∈ terminator, LineTable.isTerminator c = true := by
  cases h <;> simp [LineTable.isTerminator]

theorem Lined.cons (h : Lined cs lines) (inside : LineTable.isTerminator c = false) :
    ∃ lines, Lined (c :: cs) lines := by
  cases h with
  | last plain => exact ⟨_, .last (isPlain_cons_iff.mpr ⟨inside, plain⟩)⟩
  | @more chars terminator rest lines plain ends later =>
    have longer : IsPlain (c :: chars) := isPlain_cons_iff.mpr ⟨inside, plain⟩
    have ends' : Terminates (c :: chars) terminator rest := by
      cases ends with
      | feed alone => exact .feed longer.getLast?_ne
      | pair => exact .pair
      | carriage alone => exact .carriage alone
    exact ⟨_, .more longer ends' later⟩

theorem exists_lined (cs : List Char) : ∃ lines, Lined cs lines := by
  fun_induction LineTable.startsAfter 0 cs with
  | case1 => exact ⟨_, .last isPlain_nil⟩
  | case2 o cs ih =>
    obtain ⟨lines, lined⟩ := ih
    exact ⟨_, .more isPlain_nil .pair lined⟩
  | case3 o c cs alone ends ih =>
    obtain ⟨lines, lined⟩ := ih
    have terminates : Terminates [] [c] cs := by
      rcases ends with rfl | rfl
      · exact .feed (by simp)
      · refine .carriage fun first => ?_
        obtain ⟨rest, rfl⟩ := List.head?_eq_some_iff.mp first
        exact alone rest rfl rfl
    exact ⟨_, .more isPlain_nil terminates lined⟩
  | case4 o c cs alone goes ih =>
    obtain ⟨lines, lined⟩ := ih
    exact lined.cons (isTerminator_eq_false_iff.mpr (not_or.mp goes))

theorem startsAfter_plain (plain : IsPlain chars) (o : Nat) (rest : List Char) :
    LineTable.startsAfter o (chars ++ rest) =
      LineTable.startsAfter (o + Bytes.length chars) rest := by
  induction chars generalizing o with
  | nil => rfl
  | cons c chars ih =>
    obtain ⟨inside, later⟩ := isPlain_cons_iff.mp plain
    obtain ⟨notFeed, notReturn⟩ := isTerminator_eq_false_iff.mp inside
    rw [List.cons_append, LineTable.startsAfter.eq_3 _ _ _ fun _ same => absurd same notReturn,
      if_neg (by simp [notFeed, notReturn]), ih later, Bytes.length, Nat.add_assoc]

theorem startsAfter_terminator (h : Terminates front terminator rest) (o : Nat) :
    LineTable.startsAfter o (terminator ++ rest) =
      (o + Bytes.length terminator) ::
        LineTable.startsAfter (o + Bytes.length terminator) rest := by
  cases h with
  | feed => rfl
  | pair => rfl
  | carriage alone =>
    have apart : ∀ cs, '\r' = '\r' → rest = '\n' :: cs → False := by
      rintro cs - rfl
      exact alone rfl
    rw [List.singleton_append, LineTable.startsAfter.eq_3 _ _ _ apart, if_pos (.inr rfl)]
    rfl

theorem startsAfter_of_plain (plain : IsPlain chars) (o : Nat) :
    LineTable.startsAfter o chars = [] := by
  have whole := startsAfter_plain plain o []
  rw [List.append_nil] at whole
  exact whole

theorem Lined.length_eq (h : Lined cs lines) (o : Nat) :
    lines.length = (LineTable.startsAfter o cs).length + 1 := by
  induction h generalizing o with
  | last plain =>
    rw [startsAfter_of_plain plain]
    rfl
  | more plain ends later ih =>
    rw [startsAfter_plain plain, startsAfter_terminator ends, List.length_cons, List.length_cons,
      ← ih]

theorem Lined.starts (h : Lined cs lines) (o n : Nat) :
    (o :: LineTable.startsAfter o cs)[n]? =
      if n < lines.length then some (o + Bytes.length (Line.joined (lines.take n))) else none := by
  induction h generalizing o n with
  | @last chars plain =>
    rw [startsAfter_of_plain plain]
    cases n <;> rfl
  | @more chars terminator rest lines plain ends later ih =>
    cases n with
    | zero => rfl
    | succ n =>
      rw [List.getElem?_cons_succ, startsAfter_plain plain, startsAfter_terminator ends, ih]
      simp only [List.length_cons, Nat.add_lt_add_iff_right, List.take_succ_cons, Line.joined,
        List.flatMap_cons, Line.whole, Bytes.length_append, Nat.add_assoc]

theorem Lined.joined_eq (h : Lined cs lines) : Line.joined lines = cs := by
  induction h with
  | last => simp [Line.joined, Line.whole]
  | more plain ends later ih =>
    rw [Line.joined, List.flatMap_cons, ← Line.joined, ih, Line.whole, List.append_assoc]

theorem Lined.plain (h : Lined cs lines) : ∀ line ∈ lines, IsPlain line.chars := by
  induction h with
  | last plain => simpa using plain
  | more plain ends later ih => exact List.forall_mem_cons.mpr ⟨plain, ih⟩

theorem Terminates.behind (h : Terminates front terminator (chars ++ (body ++ rest)))
    (h' : Terminates chars body rest) : Terminates (front ++ terminator ++ chars) body rest := by
  cases h' with
  | feed alone =>
    refine .feed ?_
    cases chars with
    | nil =>
      -- a carriage return before this line feed would be one terminator with it
      cases h with
      | feed => simp
      | pair => simp
      | carriage apart => exact absurd rfl apart
    | cons c chars =>
      rw [List.getLast?_append_of_ne_nil _ (List.cons_ne_nil c chars)]
      exact alone
  | pair => exact .pair
  | carriage alone => exact .carriage alone

theorem joined_eq_of_getElem? (here : lines[n]? = some line) :
    Line.joined lines = Line.joined (lines.take n) ++ line.chars ++
      (line.terminator ++ Line.joined (lines.drop (n + 1))) := by
  obtain ⟨fits, rfl⟩ := List.getElem?_eq_some_iff.mp here
  have parts : lines = lines.take n ++ (lines[n] :: lines.drop (n + 1)) := by
    rw [← List.drop_eq_getElem_cons, List.take_append_drop]
  conv_lhs => rw [parts]
  simp only [Line.joined, List.flatMap_append, List.flatMap_cons, Line.whole, List.append_assoc]

theorem joined_take_succ (here : lines[n]? = some line) :
    Line.joined (lines.take (n + 1)) =
      Line.joined (lines.take n) ++ line.chars ++ line.terminator := by
  obtain ⟨fits, rfl⟩ := List.getElem?_eq_some_iff.mp here
  rw [List.take_succ_eq_append_getElem fits]
  simp only [Line.joined, List.flatMap_append, List.flatMap_singleton, Line.whole,
    List.append_assoc]

theorem Lined.split (h : Lined cs lines) (here : lines[n]? = some line) :
    cs = Line.joined (lines.take n) ++ line.chars ++
      (line.terminator ++ Line.joined (lines.drop (n + 1))) := by
  rw [← joined_eq_of_getElem? here, h.joined_eq]

theorem Lined.terminates (h : Lined cs lines) (here : lines[n]? = some line)
    (more : n + 1 < lines.length) :
    Terminates (Line.joined (lines.take n) ++ line.chars) line.terminator
      (Line.joined (lines.drop (n + 1))) := by
  induction h generalizing n with
  | last => exact absurd more (by simp)
  | @more chars terminator rest lines plain ends later ih =>
    cases n with
    | zero =>
      cases here
      rw [List.take_zero, List.drop_succ_cons, List.drop_zero, later.joined_eq]
      exact ends
    | succ n =>
      have here : lines[n]? = some line := here
      have inner := ih here (Nat.lt_of_succ_lt_succ more)
      rw [← later.joined_eq, joined_eq_of_getElem? here] at ends
      have whole := ends.behind inner
      rw [List.take_succ_cons, Line.joined, List.flatMap_cons, ← Line.joined, Line.whole,
        List.append_assoc]
      exact whole

theorem Lined.terminator_of_last (h : Lined cs lines) (here : lines[n]? = some line)
    (last : lines.length ≤ n + 1) : line.terminator = [] := by
  induction h generalizing n with
  | last plain =>
    cases n with
    | zero => cases here; rfl
    | succ n => cases here
  | @more chars terminator rest lines plain ends later ih =>
    cases n with
    | zero => cases later <;> simp at last
    | succ n => exact ih here (Nat.le_of_succ_le_succ last)

namespace LineTable

theorem chomp_append (plain : IsPlain chars)
    (ends : ∀ c ∈ terminator, isTerminator c = true) : chomp (chars ++ terminator) = chars := by
  have first : ∀ c ∈ chars.reverse, isTerminator c = false := by
    intro c mem
    exact plain c (List.mem_reverse.mp mem)
  have stays : chars.reverse.dropWhile isTerminator = chars.reverse := by
    cases rest : chars.reverse with
    | nil => rfl
    | cons c cs =>
      rw [rest] at first
      exact List.dropWhile_cons_of_neg (Bool.eq_false_iff.mp (first c List.mem_cons_self))
  rw [chomp, List.reverse_append,
    List.dropWhile_append_of_pos fun c mem => ends c (List.mem_reverse.mp mem), stays,
    List.reverse_reverse]

theorem lineStart?_of_lined (lined : Lined cs lines) (n : Nat) : (ofText cs).lineStart? n =
    if n < lines.length then some (Bytes.length (Line.joined (lines.take n))) else none := by
  rw [lineStart?_ofText, lined.starts 0 n]
  simp only [Nat.zero_add]

theorem lineStop_of_lined (lined : Lined cs lines) (n : Nat) :
    ((ofText cs).lineStart? (n + 1)).getD (ofText cs).size =
      Bytes.length (Line.joined (lines.take (n + 1))) := by
  rw [lineStart?_of_lined lined]
  split
  · rfl
  · rename_i last
    rw [List.take_of_length_le (Nat.le_of_not_lt last), lined.joined_eq]
    rfl

theorem Lined.isTerminator (h : Lined cs lines) (here : lines[n]? = some line) :
    ∀ c ∈ line.terminator, isTerminator c = true := by
  rcases Nat.lt_or_ge (n + 1) lines.length with more | last
  · exact (h.terminates here more).isTerminator
  · rw [h.terminator_of_last here last]
    exact fun c mem => absurd mem List.not_mem_nil

theorem line?_of_lined (lined : Lined cs lines) (here : lines[n]? = some line)
    (numbered : n < Offset.limit) :
    (ofText cs).line? cs n = some (Bytes.length (Line.joined (lines.take n)), line.chars) := by
  have fits := (List.getElem?_eq_some_iff.mp here).1
  have plain := lined.plain line (List.mem_of_getElem? here)
  have slice := Bytes.slice?_append (Line.joined (lines.take n)) (line.chars ++ line.terminator)
    (Line.joined (lines.drop (n + 1)))
  rw [← List.append_assoc, ← joined_take_succ here, List.append_assoc line.chars,
    ← List.append_assoc, ← lined.split here] at slice
  rw [line?, lineStart?_of_lined lined, if_pos fits, Option.bind_some, lineBelow?, if_pos numbered,
    Option.bind_some, lineStop_of_lined lined, slice, Option.map_some,
    chomp_append plain (Lined.isTerminator lined here)]

theorem line?_of_le (lined : Lined cs lines) (past : lines.length ≤ n) :
    (ofText cs).line? cs n = none := by
  rw [line?, lineStart?_of_lined lined, if_neg (Nat.not_lt_of_le past), Option.bind_none]

theorem line?_of_limit_le (t : LineTable) (cs : List Char) (past : Offset.limit ≤ n) :
    t.line? cs n = none := by
  rw [line?, lineBelow?, if_neg (Nat.not_lt_of_le past)]
  cases t.lineStart? n <;> rfl

end LineTable

end

namespace Source

/-- What stands between the end of a line and the start of the next one. -/
def terminator (source : Source) (n : Nat) : List Char :=
  ((source.lineBounds? n).bind fun bounds => (source.table.lineStart? (n + 1)).bind fun next =>
    Bytes.slice? bounds.stop next source.chars).getD []

structure IsLine (source : Source) (n : Nat) (bounds : Span) : Prop where
  start : source.table.lineStart? n = some bounds.start
  ordered : bounds.start ≤ bounds.stop
  within : bounds.stop ≤ Bytes.length source.chars
  cut : Bytes.slice? bounds.start bounds.stop source.chars = some (source.line n)
  plain : ∀ c ∈ source.line n, c ≠ '\n' ∧ c ≠ '\r'
  ended : ∀ next, source.table.lineStart? (n + 1) = some next →
    TerminatorAt source.chars ⟨bounds.stop, next⟩
  last : source.table.lineStart? (n + 1) = none → bounds.stop = Bytes.length source.chars

section

variable {source : Source} {lines : List Line} {line : Line} {n : Nat}

theorem line_of_lined (lined : Lined source.chars lines) (here : lines[n]? = some line)
    (numbered : n < Offset.limit) :
    source.line n = line.chars ∧ source.lineBounds? n =
      some ⟨Bytes.length (Line.joined (lines.take n)),
        Bytes.length (Line.joined (lines.take n) ++ line.chars)⟩ := by
  have found := LineTable.line?_of_lined lined here numbered
  constructor
  · rw [Source.line, table_ofText, found]
    rfl
  · rw [lineBounds?, LineTable.lineBounds?, table_ofText, found, Bytes.length_append]
    rfl

theorem isLine_of_lined (lined : Lined source.chars lines) (here : lines[n]? = some line)
    (numbered : n < Offset.limit) :
    IsLine source n ⟨Bytes.length (Line.joined (lines.take n)),
      Bytes.length (Line.joined (lines.take n) ++ line.chars)⟩ := by
  have text := (line_of_lined lined here numbered).1
  have fits := (List.getElem?_eq_some_iff.mp here).1
  have starts := LineTable.lineStart?_of_lined lined
  have parts := lined.split here
  refine ⟨?_, ?_, ?_, ?_, ?_, ?_, ?_⟩
  · rw [table_ofText, starts, if_pos fits]
  · exact Bytes.length_le_append _ _
  · rw [parts]
    exact Bytes.length_le_append _ _
  · rw [text]
    have slice := Bytes.slice?_append (Line.joined (lines.take n)) line.chars
      (line.terminator ++ Line.joined (lines.drop (n + 1)))
    rw [← List.append_assoc, ← parts] at slice
    exact slice
  · rw [text]
    exact fun c mem => isTerminator_eq_false_iff.mp
      (lined.plain line (List.mem_of_getElem? here) c mem)
  · intro next found
    rw [table_ofText, starts] at found
    split at found
    · next more =>
      cases found
      refine ⟨Line.joined (lines.take n) ++ line.chars, line.terminator,
        Line.joined (lines.drop (n + 1)), ?_, lined.terminates here more, ?_⟩
      · rw [List.append_assoc (Line.joined (lines.take n) ++ line.chars)]
        exact parts
      · rw [joined_take_succ here]
    · cases found
  · intro none
    rw [table_ofText, starts] at none
    split at none
    · cases none
    · next last =>
      have le := Nat.le_of_not_lt last
      rw [parts, lined.terminator_of_last here le, List.drop_of_length_le le]
      simp [Line.joined]

theorem terminator_of_lined (lined : Lined source.chars lines) (here : lines[n]? = some line)
    (numbered : n < Offset.limit) : source.terminator n = line.terminator := by
  rw [terminator, (line_of_lined lined here numbered).2, table_ofText, Option.bind_some,
    LineTable.lineStart?_of_lined lined]
  split
  · have slice := Bytes.slice?_append (Line.joined (lines.take n) ++ line.chars) line.terminator
      (Line.joined (lines.drop (n + 1)))
    rw [← joined_take_succ here, ← lined.split here] at slice
    rw [Option.bind_some, slice]
    rfl
  · next last =>
    rw [lined.terminator_of_last here (Nat.le_of_not_lt last)]
    rfl

theorem size_starts_of_lined (lined : Lined source.chars lines) :
    source.table.starts.size = lines.length := by
  rw [table_ofText, LineTable.size_starts_ofText, ← lined.length_eq]

theorem line?_isSome_iff (lined : Lined source.chars lines) :
    (source.table.line? source.chars n).isSome ↔ n < lines.length ∧ n < Offset.limit := by
  rcases Nat.lt_or_ge n lines.length with fits | past
  · rcases Nat.lt_or_ge n Offset.limit with numbered | beyond
    · have here := List.getElem?_eq_getElem fits
      rw [table_ofText, LineTable.line?_of_lined lined here numbered]
      simp [fits, numbered]
    · rw [LineTable.line?_of_limit_le _ _ beyond]
      simp [Nat.not_lt_of_le beyond]
  · rw [table_ofText, LineTable.line?_of_le lined past]
    simp [Nat.not_lt_of_le past]

theorem lineBounds?_isSome_iff (lined : Lined source.chars lines) :
    (source.lineBounds? n).isSome ↔ n < lines.length ∧ n < Offset.limit := by
  rw [lineBounds?, LineTable.lineBounds?, Option.isSome_map, line?_isSome_iff lined]

theorem isLine_of_lineBounds? {bounds : Span} (found : source.lineBounds? n = some bounds) :
    IsLine source n bounds := by
  obtain ⟨lines, lined⟩ := exists_lined source.chars
  obtain ⟨fits, numbered⟩ := (lineBounds?_isSome_iff lined).mp (Option.isSome_of_eq_some found)
  have here := List.getElem?_eq_getElem fits
  rw [(line_of_lined lined here numbered).2] at found
  cases found
  exact isLine_of_lined lined here numbered

theorem line_eq_nil (none : source.lineBounds? n = .none) : source.line n = [] := by
  have absent : source.table.line? source.chars n = .none := Option.map_eq_none_iff.mp none
  rw [line, absent]
  rfl

theorem flatMap_lines {k : Nat} (lined : Lined source.chars lines) (inside : k ≤ lines.length)
    (numbered : k ≤ Offset.limit) :
    ((List.range k).flatMap fun n => source.line n ++ source.terminator n) =
      Line.joined (lines.take k) := by
  have each : ((List.range k).map fun n => source.line n ++ source.terminator n) =
      (lines.take k).map Line.whole := by
    apply List.ext_getElem
    · simp [Nat.min_eq_left inside]
    · intro n fits fits'
      have less : n < k := by simpa using fits
      have here : lines[n]? = some lines[n] := List.getElem?_eq_getElem (Nat.lt_of_lt_of_le less inside)
      have named := Nat.lt_of_lt_of_le less numbered
      rw [List.getElem_map, List.getElem_map, List.getElem_range, List.getElem_take,
        (line_of_lined lined here named).1, terminator_of_lined lined here named]
      rfl
  calc (List.range k).flatMap (fun n => source.line n ++ source.terminator n)
      = ((lines.take k).map Line.whole).flatten := by rw [List.flatMap_def, each]
    _ = Line.joined (lines.take k) := by rw [← List.flatMap_def, ← Line.joined]

/-- If there is no number for the line below the last, there is nothing in the last line. -/
theorem joined_take_clip (lined : Lined source.chars lines)
    (short : Bytes.length source.chars ≤ Offset.limit) :
    Line.joined (lines.take (Offset.clip lines.length)) = source.chars := by
  rcases Nat.lt_or_ge Offset.limit lines.length with more | few
  · have clipped : Offset.clip lines.length = Offset.limit := Nat.min_eq_right (Nat.le_of_lt more)
    have starts := LineTable.lineStart?_of_lined lined Offset.limit
    rw [if_pos more] at starts
    have before := LineTable.le_lineStart? starts
    have parts : source.chars =
        Line.joined (lines.take Offset.limit) ++ Line.joined (lines.drop Offset.limit) := by
      rw [Line.joined, Line.joined, ← List.flatMap_append, List.take_append_drop, ← Line.joined,
        lined.joined_eq]
    have behind : Line.joined (lines.drop Offset.limit) = [] := by
      by_contra some
      have size := Bytes.length_pos some
      rw [parts, Bytes.length_append] at short
      omega
    rw [behind, List.append_nil] at parts
    rw [clipped, ← parts]
  · rw [Offset.clip_of_le few, List.take_length, lined.joined_eq]

theorem lineStart?_isNone_iff :
    (source.table.lineStart? n).isNone = true ↔ source.table.starts.size ≤ n :=
  Option.isNone_iff_eq_none.trans Array.getElem?_eq_none_iff

/-- Calls for lines that start fail only for the one with the greatest number. -/
theorem checked_eq (source : Source)
    (numbers : n ≤ Offset.limit ∨ source.table.starts.size ≤ n) :
    source.checkedBounds? n = (if n = Offset.limit ∧ n < source.table.starts.size then none
      else some (source.lineBounds? n)) ∧
    source.checkedLine? n = if n = Offset.limit ∧ n < source.table.starts.size then none
      else some (source.line n) := by
  obtain ⟨lines, lined⟩ := exists_lined source.chars
  have taken : (source.table.line? source.chars n).isSome ↔
      n < source.table.starts.size ∧ n < Offset.limit := by
    rw [line?_isSome_iff lined, size_starts_of_lined lined]
  rw [checkedBounds?, checkedLine?, line, lineBounds?, LineTable.lineBounds?]
  rcases Nat.lt_or_ge n source.table.starts.size with inside | past
  · have starts : ¬ (source.table.lineStart? n).isNone = true := by
      rw [lineStart?_isNone_iff]
      omega
    rw [if_neg starts, if_neg starts]
    cases found : source.table.line? source.chars n with
    | some line =>
      have numbered := taken.mp (Option.isSome_of_eq_some found)
      have before : ¬ (n = Offset.limit ∧ n < source.table.starts.size) := by omega
      rw [if_neg before, if_neg before]
      exact ⟨rfl, rfl⟩
    | none =>
      have beyond : ¬ (n < source.table.starts.size ∧ n < Offset.limit) := by
        rw [← taken, found]
        exact Bool.false_ne_true
      have last : n = Offset.limit ∧ n < source.table.starts.size := by omega
      rw [if_pos last, if_pos last]
      exact ⟨rfl, rfl⟩
  · have absent : (source.table.lineStart? n).isNone = true := lineStart?_isNone_iff.mpr past
    have none : source.table.line? source.chars n = .none :=
      Option.not_isSome_iff_eq_none.mp (by rw [taken]; omega)
    have before : ¬ (n = Offset.limit ∧ n < source.table.starts.size) := by omega
    rw [if_pos absent, if_pos absent, if_neg before, if_neg before, none]
    exact ⟨rfl, rfl⟩

end

/-- The lines of a source of less than 2^32 bytes, each of them cut where characters end and free of
terminators, partition its text: behind each line but the last there is exactly one terminator, and
lines and terminators one after the other are the text. The calls for a line and for its bounds fail
for the last of 2^32 lines and never else. -/
theorem lines_partition_the_text (source : Source)
    (short : Bytes.length source.chars ≤ Offset.limit) :
    (∀ n, (source.lineBounds? n).isSome ↔ n < source.table.lineCount) ∧
    (∀ n bounds, source.lineBounds? n = some bounds → IsLine source n bounds) ∧
    ((List.range source.table.lineCount).flatMap fun n => source.line n ++ source.terminator n) =
      source.chars ∧
    (∀ n, source.checkedBounds? n =
      if n = Offset.limit ∧ n < source.table.starts.size then none
      else some (source.lineBounds? n)) ∧
    ∀ n, source.checkedLine? n =
      if n = Offset.limit ∧ n < source.table.starts.size then none else some (source.line n) := by
  obtain ⟨lines, lined⟩ := exists_lined source.chars
  have size := size_starts_of_lined lined
  have count : source.table.lineCount = Offset.clip lines.length := by
    rw [LineTable.lineCount, size]
  have numbers : ∀ n, n ≤ Offset.limit ∨ source.table.starts.size ≤ n := by
    have few := LineTable.length_startsAfter_le 0 source.chars
    rw [table_ofText, LineTable.size_starts_ofText]
    omega
  refine ⟨fun n => ?_, fun n bounds found => isLine_of_lineBounds? found, ?_,
    fun n => (source.checked_eq (numbers n)).1, fun n => (source.checked_eq (numbers n)).2⟩
  · rw [lineBounds?_isSome_iff lined, count]
    exact Nat.lt_min.symm
  · have inside : Offset.clip lines.length ≤ lines.length := Nat.min_le_left _ _
    rw [count, flatMap_lines lined inside (Offset.clip_le _), joined_take_clip lined short]

example :
    let source := Source.ofText "t" "a\r\r\né"
    (List.range source.table.lineCount).map (fun n => (source.line n, source.terminator n)) =
      [(['a'], ['\r']), ([], ['\r', '\n']), (['é'], [])] := by decide +kernel

theorem lines_of_two_returns :
    let source := Source.ofText "t" "a\r\r\né"
    Bytes.length source.chars ≤ Offset.limit ∧ source.table.lineCount = 3 ∧
      (∀ n, (source.lineBounds? n).isSome ↔ n < 3) ∧ IsLine source 1 ⟨2, 2⟩ ∧
      source.checkedLine? 1 = some [] := by
  intro source
  have short : Bytes.length source.chars ≤ Offset.limit := by decide +kernel
  have count : source.table.lineCount = 3 := by decide +kernel
  have bounds : source.lineBounds? 1 = some ⟨2, 2⟩ := by decide +kernel
  obtain ⟨some_iff, isLine, -, -, taken⟩ := lines_partition_the_text source short
  rw [count] at some_iff
  refine ⟨short, count, some_iff, isLine 1 _ bounds, (taken 1).trans ?_⟩
  decide +kernel

/-- The last of as many lines as there may be has a start, but it cannot be taken. -/
theorem last_line_is_not_taken :
    Bytes.length (feeds Offset.limit).chars < 2 ^ 32 ∧
      (feeds Offset.limit).table.lineStart? Offset.limit = some Offset.limit ∧
      (feeds Offset.limit).checkedBounds? Offset.limit = none ∧
      (feeds Offset.limit).checkedLine? Offset.limit = none := by
  have last : Offset.limit < (feeds Offset.limit).table.starts.size := by
    rw [size_starts_feeds]
    exact Nat.lt_succ_self _
  obtain ⟨bounds, line⟩ := (feeds Offset.limit).checked_eq (.inl (Nat.le_refl Offset.limit))
  rw [if_pos ⟨rfl, last⟩] at bounds line
  refine ⟨?_, lineStart?_feeds _, bounds, line⟩
  rw [length_feeds]
  decide

end Source

end Lockstep
