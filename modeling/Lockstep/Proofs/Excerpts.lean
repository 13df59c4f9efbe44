import Lockstep.Proofs.Joining
import Lockstep.Proofs.LinePartition

set_option autoImplicit false

namespace Lockstep

namespace Bytes

/-- Characters end at `n` bytes of the text. -/
def Cut (cs : List Char) (n : Nat) : Prop := ∃ front back, cs = front ++ back ∧ length front = n

/-- The characters at the offsets that `p` allows, when the first one is at `o`. -/
def pick (p : Nat → Bool) : (o : Nat) → List Char → List Char
  | _, [] => []
  | o, c :: cs => if p o then c :: pick p (o + c.utf8Size) cs else pick p (o + c.utf8Size) cs

section

variable {p : Nat → Bool} {o n : Nat} {cs front middle back rest : List Char}

theorem pick_append (p : Nat → Bool) (o : Nat) (front back : List Char) :
    pick p o (front ++ back) = pick p o front ++ pick p (o + length front) back := by
  induction front generalizing o with
  | nil => rfl
  | cons c front ih =>
    simp only [List.cons_append, pick, length, ih, Nat.add_assoc]
    split <;> rfl

theorem pick_all (all : ∀ e, o ≤ e → e < o + length cs → p e = true) : pick p o cs = cs := by
  induction cs generalizing o with
  | nil => rfl
  | cons c cs ih =>
    have size := c.utf8Size_pos
    simp only [length] at all
    rw [pick, if_pos (all o (by omega) (by omega)), ih fun e le less => all e (by omega) (by omega)]

theorem pick_none (none : ∀ e, o ≤ e → e < o + length cs → p e = false) : pick p o cs = [] := by
  induction cs generalizing o with
  | nil => rfl
  | cons c cs ih =>
    have size := c.utf8Size_pos
    simp only [length] at none
    rw [pick, if_neg (by simp [none o (by omega) (by omega)]),
      ih fun e le less => none e (by omega) (by omega)]

theorem pick_middle {start stop : Nat} (whole : cs = front ++ middle ++ back)
    (picks : ∀ e, p e = true ↔ start ≤ e ∧ e < stop)
    (starts : min start (o + length cs) = o + length front)
    (stops : min stop (o + length cs) = o + length front + length middle) :
    pick p o cs = middle := by
  subst whole
  simp only [length_append] at starts stops
  have before : pick p o front = [] := pick_none fun e le less => by
    rw [← Bool.not_eq_true, picks e]
    omega
  have inside : pick p (o + length front) middle = middle := pick_all fun e le less =>
    (picks e).mpr (by omega)
  have behind : pick p (o + length (front ++ middle)) back = [] := pick_none fun e le less => by
    rw [length_append] at le less
    rw [← Bool.not_eq_true, picks e]
    omega
  rw [pick_append, pick_append, before, inside, behind, List.nil_append, List.append_nil]

theorem cut_inside (joined : front ++ middle ++ back = cs) (cut : Cut cs n)
    (lo : length front ≤ n) (hi : n ≤ length (front ++ middle)) :
    Cut middle (n - length front) := by
  obtain ⟨left, right, rfl, rfl⟩ := cut
  rw [length_append] at hi
  rcases List.append_eq_append_iff.mp joined with ⟨more, rfl, -⟩ | ⟨less, same, -⟩
  · rw [length_append, length_append] at hi
    refine ⟨middle, [], (List.append_nil middle).symm, ?_⟩
    rw [length_append, length_append]
    omega
  · rcases List.append_eq_append_iff.mp same with ⟨inner, rfl, rfl⟩ | ⟨outer, rfl, rfl⟩
    · refine ⟨inner, less, rfl, ?_⟩
      rw [length_append, Nat.add_sub_cancel_left]
    · refine ⟨[], middle, rfl, ?_⟩
      rw [length_append, length] at *
      omega

end

end Bytes

namespace Source

/-- Characters end at the offset `o`; one past the end counts as the end. -/
def CutAt (source : Source) (o : Nat) : Prop :=
  Bytes.Cut source.chars (min o (Bytes.length source.chars))

/-- The coordinates `c` stand for the offset `o`, as far as the line of `c` goes. -/
def Marks (source : Source) (c : LineCol) (o : Nat) : Prop :=
  ∃ bounds, source.lineBounds? c.line = some bounds ∧
    min (bounds.start + c.column) bounds.stop = min o bounds.stop

/-- The offset `o` cuts the line of `c`, which starts at `start`, into `front` and `back`, at the
column of `c` or at the end of the line if the column is past it. -/
structure CutsLine (source : Source) (c : LineCol) (o start : Nat) (front back : List Char) :
    Prop where
  starts : source.table.lineStart? c.line = some start
  line : source.line c.line = front ++ back
  column : Bytes.length front = min c.column (Bytes.length (source.line c.line))
  offset : min o (start + Bytes.length (source.line c.line)) = start + Bytes.length front

end Source

namespace Position

/-- A position made over `source`: from spans of it, or behind another one, where the end marker of
an input is. -/
inductive Over (source : Source) : Position → Prop where
  | joined {p : Position} (joined : Joined source p) : Over source p
  | endPoint {p : Position} (whole : Over source p) : Over source p.endPoint
  | after {p : Position} (whole : Over source p) (width : Nat) : Over source (p.after width)

def before (p : Position) : List Char :=
  Bytes.pick (· < p.first.column) 0 (p.source.line p.first.line)

/-- The characters of the line of the start that the position covers. -/
def covered (p : Position) : List Char :=
  Bytes.pick p.span.contains ((p.source.table.lineStart? p.first.line).getD 0)
    (p.source.line p.first.line)

def blank (c : Char) : Char := if c = '\t' then '\t' else ' '

def marked (p : Position) (width : Nat) : String :=
  let carets := List.replicate (max 1 width) '^'
  String.ofList (p.source.line p.first.line ++ '\n' :: (p.before.map blank ++ carets))

/-- The excerpt. Fails where taking the line does, and where a column is to be moved between bounds
that are not in order. -/
def checkedExcerpt? (p : Position) : Option String :=
  (p.source.checkedLine? p.first.line).bind fun line =>
    let carets := List.replicate (max (p.caretWidth line) 1) '^'
    if p.last.line = p.first.line ∧ Bytes.length line < p.caretColumn line then none
    else some (String.ofList (line ++ '\n' :: p.caretLead line ++ carets))

end Position

namespace Source

variable {source : Source} {n o : Nat} {c : LineCol} {bounds : Span}

theorem lineBounds?_split (found : source.lineBounds? n = some bounds) :
    ∃ front back, front ++ source.line n ++ back = source.chars ∧
      source.table.lineStart? n = some (Bytes.length front) ∧
      bounds = ⟨Bytes.length front, Bytes.length front + Bytes.length (source.line n)⟩ := by
  obtain ⟨lines, lined⟩ := exists_lined source.chars
  obtain ⟨fits, numbered⟩ := (lineBounds?_isSome_iff lined).mp (Option.isSome_of_eq_some found)
  have here := List.getElem?_eq_getElem fits
  obtain ⟨text, place⟩ := line_of_lined lined here numbered
  rw [found] at place
  cases place
  rw [text]
  exact ⟨_, _, (lined.split here).symm, (isLine_of_lined lined here numbered).start,
    by rw [Bytes.length_append]⟩

theorem lineBounds?_ordered {m : Nat} {later : Span} (less : m < n)
    (found : source.lineBounds? m = some bounds) (found' : source.lineBounds? n = some later) :
    bounds.stop ≤ later.start := by
  obtain ⟨lines, lined⟩ := exists_lined source.chars
  obtain ⟨fits, numbered⟩ := (lineBounds?_isSome_iff lined).mp (Option.isSome_of_eq_some found')
  have here : lines[m]? = some lines[m] := List.getElem?_eq_getElem (Nat.lt_trans less fits)
  have here' := List.getElem?_eq_getElem fits
  rw [(line_of_lined lined here (Nat.lt_trans less numbered)).2] at found
  rw [(line_of_lined lined here' numbered).2] at found'
  cases found
  cases found'
  have first : (lines.take n).take (m + 1) = lines.take (m + 1) := by
    rw [List.take_take, Nat.min_eq_left less]
  have parts : Line.joined (lines.take n) = Line.joined (lines.take (m + 1)) ++
      Line.joined ((lines.take n).drop (m + 1)) := by
    rw [Line.joined, Line.joined, Line.joined, ← List.flatMap_append, ← first,
      List.take_append_drop]
  rw [parts, joined_take_succ here, List.append_assoc _ lines[m].terminator]
  exact Bytes.length_le_append _ _

theorem marks_lineCol (source : Source) (lines : source.table.starts.size ≤ Offset.limit) (o : Nat) :
    source.Marks (source.lineCol o) o := by
  have le := Nat.min_le_right o (Bytes.length source.chars)
  obtain ⟨start, starts, below, here⟩ := LineTable.lineCol_of_le le
  have inside := LineTable.lineOf_lt_size source.chars (min o (Bytes.length source.chars))
  rw [← table_ofText] at starts here inside
  obtain ⟨ls, lined⟩ := exists_lined source.chars
  have counted := inside
  rw [size_starts_of_lined lined] at counted
  obtain ⟨bounds, found⟩ := Option.isSome_iff_exists.mp
    ((lineBounds?_isSome_iff lined).mpr ⟨counted, Nat.lt_of_lt_of_le inside lines⟩)
  obtain ⟨front, back, joined, starts', rfl⟩ := lineBounds?_split found
  rw [starts] at starts'
  cases starts'
  have within := congrArg Bytes.length joined
  simp only [Bytes.length_append] at within
  rw [← source.lineCol_clamped o, lineCol, here]
  refine ⟨_, found, ?_⟩
  simp only
  omega

/-- Coordinates and offset may run past the end of the line together. -/
theorem Marks.shifted (marks : source.Marks c o)
    (short : Bytes.length source.chars ≤ Offset.limit) (width : Nat) :
    source.Marks (c.shifted width) (Offset.advance o width) := by
  obtain ⟨bounds, found, marks⟩ := marks
  obtain ⟨front, back, joined, -, rfl⟩ := lineBounds?_split found
  have within := congrArg Bytes.length joined
  simp only [Bytes.length_append] at within
  refine ⟨_, found, ?_⟩
  simp only [LineCol.shifted, Offset.advance, Offset.clip] at marks ⊢
  omega

/-- An offset is past the line of coordinates for an earlier one, if its own are on a later line. -/
theorem Marks.past {start e : Nat} {d : LineCol} (marks : source.Marks c o)
    (marks' : source.Marks d e) (less : c.line < d.line)
    (starts : source.table.lineStart? c.line = some start) :
    start + Bytes.length (source.line c.line) ≤ e := by
  obtain ⟨bounds, found, -⟩ := marks
  obtain ⟨bounds', found', marks'⟩ := marks'
  have ordered := lineBounds?_ordered less found found'
  obtain ⟨_, _, -, starts', rfl⟩ := lineBounds?_split found
  obtain ⟨_, _, -, -, rfl⟩ := lineBounds?_split found'
  rw [starts] at starts'
  cases starts'
  simp only at ordered marks'
  omega

theorem Marks.cut (marks : source.Marks c o) (cut : source.CutAt o) :
    ∃ start front back, source.CutsLine c o start front back := by
  obtain ⟨bounds, found, marks⟩ := marks
  obtain ⟨before, behind, joined, starts, rfl⟩ := lineBounds?_split found
  have size := congrArg Bytes.length joined
  simp only [Bytes.length_append] at size
  simp only at marks
  rcases Nat.lt_or_ge o (Bytes.length before + Bytes.length (source.line c.line)) with less | past
  · have inside : min o (Bytes.length source.chars) = o := by omega
    rw [CutAt, inside] at cut
    obtain ⟨front, back, line, place⟩ := Bytes.cut_inside joined cut (by omega)
      (by rw [Bytes.length_append]; omega)
    exact ⟨_, front, back, starts, line, by omega, by omega⟩
  · exact ⟨_, source.line c.line, [], starts, (List.append_nil _).symm, by omega, by omega⟩

theorem checkedLine?_eq (source : Source) (lines : source.table.starts.size ≤ Offset.limit)
    (n : Nat) : source.checkedLine? n = some (source.line n) := by
  have numbers : n ≤ Offset.limit ∨ source.table.starts.size ≤ n := by omega
  have counted : ¬ (n = Offset.limit ∧ n < source.table.starts.size) := by omega
  rw [(source.checked_eq numbers).2, if_neg counted]

theorem feed_not_mem_line (source : Source) (n : Nat) : '\n' ∉ source.line n := by
  cases found : source.lineBounds? n with
  | none =>
    rw [line_eq_nil found]
    exact List.not_mem_nil
  | some bounds => exact fun mem => ((isLine_of_lineBounds? found).plain _ mem).1 rfl

end Source

namespace Position

variable {source : Source} {p : Position}

/-- The coordinates of both ends stand for their offsets, and are in order if these are. -/
structure Placed (source : Source) (p : Position) : Prop where
  source_eq : p.source = source
  first : source.Marks p.first p.span.start
  last : source.Marks p.last p.span.stop
  ordered : p.span.start ≤ p.span.stop → p.first.line ≤ p.last.line

theorem placed_ofSpan (source : Source) (lines : source.table.starts.size ≤ Offset.limit)
    (span : Span) : Placed source (ofSpan source span) where
  source_eq := rfl
  first := source.marks_lineCol lines span.start
  last := source.marks_lineCol lines span.stop
  ordered := fun le => by
    have mono : source.lineCol span.start ≤ source.lineCol span.stop := source.lineCol_mono le
    change _ < _ ∨ _ = _ ∧ _ ≤ _ at mono
    change (source.lineCol span.start).line ≤ (source.lineCol span.stop).line
    omega

theorem Over.placed (made : Over source p) (lines : source.table.starts.size ≤ Offset.limit)
    (short : Bytes.length source.chars ≤ Offset.limit) : Placed source p := by
  induction made with
  | joined joined =>
    rw [joined.eq_ofSpan]
    exact placed_ofSpan source lines _
  | endPoint whole ih => exact ⟨ih.source_eq, ih.last, ih.last, fun _ => Nat.le_refl _⟩
  | after whole width ih =>
    exact ⟨ih.source_eq, ih.last, ih.last.shifted short width, fun _ => Nat.le_refl _⟩

section Cut

variable {start start' : Nat} {front back front' back' : List Char}

theorem before_eq (cut : p.source.CutsLine p.first p.span.start start front back) :
    p.before = front := by
  have whole : p.source.line p.first.line = [] ++ front ++ back := cut.line
  have picks : ∀ e, decide (e < p.first.column) = true ↔ 0 ≤ e ∧ e < p.first.column := by simp
  have column := cut.column
  refine Bytes.pick_middle whole picks (Nat.zero_min _) ?_
  simp only [Bytes.length]
  omega

theorem caretLead_eq (cut : p.source.CutsLine p.first p.span.start start front back) :
    p.caretLead (p.source.line p.first.line) = front.map blank := by
  rw [caretLead, caretColumn, ← cut.column, cut.line, Bytes.take?, Bytes.split?_append]
  rfl

/-- What is covered lies between the start and where the end cuts the line, if it does. -/
theorem covered_eq {middle behind : List Char}
    (cut : p.source.CutsLine p.first p.span.start start front (middle ++ behind))
    (last : min p.span.stop (start + Bytes.length (p.source.line p.first.line)) =
      start + Bytes.length front + Bytes.length middle) :
    p.covered = middle := by
  have line : p.source.line p.first.line = front ++ middle ++ behind := by
    rw [cut.line, List.append_assoc]
  rw [covered, cut.starts]
  exact Bytes.pick_middle line (fun e => by simp [Span.contains]) cut.offset last

theorem caretWidth_of_same_line (forward : p.span.start ≤ p.span.stop)
    (cut : p.source.CutsLine p.first p.span.start start front back)
    (cut' : p.source.CutsLine p.last p.span.stop start' front' back')
    (same : p.last.line = p.first.line) :
    p.caretWidth (p.source.line p.first.line) = p.covered.length := by
  obtain ⟨starts', line', column', stops⟩ := cut'
  rw [same] at starts' line' column' stops
  rw [cut.starts] at starts'
  cases starts'
  have starts := cut.offset
  -- the start cuts what stands before the end
  have inside : Bytes.Cut front' (Bytes.length front - Bytes.length []) :=
    Bytes.cut_inside line'.symm ⟨front, back, cut.line, rfl⟩ (Nat.zero_le _)
      (by rw [List.nil_append]; omega)
  obtain ⟨first, middle, rfl, size⟩ := inside
  have line := cut.line
  rw [line', List.append_assoc] at line
  obtain ⟨rfl, rfl⟩ := Bytes.append_inj line size
  rw [Bytes.length_append] at column' stops
  have covered := covered_eq cut (by omega)
  have slice := Bytes.slice?_append first middle back'
  rw [← List.append_assoc, ← line', Bytes.length_append] at slice
  have stop : max (Bytes.length first)
      (min p.last.column (Bytes.length (p.source.line p.first.line))) =
      Bytes.length first + Bytes.length middle := by omega
  simp only [caretWidth, caretColumn, if_pos same, ← cut.column, stop, slice, covered,
    Option.map_some, Option.getD_some]

theorem caretWidth_of_later_line (cut : p.source.CutsLine p.first p.span.start start front back)
    (past : start + Bytes.length (p.source.line p.first.line) ≤ p.span.stop)
    (later : p.last.line ≠ p.first.line) :
    p.caretWidth (p.source.line p.first.line) = Bytes.length p.covered := by
  have size := congrArg Bytes.length cut.line
  rw [Bytes.length_append] at size
  have whole : p.source.CutsLine p.first p.span.start start front (back ++ []) := by
    rwa [List.append_nil]
  have covered := covered_eq whole (by omega)
  simp only [caretWidth, caretColumn, if_neg later, ← cut.column, covered]
  omega

end Cut

/-- Carets are as many as the characters covered, or as their bytes if the span ends below. -/
theorem Placed.excerpt_eq (placed : Placed source p) (forward : p.span.start ≤ p.span.stop)
    (cutStart : source.CutAt p.span.start) (cutStop : source.CutAt p.span.stop) :
    p.excerpt = p.marked
      (if p.last.line = p.first.line then p.covered.length else Bytes.length p.covered) := by
  obtain ⟨rfl, first, last, ordered⟩ := placed
  obtain ⟨start, front, back, cut⟩ := first.cut cutStart
  obtain ⟨start', front', back', cut'⟩ := last.cut cutStop
  have width : p.caretWidth (p.source.line p.first.line) =
      if p.last.line = p.first.line then p.covered.length else Bytes.length p.covered := by
    split
    · next same => exact caretWidth_of_same_line forward cut cut' same
    · next further =>
      have later := Nat.lt_of_le_of_ne (ordered forward) (Ne.symm further)
      exact caretWidth_of_later_line cut (first.past last later cut.starts) further
  rw [excerpt, marked, width, before_eq cut, caretLead_eq cut, max_comm]
  simp only [List.cons_append, List.append_assoc]

theorem checkedExcerpt?_eq (p : Position) (lines : p.source.table.starts.size ≤ Offset.limit) :
    p.checkedExcerpt? = some p.excerpt := by
  have ordered : ¬ (p.last.line = p.first.line ∧
      Bytes.length (p.source.line p.first.line) < p.caretColumn (p.source.line p.first.line)) :=
    fun both => absurd both.2 (Nat.not_lt_of_le (Nat.min_le_right _ _))
  rw [checkedExcerpt?, p.source.checkedLine?_eq lines, Option.bind_some, if_neg ordered]
  rfl

/-- Taking the excerpt of any position over a source with less than 2^32 lines does not fail, and
its first line is the line of the start. Where the ends of a position are in order and characters
end at them, there is a blank below each character before the column of the start, and then there
are carets: as many as the line has characters that the position covers if it ends on that line, but
as many as these have bytes if it ends on a later one, and at least one. -/
theorem excerpt_marks_the_start_line (source : Source)
    (lines : source.table.starts.size ≤ Offset.limit)
    (short : Bytes.length source.chars ≤ Offset.limit) :
    (∀ p : Position, p.source = source → p.checkedExcerpt? = some p.excerpt ∧
      '\n' ∉ source.line p.first.line ∧
      ∃ carets, p.excerpt.toList = source.line p.first.line ++ '\n' :: carets) ∧
    ∀ p, Over source p → p.span.start ≤ p.span.stop → source.CutAt p.span.start →
      source.CutAt p.span.stop → p.excerpt = p.marked
        (if p.last.line = p.first.line then p.covered.length else Bytes.length p.covered) := by
  refine ⟨fun p same => ?_, fun p made forward cutStart cutStop => ?_⟩
  · subst same
    refine ⟨checkedExcerpt?_eq p lines, p.source.feed_not_mem_line p.first.line, ?_⟩
    exact ⟨_, by rw [excerpt, String.toList_ofList, List.append_assoc, List.cons_append]⟩
  · exact (made.placed lines short).excerpt_eq forward cutStart cutStop

def accented : Source := .ofText "t" "\té\nb"

theorem accented_excerpt :
    accented.table.starts.size ≤ Offset.limit ∧ Bytes.length accented.chars ≤ Offset.limit ∧
      let p := ofSpan accented ⟨1, 3⟩
      p.checkedExcerpt? = some p.excerpt ∧ Over accented p ∧ p.span.start ≤ p.span.stop ∧
        accented.CutAt p.span.start ∧ accented.CutAt p.span.stop ∧
        p.excerpt = p.marked
          (if p.last.line = p.first.line then p.covered.length else Bytes.length p.covered) := by
  have lines : accented.table.starts.size ≤ Offset.limit := by decide +kernel
  have short : Bytes.length accented.chars ≤ Offset.limit := by decide +kernel
  obtain ⟨never, marks⟩ := excerpt_marks_the_start_line accented lines short
  have made : Over accented (ofSpan accented ⟨1, 3⟩) := .joined (.ofSpan ⟨1, 3⟩)
  have start : accented.CutAt 1 := ⟨['\t'], ['é', '\n', 'b'], by decide +kernel, by decide +kernel⟩
  have stop : accented.CutAt 3 := ⟨['\t', 'é'], ['\n', 'b'], by decide +kernel, by decide +kernel⟩
  exact ⟨lines, short, (never _ rfl).1, made, by decide, start, stop,
    marks _ made (by decide) start stop⟩

example : ((ofSpan accented ⟨4, 5⟩).after 1).excerpt = "b\n ^" := by decide +kernel

/-- From the letter to the end of the line below, there are two carets below the one letter. -/
theorem two_carets_below_one_letter :
    let p := ofSpan accented ⟨1, 5⟩
    Bytes.length accented.chars < 2 ^ 32 ∧ Over accented p ∧ p.span.start ≤ p.span.stop ∧
      accented.CutAt p.span.start ∧ accented.CutAt p.span.stop ∧
      p.covered.length = 1 ∧ p.excerpt = "\té\n\t^^" ∧ p.excerpt ≠ p.marked p.covered.length := by
  refine ⟨by decide +kernel, .joined (.ofSpan ⟨1, 5⟩), by decide, ?_, ?_, by decide +kernel,
    by decide +kernel, by decide +kernel⟩
  · exact ⟨['\t'], ['é', '\n', 'b'], by decide +kernel, by decide +kernel⟩
  · exact ⟨accented.chars, [], by simp, by decide +kernel⟩

end Position

end Lockstep
