import Lockstep.Proofs.Tokenizing
import Mathlib.Data.Set.Card

set_option autoImplicit false

namespace Lockstep

namespace Bytes

theorem append_inj {front front' back back' : List Char}
    (joined : front ++ back = front' ++ back') (size : length front = length front') :
    front = front' ∧ back = back' := by
  have cut := split?_append front back
  rw [joined, size, split?_append] at cut
  cases cut
  exact ⟨rfl, rfl⟩

theorem length_le_append (front back : List Char) : length front ≤ length (front ++ back) := by
  rw [length_append]
  exact Nat.le_add_right _ _

end Bytes

instance : LT LineCol where
  lt p q := p.line < q.line ∨ p.line = q.line ∧ p.column < q.column

theorem LineCol.lt_iff {p q : LineCol} : p < q ↔ p ≤ q ∧ ¬ q ≤ p := by
  change (p.line < q.line ∨ p.line = q.line ∧ p.column < q.column) ↔
    (p.line < q.line ∨ p.line = q.line ∧ p.column ≤ q.column) ∧
      ¬ (q.line < p.line ∨ q.line = p.line ∧ q.column ≤ p.column)
  omega

/-- A terminator `body` between `front` and `back`: a line feed, a carriage return, or the two
together, which are one terminator and not two. -/
inductive Terminates : (front body back : List Char) → Prop where
  | feed {front back : List Char} (alone : front.getLast? ≠ some '\r') :
    Terminates front ['\n'] back
  | pair {front back : List Char} : Terminates front ['\r', '\n'] back
  | carriage {front back : List Char} (alone : back.head? ≠ some '\n') :
    Terminates front ['\r'] back

def TerminatorAt (cs : List Char) (s : Span) : Prop :=
  ∃ front body back, cs = front ++ body ++ back ∧ Terminates front body back ∧
    s = ⟨Bytes.length front, Bytes.length (front ++ body)⟩

def EndsLine (c : Char) (back : List Char) : Prop := c = '\n' ∨ c = '\r' ∧ back.head? ≠ some '\n'

/-- A line of the text `cs` ends at byte `e`, its terminator included. -/
def EndsAt (cs : List Char) (e : Nat) : Prop :=
  ∃ front c back, cs = front ++ c :: back ∧ EndsLine c back ∧ e = Bytes.length (front ++ [c])

section

variable {cs : List Char} {e : Nat}

theorem Terminates.endsAt {front body back : List Char} (h : Terminates front body back) :
    EndsAt (front ++ body ++ back) (Bytes.length (front ++ body)) := by
  cases h with
  | feed alone => exact ⟨front, '\n', back, by simp, .inl rfl, rfl⟩
  | pair => exact ⟨front ++ ['\r'], '\n', back, by simp, .inl rfl, by simp⟩
  | carriage alone => exact ⟨front, '\r', back, by simp, .inr ⟨rfl, alone⟩, rfl⟩

theorem exists_terminates (front : List Char) {back : List Char} {c : Char}
    (ends : EndsLine c back) :
    ∃ front' body, Terminates front' body back ∧ front' ++ body = front ++ [c] := by
  rcases ends with rfl | ⟨rfl, alone⟩
  · by_cases before : front.getLast? = some '\r'
    · obtain ⟨front', rfl⟩ := List.getLast?_eq_some_iff.mp before
      exact ⟨front', ['\r', '\n'], .pair, by simp⟩
    · exact ⟨front, ['\n'], .feed before, rfl⟩
  · exact ⟨front, ['\r'], .carriage alone, rfl⟩

/-- Each terminator ends a line, and each line but the last is ended by one. -/
theorem exists_terminatorAt_iff : (∃ s, TerminatorAt cs s ∧ s.stop = e) ↔ EndsAt cs e := by
  constructor
  · rintro ⟨-, ⟨front, body, back, rfl, terminates, rfl⟩, rfl⟩
    exact terminates.endsAt
  · rintro ⟨front, c, back, rfl, ends, rfl⟩
    obtain ⟨front', body, terminates, joined⟩ := exists_terminates front ends
    refine ⟨⟨Bytes.length front', Bytes.length (front' ++ body)⟩, ?_, congrArg Bytes.length joined⟩
    exact ⟨front', body, back, by rw [joined, List.append_assoc]; rfl, terminates, rfl⟩

theorem getLast?_of_pair {front front' : List Char}
    (joined : front ++ ['\n'] = front' ++ ['\r', '\n']) : front.getLast? = some '\r' := by
  have apart : front ++ ['\n'] = front' ++ ['\r'] ++ ['\n'] := by rw [joined]; simp
  rw [List.append_cancel_right apart, List.getLast?_concat]

/-- Where a terminator ends, no other one does. -/
theorem Terminates.unique {front front' body body' back : List Char}
    (h : Terminates front body back) (h' : Terminates front' body' back)
    (joined : front ++ body = front' ++ body') : front = front' := by
  have last := congrArg List.getLast? joined
  cases h with
  | feed alone =>
    cases h' with
    | feed => exact List.append_cancel_right joined
    | pair => exact absurd (getLast?_of_pair joined) alone
    | carriage => simp at last
  | pair =>
    cases h' with
    | feed alone => exact absurd (getLast?_of_pair joined.symm) alone
    | pair => exact List.append_cancel_right joined
    | carriage => simp at last
  | carriage =>
    cases h' with
    | feed => simp at last
    | pair => simp at last
    | carriage => exact List.append_cancel_right joined

theorem TerminatorAt.eq_of_stop {s s' : Span} (h : TerminatorAt cs s) (h' : TerminatorAt cs s')
    (same : s.stop = s'.stop) : s = s' := by
  obtain ⟨front, body, back, rfl, terminates, rfl⟩ := h
  obtain ⟨front', body', back', joined, terminates', rfl⟩ := h'
  obtain ⟨whole, rfl⟩ := Bytes.append_inj joined same
  obtain rfl := terminates.unique terminates' whole
  rw [whole]

theorem not_endsAt_nil : ¬ EndsAt [] e := by
  rintro ⟨front, c, back, joined, -⟩
  simp at joined

theorem endsAt_cons_iff {c : Char} : EndsAt (c :: cs) e ↔
    EndsLine c cs ∧ e = c.utf8Size ∨ ∃ n, EndsAt cs n ∧ e = c.utf8Size + n := by
  constructor
  · rintro ⟨front, d, back, joined, ends, rfl⟩
    cases front with
    | nil =>
      cases joined
      exact .inl ⟨ends, rfl⟩
    | cons b front =>
      cases joined
      exact .inr ⟨_, ⟨front, d, back, rfl, ends, rfl⟩, rfl⟩
  · rintro (⟨ends, rfl⟩ | ⟨-, ⟨front, d, back, rfl, ends, rfl⟩, rfl⟩)
    · exact ⟨[], c, cs, rfl, ends, rfl⟩
    · exact ⟨c :: front, d, back, rfl, ends, rfl⟩

theorem EndsAt.pos (h : EndsAt cs e) : 0 < e := by
  obtain ⟨front, c, back, -, -, rfl⟩ := h
  exact Bytes.length_pos (by simp)

end

namespace LineTable

section

variable {cs : List Char} {m n a b e o : Nat}

theorem exists_endsAt_cons_iff {c : Char} : (∃ n, EndsAt (c :: cs) n ∧ e = o + n) ↔
    EndsLine c cs ∧ e = o + c.utf8Size ∨ ∃ n, EndsAt cs n ∧ e = o + c.utf8Size + n := by
  constructor
  · rintro ⟨n, ends, rfl⟩
    rcases endsAt_cons_iff.mp ends with ⟨here, rfl⟩ | ⟨m, later, rfl⟩
    · exact .inl ⟨here, rfl⟩
    · exact .inr ⟨m, later, by omega⟩
  · rintro (⟨here, rfl⟩ | ⟨n, later, rfl⟩)
    · exact ⟨c.utf8Size, endsAt_cons_iff.mpr (.inl ⟨here, rfl⟩), rfl⟩
    · exact ⟨c.utf8Size + n, endsAt_cons_iff.mpr (.inr ⟨n, later, rfl⟩), by omega⟩

theorem mem_startsAfter_iff : e ∈ startsAfter o cs ↔ ∃ n, EndsAt cs n ∧ e = o + n := by
  fun_induction startsAfter o cs with
  | case1 o => simp [not_endsAt_nil]
  | case2 o cs ih =>
    have within : ¬ EndsLine '\r' ('\n' :: cs) := by simp [EndsLine]
    have feed : EndsLine '\n' cs := .inl rfl
    rw [exists_endsAt_cons_iff, exists_endsAt_cons_iff, List.mem_cons, ih]
    simp only [within, feed, false_and, false_or, true_and]
    rfl
  | case3 o c cs alone ends ih =>
    have here : EndsLine c cs := by
      refine ends.imp_right fun carriage => ⟨carriage, fun first => ?_⟩
      obtain ⟨rest, rfl⟩ := List.head?_eq_some_iff.mp first
      exact alone rest carriage rfl
    have one : c.utf8Size = 1 := by
      rcases ends with rfl | rfl <;> rfl
    rw [exists_endsAt_cons_iff, List.mem_cons, ih, one]
    simp only [here, true_and]
  | case4 o c cs alone goes ih =>
    have inside : ¬ EndsLine c cs := fun ends => goes (ends.imp_right And.left)
    rw [exists_endsAt_cons_iff, ih]
    simp only [inside, false_and, false_or]

theorem lt_of_mem_startsAfter (mem : e ∈ startsAfter o cs) : o < e := by
  obtain ⟨n, ends, rfl⟩ := mem_startsAfter_iff.mp mem
  have pos := ends.pos
  omega

theorem startsAfter_ascending (o : Nat) (cs : List Char) :
    (startsAfter o cs).Pairwise (· < ·) := by
  fun_induction startsAfter o cs with
  | case1 => exact .nil
  | case2 o cs ih => exact .cons (fun e mem => lt_of_mem_startsAfter mem) ih
  | case3 o c cs alone ends ih => exact .cons (fun e mem => lt_of_mem_startsAfter mem) ih
  | case4 o c cs alone goes ih => exact ih

/-- Of a window whose first entry is at most `o`, and behind which an entry is beyond `o`, the
search gives the last place with this property. -/
theorem search_spec {starts : Array Nat} {lo hi : Nat} {bound : hi ≤ starts.size} (some : lo < hi)
    (below : starts[lo] ≤ o) (beyond : ∀ next, starts[hi]? = .some next → o < next) :
    ∃ start, starts[search starts o lo hi bound]? = .some start ∧ start ≤ o ∧
      ∀ next, starts[search starts o lo hi bound + 1]? = .some next → o < next := by
  fun_induction search starts o lo hi bound with
  | case1 lo hi bound more left ih => exact ih (by omega) left beyond
  | case2 lo hi bound more right ih =>
    refine ih (by omega) below ?_
    intro next here
    have fits : (lo + hi) / 2 < starts.size := by omega
    rw [Array.getElem?_eq_getElem fits] at here
    cases here
    omega
  | case3 lo hi bound done =>
    obtain rfl : hi = lo + 1 := by omega
    exact ⟨starts[lo], Array.getElem?_eq_getElem (by omega), below, beyond⟩

theorem lineStart?_ofText (cs : List Char) (n : Nat) :
    (ofText cs).lineStart? n = (0 :: startsAfter 0 cs)[n]? := by
  rw [lineStart?, ofText, List.getElem?_toArray]

theorem lineStart?_succ (fits : n < (startsAfter 0 cs).length) :
    (ofText cs).lineStart? (n + 1) = some (startsAfter 0 cs)[n] := by
  rw [lineStart?_ofText, List.getElem?_cons_succ, List.getElem?_eq_getElem fits]

theorem size_starts_ofText (cs : List Char) :
    (ofText cs).starts.size = (startsAfter 0 cs).length + 1 := rfl

theorem length_startsAfter_le (o : Nat) (cs : List Char) :
    (startsAfter o cs).length ≤ Bytes.length cs := by
  fun_induction startsAfter o cs with
  | case1 => exact Nat.le_refl 0
  | case2 o cs ih =>
    have feed : '\n'.utf8Size = 1 := rfl
    simp only [List.length_cons, Bytes.length]
    omega
  | case3 o c cs alone ends ih =>
    have size := c.utf8Size_pos
    simp only [List.length_cons, Bytes.length]
    omega
  | case4 o c cs alone goes ih =>
    simp only [Bytes.length]
    omega

theorem lineStart?_lt (less : m < n) (first : (ofText cs).lineStart? m = some a)
    (second : (ofText cs).lineStart? n = some b) : a < b := by
  have ascending : (0 :: startsAfter 0 cs).Pairwise (· < ·) :=
    .cons (fun e mem => lt_of_mem_startsAfter mem) (startsAfter_ascending 0 cs)
  rw [lineStart?_ofText] at first second
  obtain ⟨fits, rfl⟩ := List.getElem?_eq_some_iff.mp first
  obtain ⟨fits', rfl⟩ := List.getElem?_eq_some_iff.mp second
  exact List.pairwise_iff_getElem.mp ascending m n fits fits' less

theorem exists_lineStart?_le (le : m ≤ n) (here : (ofText cs).lineStart? n = some b) :
    ∃ a, (ofText cs).lineStart? m = some a ∧ a ≤ b := by
  have fits : n < (ofText cs).starts.size := (Array.getElem?_eq_some_iff.mp here).1
  have earlier : (ofText cs).lineStart? m = some _ := Array.getElem?_eq_getElem (by omega)
  refine ⟨_, earlier, ?_⟩
  rcases Nat.lt_or_eq_of_le le with less | rfl
  · exact Nat.le_of_lt (lineStart?_lt less earlier here)
  · exact Nat.le_of_eq (Option.some.inj (earlier.symm.trans here))

theorem le_lineStart? (here : (ofText cs).lineStart? n = some e) : n ≤ e := by
  induction n generalizing e with
  | zero => exact Nat.zero_le e
  | succ n ih =>
    obtain ⟨a, earlier, -⟩ := exists_lineStart?_le (Nat.le_succ n) here
    exact Nat.lt_of_le_of_lt (ih earlier) (lineStart?_lt (Nat.lt_succ_self n) earlier here)

theorem lineStart?_lineOf (cs : List Char) (o : Nat) :
    ∃ start, (ofText cs).lineStart? ((ofText cs).lineOf o) = some start ∧ start ≤ o ∧
      ∀ next, (ofText cs).lineStart? ((ofText cs).lineOf o + 1) = some next → o < next := by
  have some : 0 < (ofText cs).starts.size := Nat.succ_pos _
  refine search_spec some (Nat.zero_le o) fun next here => ?_
  rw [Array.getElem?_eq_none (Nat.le_refl _)] at here
  cases here

/-- A line that starts at or before an offset is the line of the offset or an earlier one. -/
theorem lineStart?_le_iff (here : (ofText cs).lineStart? n = some e) :
    e ≤ o ↔ n ≤ (ofText cs).lineOf o := by
  obtain ⟨start, found, below, beyond⟩ := lineStart?_lineOf cs o
  constructor
  · intro le
    by_contra later
    obtain ⟨next, follows, upTo⟩ := exists_lineStart?_le (Nat.lt_of_not_le later) here
    have after := beyond next follows
    omega
  · intro le
    obtain ⟨a, first, upTo⟩ := exists_lineStart?_le le found
    rw [here] at first
    cases first
    omega

theorem lineOf_lt_size (cs : List Char) (o : Nat) :
    (ofText cs).lineOf o < (ofText cs).starts.size := by
  obtain ⟨start, found, -⟩ := lineStart?_lineOf cs o
  exact (Array.getElem?_eq_some_iff.mp found).1

theorem lineOf_mono (cs : List Char) (le : o ≤ e) :
    (ofText cs).lineOf o ≤ (ofText cs).lineOf e := by
  obtain ⟨start, found, below, -⟩ := lineStart?_lineOf cs o
  exact (lineStart?_le_iff found).mp (by omega)

theorem endsAt_iff : EndsAt cs e ↔ ∃ n, (ofText cs).lineStart? (n + 1) = some e := by
  have mem : EndsAt cs e ↔ e ∈ startsAfter 0 cs := by simp [mem_startsAfter_iff]
  rw [mem, List.mem_iff_getElem?]
  simp only [lineStart?_ofText, List.getElem?_cons_succ]

/-- Between two offsets a line ends if the second one is on a later line. -/
theorem lineOf_lt_iff (o e : Nat) : (ofText cs).lineOf o < (ofText cs).lineOf e ↔
    ∃ n, EndsAt cs n ∧ o < n ∧ n ≤ e := by
  constructor
  · intro less
    obtain ⟨-, -, -, beyond⟩ := lineStart?_lineOf cs o
    obtain ⟨start, found, below, -⟩ := lineStart?_lineOf cs e
    obtain ⟨next, follows, upTo⟩ := exists_lineStart?_le (Nat.succ_le_of_lt less) found
    exact ⟨next, endsAt_iff.mpr ⟨_, follows⟩, beyond next follows, by omega⟩
  · rintro ⟨n, ends, after, upTo⟩
    obtain ⟨line, here⟩ := endsAt_iff.mp ends
    have notYet : ¬ line + 1 ≤ (ofText cs).lineOf o := by
      rw [← lineStart?_le_iff here]
      omega
    have reached := (lineStart?_le_iff here).mp upTo
    omega

/-- The ends of lines up to `o` are the starts of the lines behind the first, up to that of `o`. -/
theorem endsAt_le_iff : EndsAt cs e ∧ e ≤ o ↔
    e ∈ (startsAfter 0 cs).take ((ofText cs).lineOf o) := by
  rw [endsAt_iff, List.mem_take_iff_getElem]
  constructor
  · rintro ⟨⟨n, here⟩, le⟩
    have upTo := (lineStart?_le_iff here).mp le
    rw [lineStart?_ofText, List.getElem?_cons_succ] at here
    obtain ⟨fits, rfl⟩ := List.getElem?_eq_some_iff.mp here
    exact ⟨n, by omega, rfl⟩
  · rintro ⟨n, fits, rfl⟩
    have here := lineStart?_succ (Nat.lt_of_lt_of_le fits (Nat.min_le_right _ _))
    exact ⟨⟨n, here⟩, (lineStart?_le_iff here).mpr (by omega)⟩

/-- The line of an offset is the number of terminators that end at or before it. -/
theorem encard_terminators (cs : List Char) (o : Nat) :
    {s | TerminatorAt cs s ∧ s.stop ≤ o}.encard = (ofText cs).lineOf o := by
  have apart : Set.InjOn Span.stop {s | TerminatorAt cs s ∧ s.stop ≤ o} :=
    fun s here s' here' same => here.1.eq_of_stop here'.1 same
  have stops : Span.stop '' {s | TerminatorAt cs s ∧ s.stop ≤ o} =
      ((startsAfter 0 cs).take ((ofText cs).lineOf o)).toFinset := by
    ext e
    simp only [Set.mem_image, Set.mem_ofPred_eq, List.coe_toFinset, ← endsAt_le_iff,
      ← exists_terminatorAt_iff]
    constructor
    · rintro ⟨s, ⟨here, le⟩, rfl⟩
      exact ⟨⟨s, here, rfl⟩, le⟩
    · rintro ⟨⟨s, here, rfl⟩, le⟩
      exact ⟨s, ⟨here, le⟩, rfl⟩
  have distinct : ((startsAfter 0 cs).take ((ofText cs).lineOf o)).Nodup :=
    ((startsAfter_ascending 0 cs).imp Nat.ne_of_lt).take
  have below := lineOf_lt_size cs o
  rw [size_starts_ofText] at below
  rw [← apart.encard_image, stops, Set.encard_coe_eq_coe_finsetCard,
    List.toFinset_card_of_nodup distinct, List.length_take, Nat.min_eq_left (by omega)]

theorem lineCol_of_le (le : o ≤ Bytes.length cs) :
    ∃ start, (ofText cs).lineStart? ((ofText cs).lineOf o) = some start ∧ start ≤ o ∧
      (ofText cs).lineCol o = ⟨(ofText cs).lineOf o, o - start⟩ := by
  obtain ⟨start, found, below, -⟩ := lineStart?_lineOf cs o
  refine ⟨start, found, below, ?_⟩
  have size : min o (ofText cs).size = o := Nat.min_eq_left le
  have entry : (ofText cs).starts.getD ((ofText cs).lineOf o) 0 = start := by
    rw [Array.getD_eq_getD_getElem?]
    exact congrArg (Option.getD · 0) found
  simp only [lineCol, size, entry]

theorem lineCol_min (cs : List Char) (o : Nat) :
    (ofText cs).lineCol (min o (Bytes.length cs)) = (ofText cs).lineCol o := by
  have size : min (min o (Bytes.length cs)) (ofText cs).size = min o (ofText cs).size :=
    Nat.min_eq_left (Nat.min_le_right _ _)
  simp only [lineCol, size]

theorem lineCol_lt (less : o < e) (le : e ≤ Bytes.length cs) :
    (ofText cs).lineCol o < (ofText cs).lineCol e := by
  obtain ⟨start, found, below, here⟩ := lineCol_of_le (Nat.le_trans (Nat.le_of_lt less) le)
  obtain ⟨start', found', below', here'⟩ := lineCol_of_le le
  rw [here, here']
  rcases Nat.lt_or_eq_of_le (lineOf_mono cs (Nat.le_of_lt less)) with later | same
  · exact .inl later
  · rw [← same, found] at found'
    cases found'
    have columns : o - start < e - start := by omega
    exact .inr ⟨same, columns⟩

theorem lineCol_inj (le : o ≤ Bytes.length cs) (le' : e ≤ Bytes.length cs) :
    (ofText cs).lineCol o = (ofText cs).lineCol e ↔ o = e := by
  refine ⟨fun same => ?_, congrArg _⟩
  have apart : ∀ {m n : Nat}, m < n → n ≤ Bytes.length cs →
      (ofText cs).lineCol m ≠ (ofText cs).lineCol n := by
    intro m n less fits equal
    have both := lineCol_lt less fits
    rw [equal] at both
    exact (LineCol.lt_iff.mp both).2 (LineCol.lt_iff.mp both).1
  rcases Nat.lt_trichotomy o e with less | equal | less
  · exact absurd same (apart less le')
  · exact equal
  · exact absurd same.symm (apart less le)

end

end LineTable

namespace Source

theorem table_ofText (source : Source) : source.table = LineTable.ofText source.chars :=
  source.table_eq

theorem line_lineCol (source : Source) {o : Nat} (le : o ≤ Bytes.length source.chars) :
    (source.lineCol o).line = (LineTable.ofText source.chars).lineOf o := by
  obtain ⟨start, -, -, here⟩ := LineTable.lineCol_of_le le
  rw [lineCol, table_ofText, here]

theorem lineCol_inj (source : Source) {o e : Nat} (le : o ≤ Bytes.length source.chars)
    (le' : e ≤ Bytes.length source.chars) : source.lineCol o = source.lineCol e ↔ o = e := by
  rw [lineCol, lineCol, table_ofText]
  exact LineTable.lineCol_inj le le'

/-- In a text of less than 2^32 bytes the lines are numbered, and at most the last of them is not
counted. -/
theorem lt_lineCount_of_starts {source : Source} (short : Bytes.length source.chars ≤ Offset.limit)
    {line start : Nat} (starts : source.table.lineStart? line = some start) :
    line < source.table.lineCount ∨
      source.table.starts.size = Offset.limit + 1 ∧ line = Offset.limit := by
  have inside : line < source.table.starts.size := (Array.getElem?_eq_some_iff.mp starts).1
  have few := LineTable.length_startsAfter_le 0 source.chars
  have size := LineTable.size_starts_ofText source.chars
  rw [← table_ofText] at size
  rw [LineTable.lineCount, Offset.clip]
  omega

structure Locates (source : Source) (o : Nat) (p : LineCol) : Prop where
  line : {s | TerminatorAt source.chars s ∧ s.stop ≤ o}.encard = p.line
  counted : p.line < source.table.lineCount ∨
    source.table.starts.size = Offset.limit + 1 ∧ p.line = Offset.limit
  column : ∃ start, source.table.lineStart? p.line = some start ∧ start + p.column = o
  next : ∀ start, source.table.lineStart? (p.line + 1) = some start → o < start

theorem locates_lineCol (source : Source) (short : Bytes.length source.chars ≤ Offset.limit)
    {o : Nat} (le : o ≤ Bytes.length source.chars) : Locates source o (source.lineCol o) := by
  obtain ⟨start, found, below, here⟩ := LineTable.lineCol_of_le le
  obtain ⟨-, -, -, beyond⟩ := LineTable.lineStart?_lineOf source.chars o
  have starts : source.table.lineStart? ((LineTable.ofText source.chars).lineOf o) = some start := by
    rw [table_ofText]
    exact found
  rw [lineCol, table_ofText, here]
  refine ⟨LineTable.encard_terminators source.chars o, lt_lineCount_of_starts short starts,
    ⟨start, starts, Nat.add_sub_cancel' below⟩, ?_⟩
  rw [table_ofText]
  exact beyond

theorem lineCol_clamped (source : Source) (o : Nat) :
    source.lineCol (min o (Bytes.length source.chars)) = source.lineCol o := by
  rw [lineCol, lineCol, table_ofText, LineTable.lineCol_min]

/-- Coordinates and line starts undo each other at every offset, one past the end counting as the
end, in a text of less than 2^32 bytes. Each line is below the number of lines, but for the last of
2^32. Within the text, coordinates grow with the offset, so of positions that have the coordinates of
their bytes one follows another by line and column just where it does by bytes. -/
theorem lineCol_undoes_lineStart (source : Source)
    (short : Bytes.length source.chars ≤ Offset.limit) :
    (∀ offset, Locates source (min offset (Bytes.length source.chars)) (source.lineCol offset)) ∧
    (∀ o o', o < o' → o' ≤ Bytes.length source.chars → source.lineCol o < source.lineCol o') ∧
    ∀ p q : Position, p.first = source.lineCol p.span.start → q.last = source.lineCol q.span.stop →
      p.span.start ≤ Bytes.length source.chars → q.span.stop ≤ Bytes.length source.chars →
      (p.isAdjacentTo q = true ↔ p.span.start = q.span.stop) := by
  refine ⟨fun offset => ?_, fun o o' less le => ?_, fun p q first last start stop => ?_⟩
  · rw [← source.lineCol_clamped offset]
    exact source.locates_lineCol short (Nat.min_le_right offset _)
  · rw [lineCol, lineCol, table_ofText]
    exact LineTable.lineCol_lt less le
  · rw [Position.isAdjacentTo, first, last, ← source.lineCol_inj start stop]
    exact beq_iff_eq

theorem lineCol_of_pair :
    let source := Source.ofText "t" "a\r\n\rb"
    Bytes.length source.chars ≤ Offset.limit ∧ source.lineCol 4 = ⟨2, 0⟩ ∧
      Locates source 4 (source.lineCol 4) ∧ source.lineCol 2 < source.lineCol 3 ∧
      Position.isAdjacentTo (.ofSpan source ⟨3, 4⟩) (.ofSpan source ⟨0, 3⟩) = true := by
  intro source
  have short : Bytes.length source.chars ≤ Offset.limit := by decide +kernel
  have size : 4 ≤ Bytes.length source.chars := by decide +kernel
  obtain ⟨located, grows, adjacent⟩ := lineCol_undoes_lineStart source short
  have here := located 4
  rw [Nat.min_eq_left size] at here
  have inside : 3 ≤ Bytes.length source.chars := Nat.le_of_succ_le size
  have follows := adjacent (.ofSpan source ⟨3, 4⟩) (.ofSpan source ⟨0, 3⟩) rfl rfl inside inside
  exact ⟨short, by decide +kernel, here, grows 2 3 (by decide) inside, follows.mpr rfl⟩

def feeds (n : Nat) : Source := .ofText "t" (String.ofList (List.replicate n '\n'))

theorem chars_feeds (n : Nat) : (feeds n).chars = List.replicate n '\n' := String.toList_ofList

theorem length_feeds (n : Nat) : Bytes.length (feeds n).chars = n := by
  rw [chars_feeds]
  induction n with
  | zero => rfl
  | succ n ih =>
    have feed : '\n'.utf8Size = 1 := rfl
    rw [List.replicate_succ, Bytes.length, ih, feed, Nat.add_comm]

theorem startsAfter_feeds (o n : Nat) :
    LineTable.startsAfter o (List.replicate n '\n') = List.range' (o + 1) n := by
  induction n generalizing o with
  | zero => rfl
  | succ n ih =>
    have feed : '\n' ≠ '\r' := by decide
    rw [List.replicate_succ, LineTable.startsAfter.eq_3 _ _ _ fun _ same => absurd same feed,
      if_pos (.inl rfl), ih, List.range'_succ]

theorem size_starts_feeds (n : Nat) : (feeds n).table.starts.size = n + 1 := by
  rw [table_ofText, LineTable.size_starts_ofText, chars_feeds, startsAfter_feeds, List.length_range']

theorem lineStart?_feeds (n : Nat) : (feeds n).table.lineStart? n = some n := by
  rw [table_ofText, LineTable.lineStart?_ofText, chars_feeds, startsAfter_feeds]
  cases n with
  | zero => rfl
  | succ n =>
    rw [List.getElem?_cons_succ, List.getElem?_range' (Nat.lt_succ_self n)]
    simp only [Nat.zero_add, Nat.one_mul, Nat.add_comm]

theorem line_lineCol_feeds (n : Nat) : ((feeds n).lineCol n).line = n := by
  have starts := lineStart?_feeds n
  have below := LineTable.lineOf_lt_size (feeds n).chars n
  have size := size_starts_feeds n
  rw [table_ofText] at starts size
  have above := (LineTable.lineStart?_le_iff starts).mp (Nat.le_refl n)
  rw [line_lineCol _ (Nat.le_of_eq (length_feeds n).symm)]
  omega

/-- The last line of as many line feeds as there may be bytes has the number of lines for its number.
A span that goes on behind another one into the next line does not end where its coordinates do. -/
theorem count_stops_at_the_last_line :
    (Bytes.length (feeds Offset.limit).chars < 2 ^ 32 ∧
      ¬ ((feeds Offset.limit).lineCol Offset.limit).line < (feeds Offset.limit).table.lineCount) ∧
    let source := Source.ofText "t" "a\nb"
    let p := (Position.ofSpan source ⟨0, 1⟩).after 2
    let q := Position.ofSpan source ⟨3, 3⟩
    p.span.stop ≤ Bytes.length source.chars ∧ q.span.start = p.span.stop ∧
      q.isAdjacentTo p = false := by
  have count : (feeds Offset.limit).table.lineCount = Offset.limit := by
    rw [LineTable.lineCount, size_starts_feeds, Offset.clip, Nat.min_eq_right (Nat.le_succ _)]
  refine ⟨⟨?_, ?_⟩, by decide +kernel⟩
  · rw [length_feeds]
    decide
  · rw [line_lineCol_feeds, count]
    exact Nat.lt_irrefl _

end Source

end Lockstep
