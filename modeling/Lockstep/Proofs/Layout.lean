import Lockstep.Predicate
import Lockstep.Proofs.LineBreaks

set_option autoImplicit false

open scoped Computability

namespace Lockstep

open Rule

section

variable {front gap back : List Char}

/-- Unless a line feed follows `gap`, a line ends in it where a character of a terminator is. -/
theorem exists_endsLine_iff (apart : back.head? ≠ some '\n') :
    (∃ u c v, gap = u ++ c :: v ∧ EndsLine c (v ++ back)) ↔ ∃ c ∈ gap, c = '\r' ∨ c = '\n' := by
  constructor
  · rintro ⟨u, c, v, rfl, ends⟩
    exact ⟨c, by simp, ends.symm.imp_left And.left⟩
  · rintro ⟨c, mem, rfl | rfl⟩
    · obtain ⟨u, v, rfl⟩ := List.append_of_mem mem
      by_cases follows : (v ++ back).head? = some '\n'
      · -- the line feed behind is in the text as well, and ends the line there
        cases v with
        | nil => exact absurd follows apart
        | cons d v =>
          obtain rfl : d = '\n' := Option.some.inj follows
          exact ⟨u ++ ['\r'], '\n', v, by simp, .inl rfl⟩
      · exact ⟨u, '\r', v, rfl, .inr ⟨rfl, follows⟩⟩
    · obtain ⟨u, v, rfl⟩ := List.append_of_mem mem
      exact ⟨u, '\n', v, rfl, .inl rfl⟩

theorem lineOf_gap_lt_iff (apart : back.head? ≠ some '\n') :
    (LineTable.ofText (front ++ (gap ++ back))).lineOf (Bytes.length front) <
      (LineTable.ofText (front ++ (gap ++ back))).lineOf (Bytes.length (front ++ gap)) ↔
    ∃ c ∈ gap, c = '\r' ∨ c = '\n' := by
  rw [LineTable.lineOf_lt_iff, ← exists_endsLine_iff apart]
  constructor
  · rintro ⟨n, ends, after, upTo⟩
    obtain ⟨u, c, v, parts, here, -⟩ := ends.within after upTo
    exact ⟨u, c, v, parts, here⟩
  · rintro ⟨u, c, v, rfl, here⟩
    have pos := c.utf8Size_pos
    refine ⟨_, endsAt_of_endsLine here, ?_, ?_⟩
    · simp only [Bytes.length_append, Bytes.length]
      omega
    · simp only [Bytes.length_append, Bytes.length]
      omega

theorem length_append_eq_iff :
    Bytes.length (front ++ gap) = Bytes.length front ↔ gap = [] := by
  rw [Bytes.length_append]
  constructor
  · intro equal
    by_contra some
    have pos := Bytes.length_pos some
    omega
  · rintro rfl
    rfl

end

namespace Predicate

section

variable {source : Source} {last : Position} {next : Token} {o e : Nat}

theorem noSpace_iff (stops : last.last = source.lineCol o)
    (starts : next.position.first = source.lineCol e) (within : o ≤ Bytes.length source.chars)
    (within' : e ≤ Bytes.length source.chars) : noSpace.test next last = true ↔ e = o := by
  rw [← source.lineCol_inj within' within, ← starts, ← stops]
  exact beq_iff_eq

theorem nextLine_iff (stops : last.last = source.lineCol o)
    (starts : next.position.first = source.lineCol e) (within : o ≤ Bytes.length source.chars)
    (within' : e ≤ Bytes.length source.chars) (more : next.isEof = false) :
    nextLine.test next last = true ↔ (LineTable.ofText source.chars).lineOf o <
      (LineTable.ofText source.chars).lineOf e := by
  rw [← source.line_lineCol within, ← source.line_lineCol within', ← starts, ← stops]
  simp [nextLine, more]

theorem sameLine_eq (stops : last.last = source.lineCol o)
    (starts : next.position.first = source.lineCol e) (ordered : o ≤ e)
    (within : e ≤ Bytes.length source.chars) (more : next.isEof = false) :
    sameLine.test next last = !nextLine.test next last := by
  have ascends : last.last.line ≤ next.position.first.line := by
    rw [stops, starts, source.line_lineCol (Nat.le_trans ordered within),
      source.line_lineCol within]
    exact LineTable.lineOf_mono source.chars ordered
  rw [Bool.eq_iff_iff]
  simp only [sameLine, nextLine, more, Bool.false_or, beq_iff_eq, Bool.not_eq_true',
    decide_eq_false_iff_not]
  omega

end

end Predicate

namespace Tokenizer

/-- The token `next` is read right after `last`: it is the first of the text, which starts at
`last`, or it comes in the call after the one that gave the token at `last`. -/
inductive Follows (source : Source) (keywords : List String) : Position → Token → Prop where
  | first {next : Token} (answer : (ofSource source keywords).next.1 = .ok next) :
    Follows source keywords (.startOf source) next
  | later {token next : Token} (n : Nat)
      (earlier : ((ofSource source keywords).after n).next.1 = .ok token)
      (answer : ((ofSource source keywords).after (n + 1)).next.1 = .ok next) :
    Follows source keywords token.position next

section

variable {source : Source} {keywords : List String} {front gap w rest : List Char} {t : Tokenizer}

theorem after_succ (n : Nat) (t : Tokenizer) : t.after (n + 1) = (t.after n).next.2 := by
  induction n generalizing t with
  | zero => rfl
  | succ n ih => exact ih t.next.2

theorem head?_ne_feed {form : LexemeClass} (mem : w ∈ (Rule.lexeme form).language) :
    (w ++ rest).head? ≠ some '\n' := by
  obtain ⟨c, v, rfl⟩ := List.exists_cons_of_ne_nil (ne_nil_of_mem mem)
  intro first
  cases first
  exact feed_not_mem_lexeme mem List.mem_cons_self

theorem position_of_reply {position : Position} {outcome : Except LexFault (Kind × String)}
    {token : Token} (given : reply position outcome = .ok token) : token.position = position :=
  (congrArg place given).symm.trans (place_reply position outcome)

theorem HasRead.token (h : HasRead source keywords front t)
    (short : Bytes.length source.chars < 2 ^ 32) {next : Token} (answer : t.next.1 = .ok next)
    (more : next.isEof = false) : ∃ gap w rest,
      source.chars = front ++ (gap ++ (w ++ rest)) ∧ (w ++ rest).head? ≠ some '\n' ∧
      next.position = .ofSpan source
        ⟨Bytes.length (front ++ gap), Bytes.length (front ++ gap ++ w)⟩ := by
  rcases h.reply_cases short with ⟨ended, -⟩ |
    ⟨gap, w, rest, form, outcome, text, mem, -, given, -⟩
  · rw [ended] at answer
    cases answer
    cases more
  · rw [answer] at given
    exact ⟨gap, w, rest, by rw [text, List.append_assoc], head?_ne_feed mem,
      position_of_reply given.symm⟩

theorem Follows.hasRead {last : Position} {next : Token}
    (short : Bytes.length source.chars < 2 ^ 32) (h : Follows source keywords last next)
    (more : next.isEof = false) : ∃ front t, HasRead source keywords front t ∧
      t.next.1 = .ok next ∧ last.span.stop = Bytes.length front ∧
      last.last = source.lineCol (Bytes.length front) := by
  cases h with
  | first answer =>
    exact ⟨[], ofSource source keywords, ⟨rfl, rfl, rfl, rfl⟩, answer, rfl, rfl⟩
  | @later token next n earlier answer =>
    obtain ⟨front, read⟩ := hasRead_after source keywords n
    rw [after_succ] at answer
    rcases read.reply_cases short with ⟨-, ended⟩ |
      ⟨gap, w, rest, form, outcome, -, -, -, given, later⟩
    · -- behind the end marker there are end markers only
      rcases next_cases ((ofSource source keywords).after n).next.2 with
        ⟨-, marker, -⟩ | ⟨gap, w, rest, text, -, some, -⟩
      · rw [marker] at answer
        cases answer
        cases more
      · rw [ended] at text
        simp [some] at text
    · rw [earlier] at given
      refine ⟨_, _, later, answer, ?_, ?_⟩
      · rw [position_of_reply given.symm]
        rfl
      · rw [position_of_reply given.symm]
        rfl

/-- What stands between two tokens, one read right after the other, or before the first token, is
what the layout predicates say: nothing, text in which no line ends, or text in which one does. -/
theorem layout_is_what_stands_between (source : Source) (keywords : List String)
    (short : Bytes.length source.chars < 2 ^ 32) (last : Position) (next : Token)
    (follows : Follows source keywords last next) (more : next.isEof = false) :
    last.span.stop ≤ next.position.span.start ∧ ∃ gap,
      Bytes.slice? last.span.stop next.position.span.start source.chars = some gap ∧
      (Predicate.noSpace.test next last = true ↔ gap = []) ∧
      (Predicate.sameLine.test next last = true ↔ ∀ c ∈ gap, c ≠ '\r' ∧ c ≠ '\n') ∧
      (Predicate.nextLine.test next last = true ↔ ∃ c ∈ gap, c = '\r' ∨ c = '\n') ∧
      Predicate.sameLine.test next last = !Predicate.nextLine.test next last := by
  obtain ⟨front, t, read, answer, stop, stops⟩ := follows.hasRead short more
  obtain ⟨gap, w, rest, text, apart, position⟩ := read.token short answer more
  have starts : next.position.first = source.lineCol (Bytes.length (front ++ gap)) := by
    rw [position]
    rfl
  have ordered : Bytes.length front ≤ Bytes.length (front ++ gap) := Bytes.length_le_append _ _
  have within : Bytes.length (front ++ gap) ≤ Bytes.length source.chars := by
    rw [text, ← List.append_assoc]
    exact Bytes.length_le_append _ _
  have within' : Bytes.length front ≤ Bytes.length source.chars := Nat.le_trans ordered within
  have noSpace : Predicate.noSpace.test next last = true ↔ gap = [] := by
    rw [Predicate.noSpace_iff stops starts within' within]
    exact length_append_eq_iff
  have nextLine : Predicate.nextLine.test next last = true ↔ ∃ c ∈ gap, c = '\r' ∨ c = '\n' := by
    rw [Predicate.nextLine_iff stops starts within' within more, text]
    exact lineOf_gap_lt_iff apart
  have either := Predicate.sameLine_eq stops starts ordered within more
  have sameLine : Predicate.sameLine.test next last = true ↔ ∀ c ∈ gap, c ≠ '\r' ∧ c ≠ '\n' := by
    rw [either, Bool.not_eq_true', ← Bool.not_eq_true, nextLine]
    simp only [not_exists, not_and, not_or]
  refine ⟨?_, gap, ?_, noSpace, sameLine, nextLine, either⟩
  · rw [stop, position]
    exact ordered
  · rw [stop, position, text]
    exact Bytes.slice?_append front gap (w ++ rest)

end

def brokenRow : Source := .ofText "t" "a+ // b\r\nc"

def rowSymbol : Token := ⟨.symbol, "+", .ofSpan brokenRow ⟨1, 2⟩⟩

def rowWord : Token := ⟨.word, "c", .ofSpan brokenRow ⟨9, 10⟩⟩

theorem layout_of_broken_row :
    Bytes.length brokenRow.chars < 2 ^ 32 ∧
      Follows brokenRow [] rowSymbol.position rowWord ∧ rowWord.isEof = false ∧
      rowSymbol.position.span.stop ≤ rowWord.position.span.start ∧ ∃ gap,
        Bytes.slice? rowSymbol.position.span.stop rowWord.position.span.start brokenRow.chars =
          some gap ∧
        (Predicate.noSpace.test rowWord rowSymbol.position = true ↔ gap = []) ∧
        (Predicate.sameLine.test rowWord rowSymbol.position = true ↔
          ∀ c ∈ gap, c ≠ '\r' ∧ c ≠ '\n') ∧
        (Predicate.nextLine.test rowWord rowSymbol.position = true ↔
          ∃ c ∈ gap, c = '\r' ∨ c = '\n') ∧
        Predicate.sameLine.test rowWord rowSymbol.position =
          !Predicate.nextLine.test rowWord rowSymbol.position := by
  have short : Bytes.length brokenRow.chars < 2 ^ 32 := by decide +kernel
  have follows : Follows brokenRow [] rowSymbol.position rowWord :=
    .later 1 (by decide +kernel) (by decide +kernel)
  exact ⟨short, follows, rfl,
    layout_is_what_stands_between brokenRow [] short rowSymbol.position rowWord follows rfl⟩

end Tokenizer

end Lockstep
