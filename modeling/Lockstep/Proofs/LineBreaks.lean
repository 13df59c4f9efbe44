import Lockstep.Proofs.Lines
import Lockstep.Proofs.Scanning

set_option autoImplicit false

open scoped Computability

namespace Lockstep

open Rule

theorem Span.contains_iff {s : Span} {o : Nat} :
    s.contains o = true ↔ s.start ≤ o ∧ o < s.stop := by
  simp [contains]

section

variable {front gap back w rest : List Char} {n : Nat}

theorem EndsAt.within (ends : EndsAt (front ++ (gap ++ back)) n) (after : Bytes.length front < n)
    (upTo : n ≤ Bytes.length (front ++ gap)) :
    ∃ u c v, gap = u ++ c :: v ∧ EndsLine c (v ++ back) ∧ n = Bytes.length (front ++ u ++ [c]) := by
  obtain ⟨before, c, later, joined, ends, rfl⟩ := ends
  have pos := c.utf8Size_pos
  simp only [Bytes.length_append, Bytes.length] at after upTo
  have tail : ∃ u, before = front ++ u ∧ gap ++ back = u ++ c :: later := by
    rcases List.append_eq_append_iff.mp joined with ⟨u, rfl, tail⟩ | ⟨u, rfl, tail⟩
    · exact ⟨u, rfl, tail⟩
    · cases u with
      | nil => exact ⟨[], by simp, tail.symm⟩
      | cons d u =>
        cases tail
        simp only [Bytes.length_append, Bytes.length] at after
        omega
  obtain ⟨u, rfl, tail⟩ := tail
  rw [Bytes.length_append] at upTo
  rcases List.append_eq_append_iff.mp tail with ⟨x, rfl, -⟩ | ⟨x, rfl, first⟩
  · rw [Bytes.length_append] at upTo
    omega
  · cases x with
    | nil =>
      simp only [List.append_nil] at upTo
      omega
    | cons d v =>
      cases first
      exact ⟨u, c, v, rfl, ends, rfl⟩

theorem endsAt_of_endsLine {u v : List Char} {c : Char} (ends : EndsLine c (v ++ back)) :
    EndsAt (front ++ (u ++ c :: v ++ back)) (Bytes.length (front ++ u ++ [c])) :=
  ⟨front ++ u, c, v ++ back, by simp, ends, rfl⟩

/-- A carriage return stands at byte `o` of the text `cs`, and no line feed follows it. -/
def LoneReturnAt (cs : List Char) (o : Nat) : Prop :=
  ∃ front back, cs = front ++ '\r' :: back ∧ back.head? ≠ some '\n' ∧ o = Bytes.length front

theorem LoneReturnAt.endsAt {cs : List Char} {o : Nat} (h : LoneReturnAt cs o) :
    EndsAt cs (o + 1) := by
  obtain ⟨front, back, rfl, alone, rfl⟩ := h
  refine ⟨front, '\r', back, rfl, .inr ⟨rfl, alone⟩, ?_⟩
  rw [Bytes.length_append]
  rfl

/-- Within a piece without line feeds, lines end at lone carriage returns only. -/
theorem EndsAt.lone (feedless : '\n' ∉ w) (ends : EndsAt (front ++ (w ++ rest)) n)
    (after : Bytes.length front < n) (upTo : n ≤ Bytes.length (front ++ w)) :
    ∃ o, LoneReturnAt (front ++ (w ++ rest)) o ∧ Bytes.length front ≤ o ∧ n = o + 1 := by
  obtain ⟨u, c, v, rfl, here, rfl⟩ := ends.within after upTo
  rcases here with rfl | ⟨rfl, alone⟩
  · simp at feedless
  · refine ⟨Bytes.length (front ++ u), ⟨front ++ u, v ++ rest, by simp, alone, rfl⟩, ?_, ?_⟩
    · exact Bytes.length_le_append front u
    · rw [Bytes.length_append (front ++ u)]
      rfl

theorem lineOf_lt_iff_lone (feedless : '\n' ∉ w) :
    (LineTable.ofText (front ++ (w ++ rest))).lineOf (Bytes.length front) <
      (LineTable.ofText (front ++ (w ++ rest))).lineOf (Bytes.length (front ++ w)) ↔
    ∃ o, LoneReturnAt (front ++ (w ++ rest)) o ∧ Bytes.length front ≤ o ∧
      o < Bytes.length (front ++ w) := by
  rw [LineTable.lineOf_lt_iff]
  constructor
  · rintro ⟨n, ends, after, upTo⟩
    obtain ⟨o, lone, from_, rfl⟩ := ends.lone feedless after upTo
    exact ⟨o, lone, from_, upTo⟩
  · rintro ⟨o, lone, from_, before⟩
    exact ⟨o + 1, lone.endsAt, Nat.lt_succ_of_le from_, before⟩

end

namespace Rule

variable {w body : List Char} {form : LexemeClass}

theorem feed_not_mem_run {p : Char → Bool} (feed : p '\n' = false) (mem : w ∈ run p) :
    '\n' ∉ w := by
  intro inside
  rw [(mem_run.mp mem).2 '\n' inside] at feed
  cases feed

theorem feed_not_mem_items (items : body ∈ stringItem∗) : '\n' ∉ body := by
  refine items_induction (motive := fun body => '\n' ∉ body) ?nil ?plain ?escape items
  case nil => exact List.not_mem_nil
  case plain =>
    intro c cs plain ih
    simp only [isPlain, Bool.and_eq_true, bne_iff_ne] at plain
    exact List.not_mem_cons_of_ne_of_not_mem plain.2.symm ih
  case escape =>
    intro c cs other ih
    have escaped := List.not_mem_cons_of_ne_of_not_mem other.symm ih
    exact List.not_mem_cons_of_ne_of_not_mem (by decide) escaped

theorem feed_not_mem_lexeme (mem : w ∈ (Rule.lexeme form).language) : '\n' ∉ w := by
  cases form with
  | word =>
    obtain ⟨c, v, start, parts, rfl⟩ := mem_single_mul.mp mem
    intro inside
    rcases List.mem_cons.mp inside with rfl | later
    · cases start
    · cases mem_star_single.mp parts '\n' later
  | integer => exact feed_not_mem_run (by decide) mem
  | float =>
    obtain ⟨whole, fraction, digits, digits', rfl⟩ := mem_float.mp mem
    have first := feed_not_mem_run (by decide) digits
    have second := feed_not_mem_run (by decide) digits'
    simp [first, second]
  | string =>
    obtain ⟨body, items, rfl⟩ := mem_string.mp mem
    simp [feed_not_mem_items items]
  | openString =>
    obtain ⟨body, items, rfl⟩ := mem_literal_mul.mp mem
    simp [feed_not_mem_items items]
  | symbol =>
    obtain ⟨c, other, rfl⟩ := mem
    intro inside
    cases List.mem_singleton.mp inside
    cases other

theorem feed_not_mem_comment (mem : w ∈ Rule.comment.language) : '\n' ∉ w := by
  obtain ⟨body, line, rfl⟩ := mem_literal_mul.mp mem
  have inside : '\n' ∉ body := by
    intro here
    cases mem_star_single.mp line '\n' here
  simpa using inside

theorem Wins.skipped {r : Rule} {w rest : List Char} (wins : r.Wins w (w ++ rest))
    (skipped : r = .blanks ∨ r = .comment) (offset : Nat) :
    skipBlank false offset (w ++ rest) = skipBlank false (offset + Bytes.length w) rest := by
  rcases skipped with rfl | rfl
  · exact skipBlank_blanks (mem_run.mp wins.mem).2 offset rest
  · obtain ⟨body, -, rfl⟩ := mem_literal_mul.mp wins.mem
    obtain ⟨same, -⟩ := (wins_comment (body ++ rest)).unique wins
    have line : body = (body ++ rest).takeWhile (· != '\n') :=
      (List.cons.inj (List.cons.inj same).2).2
    have joined := List.takeWhile_append_dropWhile (p := (· != '\n')) (l := body ++ rest)
    rw [← line] at joined
    have behind := List.append_cancel_left joined
    have goes := skipBlank_comment offset (body ++ rest)
    rw [← line, behind] at goes
    exact goes

end Rule

theorem Skips.skipped {text rest : List Char} (h : Skips text rest) (offset : Nat) :
    ∃ gap, text = gap ++ rest ∧
      skipBlank false offset text = skipBlank false (offset + Bytes.length gap) rest := by
  induction h generalizing offset with
  | nothing => exact ⟨[], rfl, rfl⟩
  | @piece r w text rest skipped wins more ih =>
    obtain ⟨gap, rfl, goes⟩ := ih (offset + Bytes.length w)
    refine ⟨w ++ gap, (List.append_assoc w gap rest).symm, ?_⟩
    rw [wins.skipped skipped, goes, Bytes.length_append, Nat.add_assoc]

/-- No line starts inside the bytes `s` of a source. -/
def Source.WithinLine (source : Source) (s : Span) : Prop :=
  ∀ line start, source.table.lineStart? line = some start → s.start < start → s.stop ≤ start

namespace Tokenizer

/-- Call `n` to a tokenizer skips the comment `w`, with `front` before it and `rest` behind it. -/
structure SkipsComment (source : Source) (keywords : List String) (n : Nat)
    (front w rest : List Char) : Prop where
  joined : source.chars = front ++ (w ++ rest)
  skips : Skips ((ofSource source keywords).after n).rest (w ++ rest)
  wins : Rule.comment.Wins w (w ++ rest)

/-- All that is read from a source, and all comments that are skipped, keep to the lines of its line
table. -/
structure KeepsToLines (source : Source) (keywords : List String) : Prop where
  reply : ∀ n, let p := place ((ofSource source keywords).after n).next.1
    p.first.line = p.last.line
  comment : ∀ n front w rest, SkipsComment source keywords n front w rest →
    source.WithinLine ⟨Bytes.length front, Bytes.length (front ++ w)⟩

section

variable {source : Source} {keywords : List String} {front w rest : List Char} {t : Tokenizer}
  {n : Nat}

theorem isEnd_of_names {form : LexemeClass} {outcome : Except LexFault (Kind × String)}
    (named : Names keywords w form outcome) (position : Position) :
    isEnd (reply position outcome) = false := by
  cases named <;> rfl

theorem HasRead.reply_cases (h : HasRead source keywords front t)
    (short : Bytes.length source.chars < 2 ^ 32) :
    t.next.1 = .ok (.eof (t.last.after 1)) ∧ t.next.2.rest = [] ∨
    ∃ gap w rest form outcome, source.chars = front ++ gap ++ (w ++ rest) ∧
      w ∈ (Rule.lexeme form).language ∧ isEnd t.next.1 = false ∧
      t.next.1 = reply (.ofSpan source
        ⟨Bytes.length (front ++ gap), Bytes.length (front ++ gap ++ w)⟩) outcome ∧
      HasRead source keywords (front ++ gap ++ w) t.next.2 := by
  cases h.answers with
  | ends _ answer later =>
    have joined := later.joined
    rw [h.joined] at joined
    exact .inl ⟨answer, by simpa using joined⟩
  | @piece gap w rest form outcome joined skips reads answer later =>
    have text : source.chars = front ++ gap ++ (w ++ rest) := by
      rw [h.joined, joined]
      simp only [List.append_assoc]
    have size := congrArg Bytes.length text
    simp only [Bytes.length_append] at size
    have fits : Bytes.length (front ++ gap ++ w) ≤ Offset.limit := by
      simp only [Bytes.length_append, Offset.limit]
      omega
    have fits' : Bytes.length (front ++ gap) ≤ Offset.limit := by
      rw [Bytes.length_append (front ++ gap)] at fits
      omega
    rw [Offset.clip_of_le fits, Offset.clip_of_le fits'] at answer
    refine .inr ⟨gap, w, rest, form, outcome, text, reads.wins.mem, ?_, answer, later⟩
    rw [answer]
    exact isEnd_of_names reads.named _

theorem place_reply (position : Position) (outcome : Except LexFault (Kind × String)) :
    place (reply position outcome) = position := by
  cases outcome <;> rfl

theorem SkipsComment.goes_on (h : SkipsComment source keywords n front w rest) :
    skipBlank false ((ofSource source keywords).after n).offset
        ((ofSource source keywords).after n).rest =
      skipBlank false (Bytes.length (front ++ w)) rest := by
  obtain ⟨read, has⟩ := hasRead_after source keywords n
  obtain ⟨gap, left, goes⟩ := h.skips.skipped ((ofSource source keywords).after n).offset
  have joined := h.joined
  rw [has.joined, left, ← List.append_assoc] at joined
  obtain rfl := List.append_cancel_right joined
  rw [goes, has.offset_eq, h.wins.skipped (.inr rfl), Bytes.length_append (read ++ gap),
    Bytes.length_append read]

theorem withinLine_comment_iff (h : SkipsComment source keywords n front w rest) :
    source.WithinLine ⟨Bytes.length front, Bytes.length (front ++ w)⟩ ↔
      ∀ o, LoneReturnAt source.chars o → Bytes.length front ≤ o →
        Bytes.length (front ++ w) ≤ o + 1 := by
  have feedless := feed_not_mem_comment h.wins.mem
  rw [Source.WithinLine, source.table_ofText]
  constructor
  · intro within o lone inside
    obtain ⟨line, found⟩ := LineTable.endsAt_iff.mp lone.endsAt
    exact within _ _ found (Nat.lt_succ_of_le inside)
  · intro last line start found after
    by_contra before
    cases line with
    | zero => cases found; cases after
    | succ line =>
      have ends := LineTable.endsAt_iff.mpr ⟨line, found⟩
      rw [h.joined] at ends last
      obtain ⟨o, lone, inside, rfl⟩ := ends.lone feedless after (Nat.le_of_not_le before)
      exact before (last o lone inside)

theorem same_line_iff (h : HasRead source keywords front t)
    (short : Bytes.length source.chars < 2 ^ 32) (goes : isEnd t.next.1 = false) :
    (place t.next.1).first.line = (place t.next.1).last.line ↔
      ∀ o, LoneReturnAt source.chars o → (span t.next.1).contains o = false := by
  rcases h.reply_cases short with ⟨answer, -⟩ |
    ⟨gap, w, rest, form, outcome, text, mem, -, answer, -⟩
  · rw [answer] at goes
    cases goes
  have stop : Bytes.length (front ++ gap ++ w) ≤ Bytes.length source.chars := by
    rw [text, ← List.append_assoc]
    exact Bytes.length_le_append _ rest
  have start : Bytes.length (front ++ gap) ≤ Bytes.length (front ++ gap ++ w) :=
    Bytes.length_le_append _ w
  have ascends := LineTable.lineOf_mono source.chars start
  have crosses := @lineOf_lt_iff_lone (front ++ gap) w rest (feed_not_mem_lexeme mem)
  rw [← text] at crosses
  rw [answer, span, place_reply]
  change (source.lineCol _).line = (source.lineCol _).line ↔ _
  rw [source.line_lineCol stop, source.line_lineCol (Nat.le_trans start stop)]
  constructor
  · intro same o lone
    refine Bool.eq_false_iff.mpr fun inside => ?_
    have less := crosses.mpr ⟨o, lone, Span.contains_iff.mp inside⟩
    omega
  · intro none
    by_contra differ
    obtain ⟨o, lone, inside⟩ := crosses.mp (by omega)
    exact Bool.eq_false_iff.mp (none o lone) (Span.contains_iff.mpr inside)

/-- The end marker keeps to its line, whatever stands before it. -/
theorem same_line_of_isEnd (h : HasRead source keywords front t)
    (short : Bytes.length source.chars < 2 ^ 32) (ended : isEnd t.next.1 = true) :
    (place t.next.1).first.line = (place t.next.1).last.line := by
  rcases h.reply_cases short with ⟨answer, -⟩ | ⟨-, -, -, -, -, -, -, goes, -⟩
  · rw [answer]
    rfl
  · rw [goes] at ended
    cases ended

theorem keepsToLines_of_paired (short : Bytes.length source.chars < 2 ^ 32)
    (paired : ∀ o, ¬ LoneReturnAt source.chars o) : KeepsToLines source keywords := by
  constructor
  · intro n
    obtain ⟨front, read⟩ := hasRead_after source keywords n
    cases ends : isEnd ((ofSource source keywords).after n).next.1 with
    | true => exact same_line_of_isEnd read short ends
    | false => exact (same_line_iff read short ends).mpr fun o lone => absurd lone (paired o)
  · intro n front w rest skips
    exact (withinLine_comment_iff skips).mpr fun o lone => absurd lone (paired o)

/-- What is read, and what is skipped as a comment, leaves its line at lone carriage returns and
nowhere else: a token or an error by one that is in it, and a comment by one that is not its last
character. So all keep to the lines of a text in which a line feed follows each carriage return. -/
theorem pieces_leave_lines_at_lone_returns (source : Source) (keywords : List String)
    (short : Bytes.length source.chars < 2 ^ 32) :
    (∀ n, let r := ((ofSource source keywords).after n).next.1
      (isEnd r = true → (place r).first.line = (place r).last.line) ∧
      (isEnd r = false → ((place r).first.line = (place r).last.line ↔
        ∀ o, LoneReturnAt source.chars o → (span r).contains o = false))) ∧
    (∀ n front w rest, SkipsComment source keywords n front w rest →
      let t := (ofSource source keywords).after n
      skipBlank false t.offset t.rest = skipBlank false (Bytes.length (front ++ w)) rest ∧
      (source.WithinLine ⟨Bytes.length front, Bytes.length (front ++ w)⟩ ↔
        ∀ o, LoneReturnAt source.chars o → Bytes.length front ≤ o →
          Bytes.length (front ++ w) ≤ o + 1)) ∧
    ((∀ o, ¬ LoneReturnAt source.chars o) → KeepsToLines source keywords) := by
  refine ⟨fun n => ?_, fun n front w rest skips => ?_, keepsToLines_of_paired short⟩
  · obtain ⟨front, read⟩ := hasRead_after source keywords n
    exact ⟨same_line_of_isEnd read short, same_line_iff read short⟩
  · exact ⟨skips.goes_on, withinLine_comment_iff skips⟩

end

def twoReturns : Source := .ofText "t" "\"a\rb\" // c\r\nd"

theorem two_returns_leave_one_line :
    Bytes.length twoReturns.chars < 2 ^ 32 ∧
      (∀ n, let r := ((ofSource twoReturns []).after n).next.1
        (isEnd r = true → (place r).first.line = (place r).last.line) ∧
        (isEnd r = false → ((place r).first.line = (place r).last.line ↔
          ∀ o, LoneReturnAt twoReturns.chars o → (span r).contains o = false))) ∧
      (∀ n front w rest, SkipsComment twoReturns [] n front w rest →
        let t := (ofSource twoReturns []).after n
        skipBlank false t.offset t.rest = skipBlank false (Bytes.length (front ++ w)) rest ∧
        (twoReturns.WithinLine ⟨Bytes.length front, Bytes.length (front ++ w)⟩ ↔
          ∀ o, LoneReturnAt twoReturns.chars o → Bytes.length front ≤ o →
            Bytes.length (front ++ w) ≤ o + 1)) ∧
      ((∀ o, ¬ LoneReturnAt twoReturns.chars o) → KeepsToLines twoReturns []) := by
  have short : Bytes.length twoReturns.chars < 2 ^ 32 := by decide +kernel
  exact ⟨short, pieces_leave_lines_at_lone_returns twoReturns [] short⟩

example : ((ofSource twoReturns []).replies 2).map
    (fun r => ((place r).first.line, (place r).last.line)) = [(0, 1), (2, 2)] := by decide +kernel

def hiddenWord : Source := .ofText "t" "// a\rb"

/-- The comment goes on over the end of its line, and the word is not read. -/
theorem hidden_word_is_skipped :
    Bytes.length hiddenWord.chars < 2 ^ 32 ∧ ¬ KeepsToLines hiddenWord [] := by
  have chars : hiddenWord.chars = '/' :: '/' :: [' ', 'a', '\r', 'b'] := by decide +kernel
  have size : Bytes.length hiddenWord.chars = 6 := by decide +kernel
  have second : hiddenWord.table.lineStart? 1 = some 5 := by decide +kernel
  refine ⟨by omega, fun keeps => ?_⟩
  have wins : Rule.comment.Wins hiddenWord.chars hiddenWord.chars := by
    rw [chars]
    exact wins_comment [' ', 'a', '\r', 'b']
  have skips : SkipsComment hiddenWord [] 0 [] hiddenWord.chars [] := by
    refine ⟨by simp, ?_, ?_⟩
    · rw [List.append_nil]
      exact .nothing
    · rw [List.append_nil]
      exact wins
  have within : 6 ≤ 5 := size ▸ keeps.comment 0 [] _ [] skips 1 5 second (by decide)
  omega

end Tokenizer

end Lockstep
