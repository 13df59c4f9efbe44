import Lockstep.Proofs.LongestMatch

set_option autoImplicit false

namespace Lockstep

namespace Span

def shifted (n : Nat) (s : Span) : Span := ⟨s.start + n, s.stop + n⟩

end Span

theorem skipBlank_offset (inComment : Bool) (offset : Nat) (cs : List Char) :
    (skipBlank inComment offset cs).1 + Bytes.length (skipBlank inComment offset cs).2 =
      offset + Bytes.length cs := by
  obtain ⟨gap, joined, size, -⟩ := skipBlank_gap inComment offset cs
  have whole := congrArg Bytes.length joined
  rw [Bytes.length_append] at whole
  omega

theorem skipBlank_add (inComment : Bool) (offset n : Nat) (cs : List Char) :
    skipBlank inComment (offset + n) cs =
      ((skipBlank inComment offset cs).1 + n, (skipBlank inComment offset cs).2) := by
  fun_induction skipBlank inComment offset cs with
  | case1 => rfl
  | case2 offset c cs ih =>
    rw [skipBlank, if_pos rfl, Nat.add_right_comm]
    exact ih
  | case3 inComment offset c cs inside blank ih =>
    rw [skipBlank, if_neg inside, if_pos blank, Nat.add_right_comm]
    exact ih
  | case4 inComment offset c cs inside notBlank slashes ih =>
    rw [skipBlank, if_neg inside, if_neg notBlank, if_pos slashes, Nat.add_right_comm]
    exact ih
  | case5 inComment offset c cs inside notBlank noSlashes =>
    rw [skipBlank, if_neg inside, if_neg notBlank, if_neg noSlashes]

theorem skipBlank_feed (inComment : Bool) (offset : Nat) (more : List Char) :
    skipBlank inComment offset ('\n' :: more) = skipBlank false (offset + 1) more := by
  cases inComment <;> rfl

theorem skipBlank_append_feed (inComment : Bool) (offset : Nat) (cs more : List Char) :
    skipBlank inComment offset (cs ++ '\n' :: more) =
      if (skipBlank inComment offset cs).2 = [] then
        skipBlank false ((skipBlank inComment offset cs).1 + 1) more
      else
        ((skipBlank inComment offset cs).1, (skipBlank inComment offset cs).2 ++ '\n' :: more) := by
  fun_induction skipBlank inComment offset cs with
  | case1 inComment offset => exact skipBlank_feed inComment offset more
  | case2 offset c cs ih =>
    rw [List.cons_append, skipBlank, if_pos rfl]
    exact ih
  | case3 inComment offset c cs inside blank ih =>
    rw [List.cons_append, skipBlank, if_neg inside, if_pos blank]
    exact ih
  | case4 inComment offset c cs inside notBlank slashes ih =>
    have slashes' : (c == '/' && (cs ++ '\n' :: more).head? == some '/') = true := by
      cases cs <;> simp_all
    rw [List.cons_append, skipBlank, if_neg inside, if_neg notBlank, if_pos slashes']
    exact ih
  | case5 inComment offset c cs inside notBlank noSlashes =>
    have noSlashes' : ¬ (c == '/' && (cs ++ '\n' :: more).head? == some '/') = true := by
      cases cs <;> simp_all
    rw [List.cons_append, skipBlank, if_neg inside, if_neg notBlank, if_neg noSlashes',
      if_neg (List.cons_ne_nil c cs)]

namespace Lexeme

variable {p : Char → Bool}

theorem takeWhile_append_feed (feed : p '\n' = false) (cs more : List Char) :
    (cs ++ '\n' :: more).takeWhile p = cs.takeWhile p := by
  induction cs with
  | nil => simp [feed]
  | cons c cs ih => simp only [List.cons_append, List.takeWhile_cons, ih]

theorem dropWhile_append_feed (feed : p '\n' = false) (cs more : List Char) :
    (cs ++ '\n' :: more).dropWhile p = cs.dropWhile p ++ '\n' :: more := by
  induction cs with
  | nil => simp [feed]
  | cons c cs ih =>
    simp only [List.cons_append, List.dropWhile_cons, ih]
    split <;> rfl

def followedBy (l : Lexeme) (more : List Char) : Lexeme := { l with rest := l.rest ++ '\n' :: more }

theorem number_append_feed (cs more : List Char) :
    number (cs ++ '\n' :: more) = (number cs).followedBy more := by
  have digit : Char.isDigit '\n' = false := by decide
  simp only [number, takeWhile_append_feed digit, dropWhile_append_feed digit]
  cases cs.dropWhile Char.isDigit with
  | nil => rfl
  | cons c rest =>
    simp only [List.cons_append]
    split
    · next point =>
      cases point
      simp only [takeWhile_append_feed digit, dropWhile_append_feed digit]
      split <;> rfl
    · next other =>
      split
      · next point =>
        cases point
        exact absurd rfl (other _)
      · rfl

theorem Unclosed.append_feed {rest : List Char} (h : Unclosed rest) (more : List Char) :
    Unclosed (rest ++ '\n' :: more) := by
  cases h with
  | atEnd => exact .feed more
  | feed rest => exact .feed (rest ++ '\n' :: more)
  | backslash => exact .backslashFeed more
  | backslashFeed rest => exact .backslashFeed (rest ++ '\n' :: more)

theorem quoted_append_feed (cs more : List Char) :
    quoted (cs ++ '\n' :: more) = (quoted cs).followedBy more := by
  obtain ⟨body, items, ⟨rest, rfl⟩ | ⟨rest, rfl, unclosed⟩⟩ := quoted_cases cs
  · rw [quoted_closed items, List.append_assoc, List.cons_append, quoted_closed items]
    rfl
  · rw [quoted_open items unclosed, List.append_assoc,
      quoted_open items (unclosed.append_feed more)]
    rfl

/-- No lexeme reaches over a line feed. -/
theorem read_append_feed {cs : List Char} {l : Lexeme} (h : read cs = some l) (more : List Char) :
    read (cs ++ '\n' :: more) = some (l.followedBy more) := by
  cases cs with
  | nil => cases h
  | cons c cs =>
    have part : isWordPart '\n' = false := by decide
    simp only [read, List.cons_append] at h ⊢
    split at h
    · next start =>
      cases h
      rw [if_pos start, takeWhile_append_feed part, dropWhile_append_feed part]
      rfl
    · next notStart =>
      rw [if_neg notStart]
      split at h
      · next digit =>
        cases h
        rw [if_pos digit, ← number_append_feed]
        rfl
      · next notDigit =>
        rw [if_neg notDigit]
        split at h
        · next mark =>
          cases h
          rw [if_pos mark, quoted_append_feed]
        · next notMark =>
          cases h
          rw [if_neg notMark]
          rfl

end Lexeme

namespace Tokenizer

def seen : Except LexError Token → Except LexFault (Kind × String) × Span
  | .ok token => (.ok (token.kind, token.value), token.position.span)
  | .error e => (.error e.fault, e.position.span)

theorem seen_reply (position : Position) (what : Except LexFault (Kind × String)) :
    seen (reply position what) = (what, position.span) := by
  cases what <;> rfl

def furtherOn (n : Nat) (s : Except LexFault (Kind × String) × Span) :
    Except LexFault (Kind × String) × Span :=
  (s.1, s.2.shifted n)

def isEnd : Except LexError Token → Bool
  | .ok token => token.isEof
  | .error _ => false

theorem isEnd_reply {keywords : List String} {l : Lexeme} {position : Position} :
    isEnd (reply position (classify keywords l)) = false := by
  cases classified : classify keywords l with
  | ok what => exact beq_eq_false_iff_ne.mpr (classify_kind_ne_eof classified)
  | error fault => rfl

/-- A reply that is not the end marker shortens the rest of the text, even if it is an error. -/
theorem rest_length_lt_of_going {t : Tokenizer} (going : isEnd t.next.1 = false) :
    t.next.2.rest.length < t.rest.length := by
  cases found : Lexeme.read (skipBlank false t.offset t.rest).2 with
  | none =>
    rw [next_of_read_none found] at going
    cases going
  | some l =>
    obtain ⟨r, -, step⟩ := next_of_read_some found
    rw [step]
    exact Nat.lt_of_lt_of_le (Lexeme.rest_length_lt_of_read found)
      (skipBlank_length_le false t.offset t.rest)

/-- The replies to call after call, up to the first end marker. -/
def repliesToEnd (t : Tokenizer) : List (Except LexError Token) :=
  if ended : isEnd t.next.1 then []
  else
    have := rest_length_lt_of_going (Bool.eq_false_iff.mpr ended)
    t.next.1 :: repliesToEnd t.next.2
termination_by t.rest.length

def scan (keywords : List String) (offset : Nat) (cs : List Char) :
    List (Except LexFault (Kind × String) × Span) :=
  match found : Lexeme.read (skipBlank false offset cs).2 with
  | none => []
  | some l =>
    have : l.rest.length < cs.length :=
      Nat.lt_of_lt_of_le (Lexeme.rest_length_lt_of_read found) (skipBlank_length_le false offset cs)
    let start := (skipBlank false offset cs).1
    let stop := start + Bytes.length l.chars
    (classify keywords l, ⟨start, stop⟩) :: scan keywords stop l.rest
termination_by cs.length

section

variable {keywords : List String} {offset : Nat} {cs : List Char}

theorem scan_eq (keywords : List String) (offset : Nat) (cs : List Char) :
    scan keywords offset cs =
      match Lexeme.read (skipBlank false offset cs).2 with
      | none => []
      | some l =>
        (classify keywords l, ⟨(skipBlank false offset cs).1,
          (skipBlank false offset cs).1 + Bytes.length l.chars⟩) ::
          scan keywords ((skipBlank false offset cs).1 + Bytes.length l.chars) l.rest := by
  rw [scan]
  split
  · next found => simp only [found]
  · next found => simp only [found]

theorem scan_of_none (found : Lexeme.read (skipBlank false offset cs).2 = none) :
    scan keywords offset cs = [] := by
  rw [scan_eq, found]

theorem scan_of_some {l : Lexeme} (found : Lexeme.read (skipBlank false offset cs).2 = some l) :
    scan keywords offset cs =
      (classify keywords l, ⟨(skipBlank false offset cs).1,
        (skipBlank false offset cs).1 + Bytes.length l.chars⟩) ::
        scan keywords ((skipBlank false offset cs).1 + Bytes.length l.chars) l.rest := by
  rw [scan_eq, found]

theorem scan_congr {offset' : Nat} {cs' : List Char}
    (same : skipBlank false offset cs = skipBlank false offset' cs') :
    scan keywords offset cs = scan keywords offset' cs' := by
  rw [scan_eq keywords offset cs, scan_eq keywords offset' cs', same]

/-- What is read depends on the text alone, and its place on where the text starts. -/
theorem scan_add (keywords : List String) (offset n : Nat) (cs : List Char) :
    scan keywords (offset + n) cs = (scan keywords offset cs).map (furtherOn n) := by
  induction offset, cs using scan.induct with
  | case1 offset cs found =>
    have moved := skipBlank_add false offset n cs
    have found' : Lexeme.read (skipBlank false (offset + n) cs).2 = none := by rw [moved, found]
    rw [scan_of_none found, scan_of_none found', List.map_nil]
  | case2 offset cs l found _ start stop ih =>
    have moved := skipBlank_add false offset n cs
    have found' : Lexeme.read (skipBlank false (offset + n) cs).2 = some l := by rw [moved, found]
    rw [scan_of_some found, scan_of_some found', moved, List.map_cons, ← ih,
      Nat.add_right_comm (skipBlank false offset cs).1 n]
    rfl

theorem scan_append_feed (keywords : List String) (offset : Nat) (cs more : List Char) :
    scan keywords offset (cs ++ '\n' :: more) =
      scan keywords offset cs ++ scan keywords (offset + Bytes.length cs + 1) more := by
  induction offset, cs using scan.induct with
  | case1 offset cs found =>
    have skipped := skipBlank_append_feed false offset cs more
    have span := skipBlank_offset false offset cs
    have none := Lexeme.read_eq_none_iff.mp found
    rw [none] at span
    have stop : (skipBlank false offset cs).1 = offset + Bytes.length cs := span
    rw [if_pos none, stop] at skipped
    rw [scan_of_none found, List.nil_append, scan_congr skipped]
  | case2 offset cs l found _ start stop ih =>
    have skipped := skipBlank_append_feed false offset cs more
    have span := skipBlank_offset false offset cs
    have goesOn : (skipBlank false offset cs).2 ≠ [] := by
      intro none
      cases found.symm.trans (Lexeme.read_eq_none_iff.mpr none)
    rw [if_neg goesOn] at skipped
    have found' : Lexeme.read (skipBlank false offset (cs ++ '\n' :: more)).2 =
        some (l.followedBy more) := by
      rw [skipped]
      exact Lexeme.read_append_feed found more
    have pieces := congrArg Bytes.length (Lexeme.read_append found)
    rw [Bytes.length_append] at pieces
    have whole : stop + Bytes.length l.rest = offset + Bytes.length cs := by
      simp only [stop, start]
      omega
    rw [whole] at ih
    rw [scan_of_some found, scan_of_some found', skipped, List.cons_append, ← ih]
    rfl

end

theorem map_seen_repliesToEnd (t : Tokenizer)
    (fits : t.offset + Bytes.length t.rest ≤ Offset.limit) :
    t.repliesToEnd.map seen = scan t.keywords t.offset t.rest := by
  induction offset_eq : t.offset, chars : t.rest using scan.induct generalizing t with
  | case1 offset cs found =>
    subst offset_eq chars
    have ended : isEnd t.next.1 = true := by
      rw [next_of_read_none found]
      rfl
    rw [repliesToEnd, dif_pos ended, scan_of_none found, List.map_nil]
  | case2 offset cs l found _ start stop ih =>
    subst offset_eq chars
    obtain ⟨r, answer, step⟩ := next_of_read_some found
    have going : isEnd t.next.1 = false := by
      rw [step, answer]
      exact isEnd_reply
    have span := skipBlank_offset false t.offset t.rest
    have pieces := congrArg Bytes.length (Lexeme.read_append found)
    rw [Bytes.length_append] at pieces
    have fits' : stop + Bytes.length l.rest ≤ Offset.limit := by
      simp only [stop, start]
      omega
    have later := ih t.next.2 (by rw [step]; exact fits') (by rw [step]) (by rw [step])
    rw [repliesToEnd, dif_neg (Bool.eq_false_iff.mp going), List.map_cons, later,
      scan_of_some found, step, answer, seen_reply, Offset.clip_of_le (by omega),
      Offset.clip_of_le (by omega)]
    rfl

/-- A line feed parts a text for good: what is read from the two sides together is what is read from
the one and, further on, from the other. -/
theorem line_feed_parts_the_text (first second whole : Source) (keywords : List String)
    (joined : whole.text = first.text ++ "\n" ++ second.text)
    (short : Bytes.length first.chars + Bytes.length second.chars < 2 ^ 32 - 1) :
    (ofSource whole keywords).repliesToEnd.map seen =
      (ofSource first keywords).repliesToEnd.map seen ++
        ((ofSource second keywords).repliesToEnd.map seen).map
          (furtherOn (Bytes.length first.chars + 1)) := by
  have chars : whole.chars = first.chars ++ '\n' :: second.chars := by
    simp [Source.chars, joined]
  have size : Bytes.length whole.chars =
      Bytes.length first.chars + (1 + Bytes.length second.chars) := by
    rw [chars, Bytes.length_append]
    rfl
  have read : ∀ s : Source, Bytes.length s.chars ≤ Offset.limit →
      (ofSource s keywords).repliesToEnd.map seen = scan keywords 0 s.chars := by
    intro s fits
    rw [← Nat.zero_add (Bytes.length s.chars)] at fits
    exact map_seen_repliesToEnd (ofSource s keywords) fits
  have limit : Offset.limit = 2 ^ 32 - 1 := rfl
  rw [read whole (by omega), read first (by omega), read second (by omega), chars,
    scan_append_feed, ← scan_add, Nat.zero_add, Nat.zero_add]

def openLine : Source := .ofText "first" "1.\n\"a\\"

def pointLine : Source := .ofText "second" ".5 \"b\" // c"

def bothLines : Source := .ofText "whole" "1.\n\"a\\\n.5 \"b\" // c"

theorem open_line_is_parted :
    bothLines.text = openLine.text ++ "\n" ++ pointLine.text ∧
      Bytes.length openLine.chars + Bytes.length pointLine.chars < 2 ^ 32 - 1 ∧
      (ofSource bothLines []).repliesToEnd.map seen =
        (ofSource openLine []).repliesToEnd.map seen ++
          ((ofSource pointLine []).repliesToEnd.map seen).map
            (furtherOn (Bytes.length openLine.chars + 1)) := by
  have joined : bothLines.text = openLine.text ++ "\n" ++ pointLine.text := by decide +kernel
  have short : Bytes.length openLine.chars + Bytes.length pointLine.chars < 2 ^ 32 - 1 := by
    decide +kernel
  exact ⟨joined, short, line_feed_parts_the_text openLine pointLine bothLines [] joined short⟩

end Tokenizer

end Lockstep
