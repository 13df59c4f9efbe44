import Lockstep.Token.Tokenizer
import Mathlib.Algebra.Group.Nat.Defs

set_option autoImplicit false

namespace Lockstep

namespace Bytes

theorem split?_append (front back : List Char) :
    split? (length front) (front ++ back) = some (front, back) := by
  induction front with
  | nil =>
    cases back with
    | nil => rfl
    | cons c back => rfl
  | cons c front ih =>
    obtain ⟨n, size⟩ : ∃ n, c.utf8Size = n + 1 :=
      Nat.exists_eq_succ_of_ne_zero (Nat.ne_of_gt c.utf8Size_pos)
    have whole : length (c :: front) = n + length front + 1 := by
      simp only [length, size]
      omega
    have fits : c.utf8Size ≤ n + length front + 1 := by omega
    have left : n + length front + 1 - c.utf8Size = length front := by omega
    rw [whole, List.cons_append, split?, if_pos fits, left, ih]
    rfl

theorem slice?_append (front middle back : List Char) :
    slice? (length front) (length (front ++ middle)) (front ++ (middle ++ back)) = some middle := by
  rw [slice?, drop?_eq_split?, split?_append, length_append, Nat.add_sub_cancel_left]
  simp only [Option.map_some, Option.bind_some, take?, split?_append]

end Bytes

/-- Text with nothing to read in it: blanks, and comments that run up to a line feed. A comment that
is not closed by one is the last thing in the text. -/
inductive Skipped : (atEnd : Bool) → List Char → Prop where
  | nothing {atEnd : Bool} : Skipped atEnd []
  | blank {atEnd : Bool} {c : Char} {cs : List Char}
      (separates : c ∈ [' ', '\t', '\r', '\n', '\x0c']) (more : Skipped atEnd cs) :
    Skipped atEnd (c :: cs)
  | comment {atEnd : Bool} {body cs : List Char} (line : '\n' ∉ body)
      (more : Skipped atEnd ('\n' :: cs)) :
    Skipped atEnd ('/' :: '/' :: (body ++ '\n' :: cs))
  | lastComment {body : List Char} (line : '\n' ∉ body) : Skipped true ('/' :: '/' :: body)

theorem mem_blanks_of_isBlank {c : Char} (h : isBlank c = true) :
    c ∈ [' ', '\t', '\r', '\n', '\x0c'] := by
  simpa [isBlank, or_assoc] using h

def Commented (atEnd : Bool) (gap : List Char) : Prop :=
  (∃ body cs, gap = body ++ '\n' :: cs ∧ '\n' ∉ body ∧ Skipped atEnd ('\n' :: cs)) ∨
    (atEnd = true ∧ '\n' ∉ gap)

namespace Commented

variable {atEnd : Bool} {c : Char} {gap : List Char}

theorem cons (other : c ≠ '\n') (h : Commented atEnd gap) : Commented atEnd (c :: gap) := by
  have apart : '\n' ≠ c := other.symm
  rcases h with ⟨body, cs, rfl, line, more⟩ | ⟨ends, line⟩
  · exact .inl ⟨c :: body, cs, rfl, List.not_mem_cons_of_ne_of_not_mem apart line, more⟩
  · exact .inr ⟨ends, List.not_mem_cons_of_ne_of_not_mem apart line⟩

theorem skipped (h : Commented atEnd gap) : Skipped atEnd ('/' :: '/' :: gap) := by
  rcases h with ⟨body, cs, rfl, line, more⟩ | ⟨rfl, line⟩
  · exact .comment line more
  · exact .lastComment line

theorem of_cons (other : c ≠ '\n') (h : Commented atEnd (c :: gap)) : Commented atEnd gap := by
  rcases h with ⟨body, cs, joined, line, more⟩ | ⟨ends, line⟩
  · cases body with
    | nil => exact absurd (List.cons.inj joined).1 other
    | cons d body =>
      exact .inl ⟨body, cs, (List.cons.inj joined).2, fun mem => line (List.mem_cons_of_mem d mem),
        more⟩
  · exact .inr ⟨ends, fun mem => line (List.mem_cons_of_mem c mem)⟩

theorem opened {rest : List Char} (slash : (gap ++ rest).head? = some '/')
    (h : Commented rest.isEmpty gap) : Skipped rest.isEmpty ('/' :: gap) := by
  cases gap with
  | nil =>
    rcases h with ⟨body, cs, joined, -, -⟩ | ⟨ends, -⟩
    · simp at joined
    · rw [List.isEmpty_iff.mp ends] at slash
      cases slash
  | cons c gap =>
    obtain rfl : c = '/' := Option.some.inj slash
    exact (h.of_cons (by decide)).skipped

end Commented

/-- What is skipped from `offset` on is the text up to where it goes on; a comment that is open is
skipped first. -/
theorem skipBlank_gap (inComment : Bool) (offset : Nat) (cs : List Char) :
    ∃ gap, cs = gap ++ (skipBlank inComment offset cs).2 ∧
      (skipBlank inComment offset cs).1 = offset + Bytes.length gap ∧
      if inComment then Commented (skipBlank inComment offset cs).2.isEmpty gap
      else Skipped (skipBlank inComment offset cs).2.isEmpty gap := by
  fun_induction skipBlank inComment offset cs with
  | case1 inComment offset =>
    refine ⟨[], rfl, rfl, ?_⟩
    cases inComment with
    | false => exact .nothing
    | true => exact .inr ⟨rfl, List.not_mem_nil⟩
  | case2 offset c cs ih =>
    obtain ⟨gap, joined, size, skipped⟩ := ih
    refine ⟨c :: gap, by rw [List.cons_append, ← joined], ?_, ?_⟩
    · rw [size, Bytes.length, Nat.add_assoc]
    · by_cases feed : c = '\n'
      · subst feed
        exact .inl ⟨[], gap, rfl, List.not_mem_nil, .blank (by decide) skipped⟩
      · simp only [bne_iff_ne, ne_eq, feed, not_false_eq_true, ↓reduceIte] at skipped
        exact skipped.cons feed
  | case3 inComment offset c cs inside separates ih =>
    obtain ⟨gap, joined, size, skipped⟩ := ih
    refine ⟨c :: gap, by rw [List.cons_append, ← joined], ?_, ?_⟩
    · rw [size, Bytes.length, Nat.add_assoc]
    · rw [if_neg inside]
      exact .blank (mem_blanks_of_isBlank separates) skipped
  | case4 inComment offset c cs inside _ slashes ih =>
    obtain ⟨gap, joined, size, skipped⟩ := ih
    simp only [Bool.and_eq_true, beq_iff_eq] at slashes
    obtain ⟨rfl, slash⟩ := slashes
    refine ⟨'/' :: gap, by rw [List.cons_append, ← joined], ?_, ?_⟩
    · rw [size, Bytes.length, Nat.add_assoc]
    · rw [if_neg inside]
      rw [joined] at slash
      exact Commented.opened slash skipped
  | case5 inComment offset c cs inside _ _ =>
    refine ⟨[], rfl, rfl, ?_⟩
    rw [if_neg inside]
    exact .nothing

namespace Tokenizer

def replies : Nat → Tokenizer → List (Except LexError Token)
  | 0, _ => []
  | n + 1, t => t.next.1 :: replies n t.next.2

def place : Except LexError Token → Position
  | .ok token => token.position
  | .error e => e.position

def span (r : Except LexError Token) : Span := (place r).span

/-- A token is read from `chars`; unless it is a string they are its value. -/
def IsReadFrom (chars : List Char) : Except LexError Token → Prop
  | .ok token => token.isEof = false ∧ (token.kind ≠ .string → token.value.toList = chars)
  | .error _ => True

def lastAmong (start : Position) (replies : List (Except LexError Token)) : Position :=
  ((replies.filterMap Except.toOption).getLast?.map Token.position).getD start

/-- The text after `front` is cut into what is read for the replies and what is skipped. -/
inductive Cut (source : Source) :
    (front text : List Char) → List (Except LexError Token) → Prop where
  | done {front gap : List Char} (skipped : Skipped true gap) : Cut source front gap []
  | piece {front gap chars rest : List Char} {r : Except LexError Token}
      {replies : List (Except LexError Token)} (skipped : Skipped false gap) (some : chars ≠ [])
      (read : IsReadFrom chars r)
      (place_eq : place r = .ofSpan source ⟨Bytes.length (front ++ gap),
        Bytes.length (front ++ gap ++ chars)⟩)
      (more : Cut source (front ++ gap ++ chars) rest replies) :
    Cut source front (gap ++ (chars ++ rest)) (r :: replies)

theorem classify_value {keywords : List String} {l : Lexeme} {kind : Kind} {value : String}
    (h : classify keywords l = .ok (kind, value)) (other : kind ≠ .string) :
    value.toList = l.chars := by
  simp only [classify] at h
  split at h <;> cases h
  all_goals first
    | exact String.toList_ofList
    | exact absurd rfl other

/-- What a call does: it comes to the end of the text, or it reads the next piece. -/
theorem next_cases (t : Tokenizer) :
    (Skipped true t.rest ∧ t.next.1 = .ok (.eof (t.last.after 1)) ∧ t.next.2.rest = [] ∧
        t.next.2.last = t.last) ∨
      ∃ gap chars rest, t.rest = gap ++ (chars ++ rest) ∧ Skipped false gap ∧ chars ≠ [] ∧
        IsReadFrom chars t.next.1 ∧
        place t.next.1 = .ofSpan t.source ⟨Offset.clip (t.offset + Bytes.length gap),
          Offset.clip (t.offset + Bytes.length gap + Bytes.length chars)⟩ ∧
        t.next.2 = { t with
          offset := t.offset + Bytes.length gap + Bytes.length chars
          rest
          last := lastAmong t.last [t.next.1] } := by
  obtain ⟨gap, joined, size, skipped⟩ := skipBlank_gap false t.offset t.rest
  simp only [next]
  generalize skipBlank false t.offset t.rest = s at joined size skipped
  obtain ⟨start, rest⟩ := s
  simp only [Bool.false_eq_true, ↓reduceIte] at joined size skipped ⊢
  subst size
  cases read : Lexeme.read rest with
  | none =>
    obtain rfl := Lexeme.read_eq_none_iff.mp read
    rw [List.append_nil] at joined
    rw [joined]
    exact .inl ⟨skipped, rfl, rfl, rfl⟩
  | some lexeme =>
    have text := Lexeme.read_append read
    have some := Lexeme.chars_ne_nil_of_read read
    have more : rest.isEmpty = false := by
      rw [← text, List.isEmpty_eq_false_iff]
      exact List.append_ne_nil_of_left_ne_nil some _
    rw [more] at skipped
    refine .inr ⟨gap, lexeme.chars, lexeme.rest, by rw [text, joined], skipped, some, ?_⟩
    simp only
    cases classified : classify t.keywords lexeme with
    | error fault => exact ⟨trivial, rfl, rfl⟩
    | ok token =>
      obtain ⟨kind, value⟩ := token
      refine ⟨⟨?_, fun other => classify_value classified other⟩, rfl, rfl⟩
      exact beq_eq_false_iff_ne.mpr (classify_kind_ne_eof classified)

theorem lastAmong_cons (start : Position) (r : Except LexError Token)
    (replies : List (Except LexError Token)) :
    lastAmong start (r :: replies) = lastAmong (lastAmong start [r]) replies := by
  cases r with
  | error e => rfl
  | ok token =>
    simp only [lastAmong, List.filterMap_cons, List.filterMap_nil, Except.toOption,
      List.getLast?_cons, List.getLast?_nil, Option.map_some, Option.getD_some, Option.getD_none]
    cases (replies.filterMap Except.toOption).getLast? <;> rfl

theorem length_replies (n : Nat) (t : Tokenizer) : (t.replies n).length = n := by
  induction n generalizing t with
  | zero => rfl
  | succ n ih => rw [replies, List.length_cons, ih]

/-- At the end of the text there are only end markers, all of them at one place. -/
theorem replies_of_end {t : Tokenizer} (ended : t.rest = []) (n : Nat) :
    t.replies n = List.replicate n (.ok (.eof (t.last.after 1))) := by
  induction n generalizing t with
  | zero => rfl
  | succ n ih =>
    rcases t.next_cases with ⟨-, reply, ended', last⟩ | ⟨gap, chars, rest, text, -, some, -⟩
    · rw [replies, reply, ih ended', last, List.replicate_succ]
    · rw [ended] at text
      simp [some] at text

/-- The calls up to the first end marker cut the text; from then on there are end markers only. -/
theorem exists_cut (t : Tokenizer) {front : List Char} (read : t.offset = Bytes.length front)
    (short : Bytes.length (front ++ t.rest) ≤ Offset.limit) :
    ∃ n, Cut t.source front t.rest (t.replies n) ∧ ∀ m, t.replies (n + m) =
      t.replies n ++ List.replicate m (.ok (.eof ((lastAmong t.last (t.replies n)).after 1))) := by
  induction size : t.rest.length using Nat.strongRecOn generalizing t front with
  | ind left ih =>
    rcases t.next_cases with ⟨skipped, reply, ended, last⟩ |
      ⟨gap, chars, rest, text, skipped, some, isRead, place_eq, after⟩
    · refine ⟨0, .done skipped, ?_⟩
      intro m
      rw [Nat.zero_add]
      cases m with
      | zero => rfl
      | succ m =>
        have first : t.replies (m + 1) = t.next.1 :: t.next.2.replies m := rfl
        rw [first, reply, replies_of_end ended, last]
        rfl
    · have shorter : t.next.2.rest.length < left := by
        have pos := List.length_pos_iff.mpr some
        rw [← size, after, text]
        simp only [List.length_append]
        omega
      have start : t.offset + Bytes.length gap = Bytes.length (front ++ gap) := by
        rw [read, Bytes.length_append]
      have stop : t.offset + Bytes.length gap + Bytes.length chars =
          Bytes.length (front ++ gap ++ chars) := by
        rw [start, Bytes.length_append (front ++ gap)]
      have joined : front ++ t.rest = front ++ gap ++ chars ++ rest := by
        rw [text]
        simp only [List.append_assoc]
      rw [joined, Bytes.length_append (front ++ gap ++ chars)] at short
      have startFits : Bytes.length (front ++ gap) ≤ Offset.limit := by omega
      have stopFits : Bytes.length (front ++ gap ++ chars) ≤ Offset.limit := by omega
      rw [stop, start, Offset.clip_of_le startFits, Offset.clip_of_le stopFits] at place_eq
      have read' : t.next.2.offset = Bytes.length (front ++ gap ++ chars) := by rw [after, ← stop]
      have short' : Bytes.length (front ++ gap ++ chars ++ t.next.2.rest) ≤ Offset.limit := by
        rw [after, Bytes.length_append]
        exact short
      obtain ⟨n, cut, later⟩ := ih _ shorter t.next.2 read' short' rfl
      have first : t.replies (n + 1) = t.next.1 :: t.next.2.replies n := rfl
      refine ⟨n + 1, ?_, ?_⟩
      · rw [first, text]
        refine .piece skipped some isRead place_eq ?_
        have source_eq : t.next.2.source = t.source := by rw [after]
        have rest_eq : t.next.2.rest = rest := by rw [after]
        rw [source_eq, rest_eq] at cut
        exact cut
      · intro m
        have last : t.next.2.last = lastAmong t.last [t.next.1] := by rw [after]
        rw [first, lastAmong_cons, ← last, Nat.add_right_comm, replies, later m, List.cons_append]

section

variable {source : Source} {front text : List Char} {rs : List (Except LexError Token)}

theorem Cut.piece_of_mem (cut : Cut source front text rs) (joined : source.chars = front ++ text) :
    ∀ r ∈ rs, ∃ before chars after, source.chars = before ++ (chars ++ after) ∧ chars ≠ [] ∧
      IsReadFrom chars r ∧
      place r = .ofSpan source ⟨Bytes.length before, Bytes.length (before ++ chars)⟩ ∧
      Bytes.length front ≤ Bytes.length before := by
  induction cut with
  | done => simp
  | @piece front gap chars rest r rs skipped some read place_eq more ih =>
    have text : source.chars = front ++ gap ++ (chars ++ rest) := by
      rw [joined, List.append_assoc]
    intro r' mem
    rcases List.mem_cons.mp mem with rfl | later
    · refine ⟨front ++ gap, chars, rest, text, some, read, place_eq, ?_⟩
      rw [Bytes.length_append]
      omega
    · obtain ⟨before, chars', after, text', some', read', place_eq', behind⟩ :=
        ih (by rw [text, List.append_assoc (front ++ gap)]) r' later
      refine ⟨before, chars', after, text', some', read', place_eq', ?_⟩
      simp only [Bytes.length_append] at behind ⊢
      omega

theorem Cut.ordered (cut : Cut source front text rs) (joined : source.chars = front ++ text) :
    rs.Pairwise fun r s => (span r).stop ≤ (span s).start := by
  induction cut with
  | done => exact .nil
  | @piece front gap chars rest r rs skipped some read place_eq more ih =>
    have text : source.chars = front ++ gap ++ chars ++ rest := by
      rw [joined]
      simp only [List.append_assoc]
    refine .cons ?_ (ih text)
    intro s mem
    obtain ⟨before, chars', after, -, -, -, place_eq', behind⟩ := more.piece_of_mem text s mem
    rw [span, span, place_eq, place_eq']
    exact behind

def stopOf (start : Nat) (rs : List (Except LexError Token)) : Nat :=
  (rs.getLast?.map fun r => (span r).stop).getD start

def startOf (rs : List (Except LexError Token)) (stop : Nat) : Nat :=
  (rs.head?.map fun r => (span r).start).getD stop

theorem stopOf_cons (start : Nat) (r : Except LexError Token) (rs : List (Except LexError Token)) :
    stopOf start (r :: rs) = stopOf (span r).stop rs := by
  simp only [stopOf, List.getLast?_cons]
  cases rs.getLast? <;> rfl

theorem Cut.gap (cut : Cut source front text rs) (joined : source.chars = front ++ text)
    {earlier later : List (Except LexError Token)} (same : rs = earlier ++ later) :
    ∃ gap, Bytes.slice? (stopOf (Bytes.length front) earlier)
        (startOf later (Bytes.length source.chars)) source.chars = some gap ∧
      Skipped later.isEmpty gap := by
  induction cut generalizing earlier with
  | @done front gap skipped =>
    obtain ⟨rfl, rfl⟩ := List.append_eq_nil_iff.mp same.symm
    refine ⟨gap, ?_, skipped⟩
    have slice := Bytes.slice?_append front gap []
    rw [List.append_nil, ← joined] at slice
    exact slice
  | @piece front gap chars rest r rs skipped some read place_eq more ih =>
    cases earlier with
    | nil =>
      subst same
      refine ⟨gap, ?_, skipped⟩
      have slice := Bytes.slice?_append front gap (chars ++ rest)
      rw [← joined] at slice
      simp only [startOf, List.head?_cons, Option.map_some, Option.getD_some, span, place_eq]
      exact slice
    | cons r' earlier =>
      obtain ⟨rfl, tail⟩ := List.cons.inj same
      have text : source.chars = front ++ gap ++ chars ++ rest := by
        rw [joined]
        simp only [List.append_assoc]
      have stop : (span r).stop = Bytes.length (front ++ gap ++ chars) := by
        rw [span, place_eq]
        rfl
      rw [stopOf_cons, stop]
      exact ih text tail

theorem Cut.length_le (cut : Cut source front text rs) : rs.length ≤ Bytes.length text := by
  induction cut with
  | done => exact Nat.zero_le _
  | @piece front gap chars rest r rs skipped some read place_eq more ih =>
    have pos := Bytes.length_pos some
    simp only [Bytes.length_append, List.length_cons]
    omega

end

structure Partitions (source : Source) (rs : List (Except LexError Token)) : Prop where
  /-- Each stands for a piece of the text that is not empty and is cut where characters end. -/
  piece : ∀ r ∈ rs, (span r).start < (span r).stop ∧
    (span r).stop ≤ Bytes.length source.chars ∧ place r = .ofSpan source (span r) ∧
    ∃ chars, Bytes.slice? (span r).start (span r).stop source.chars = some chars ∧
      IsReadFrom chars r
  ordered : rs.Pairwise fun r s => (span r).stop ≤ (span s).start
  /-- Before, between and after the pieces there is nothing to read. -/
  gap : ∀ earlier later, rs = earlier ++ later → ∃ gap,
    Bytes.slice? (stopOf 0 earlier) (startOf later (Bytes.length source.chars)) source.chars =
      some gap ∧ Skipped later.isEmpty gap

theorem Cut.partitions {source : Source} {rs : List (Except LexError Token)}
    (cut : Cut source [] source.chars rs) : Partitions source rs := by
  refine ⟨?_, cut.ordered rfl, fun earlier later same => cut.gap rfl same⟩
  intro r mem
  obtain ⟨before, chars, after, text, some, read, place_eq, -⟩ := cut.piece_of_mem rfl r mem
  have span_eq : span r = ⟨Bytes.length before, Bytes.length (before ++ chars)⟩ :=
    congrArg Position.span place_eq
  have size := congrArg Bytes.length text
  have pos := Bytes.length_pos some
  simp only [Bytes.length_append] at size
  rw [span_eq]
  refine ⟨?_, ?_, place_eq, chars, ?_, read⟩
  · simp only [Bytes.length_append]
    omega
  · simp only [Bytes.length_append]
    omega
  · rw [text]
    exact Bytes.slice?_append before chars after

/-- A text of less than `2 ^ 32` bytes is cut into tokens and errors, in no more calls than it has
bytes; every later call gives the end marker, one column after the last token. -/
theorem replies_partition (source : Source) (keywords : List String)
    (short : Bytes.length source.chars < 2 ^ 32) :
    let t := ofSource source keywords
    ∃ n ≤ Bytes.length source.chars, Partitions source (t.replies n) ∧ ∀ m, t.replies (n + m) =
      t.replies n ++ List.replicate m
        (.ok (.eof ((lastAmong (Position.startOf source) (t.replies n)).after 1))) := by
  intro t
  have fits : Bytes.length ([] ++ t.rest) ≤ Offset.limit := Nat.le_of_lt_succ short
  obtain ⟨n, cut, later⟩ := t.exists_cut rfl fits
  have few := cut.length_le
  rw [length_replies] at few
  exact ⟨n, few, cut.partitions, later⟩

def openString : Source := .ofText "t" "a =\"b // c\n"

theorem openString_partition :
    Bytes.length openString.chars < 2 ^ 32 ∧
      ∃ n ≤ Bytes.length openString.chars,
        Partitions openString ((ofSource openString []).replies n) ∧
        ∀ m, (ofSource openString []).replies (n + m) =
          (ofSource openString []).replies n ++ List.replicate m
            (.ok (.eof ((lastAmong (Position.startOf openString)
              ((ofSource openString []).replies n)).after 1))) := by
  have short : Bytes.length openString.chars < 2 ^ 32 := by decide +kernel
  exact ⟨short, replies_partition openString [] short⟩

example : ((ofSource openString []).replies 5).map span =
    [⟨0, 1⟩, ⟨2, 3⟩, ⟨3, 10⟩, ⟨3, 4⟩, ⟨3, 4⟩] := by decide +kernel

end Tokenizer

end Lockstep
