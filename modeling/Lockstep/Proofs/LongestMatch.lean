import Lockstep.Proofs.LexicalRules

set_option autoImplicit false

open scoped Computability

namespace Lockstep

open Rule

/-- A text is read past pieces that the rules of blanks and of comments win. -/
inductive Skips : (text rest : List Char) → Prop where
  | nothing {text : List Char} : Skips text text
  | piece {r : Rule} {w text rest : List Char} (skipped : r = .blanks ∨ r = .comment)
      (wins : r.Wins w (w ++ text)) (more : Skips text rest) : Skips (w ++ text) rest

def AtLexeme : List Char → Prop
  | [] => True
  | c :: cs => isBlank c = false ∧ ¬ (c = '/' ∧ cs.head? = some '/')

section

variable {w : List Char}

theorem skipBlank_blanks (blanks : ∀ c ∈ w, isBlank c = true) (offset : Nat) (rest : List Char) :
    skipBlank false offset (w ++ rest) = skipBlank false (offset + Bytes.length w) rest := by
  induction w generalizing offset with
  | nil => rfl
  | cons c w ih =>
    obtain ⟨blank, others⟩ := List.forall_mem_cons.mp blanks
    rw [List.cons_append, skipBlank, if_neg Bool.false_ne_true, if_pos blank, ih others,
      Bytes.length, Nat.add_assoc]

/-- An open comment is read past up to a line feed, which may be taken as a blank. -/
theorem skipBlank_line (line : ∀ c ∈ w, (c != '\n') = true) {rest : List Char}
    (ends : ∀ c ∈ rest.head?, c = '\n') (offset : Nat) :
    skipBlank true offset (w ++ rest) = skipBlank false (offset + Bytes.length w) rest := by
  induction w generalizing offset with
  | nil =>
    cases rest with
    | nil => rfl
    | cons c rest =>
      obtain rfl := ends c rfl
      rfl
  | cons c w ih =>
    obtain ⟨other, others⟩ := List.forall_mem_cons.mp line
    rw [List.cons_append, skipBlank, if_pos rfl, other, ih others, Bytes.length, Nat.add_assoc]

theorem skipBlank_comment (offset : Nat) (cs : List Char) :
    skipBlank false offset ('/' :: '/' :: cs) =
      skipBlank false (offset + Bytes.length ('/' :: '/' :: cs.takeWhile (· != '\n')))
        (cs.dropWhile (· != '\n')) := by
  have joined := List.takeWhile_append_dropWhile (p := (· != '\n')) (l := cs)
  have line := mem_star_single.mp (mem_star_takeWhile (· != '\n') cs)
  have ends : ∀ c ∈ (cs.dropWhile (· != '\n')).head?, c = '\n' := by
    intro c first
    have stops := List.head?_dropWhile_not (· != '\n') cs
    rw [Option.mem_def.mp first] at stops
    simpa using stops
  have size : offset + Bytes.length ('/' :: '/' :: cs.takeWhile (· != '\n')) =
      offset + 1 + 1 + Bytes.length (cs.takeWhile (· != '\n')) := by
    simp only [Bytes.length, Nat.add_assoc]
    rfl
  have opens : skipBlank false offset ('/' :: '/' :: cs) = skipBlank true (offset + 1 + 1) cs := rfl
  rw [opens, size, ← skipBlank_line line ends, joined]

theorem skipBlank_cases (offset : Nat) (text : List Char) :
    (AtLexeme text ∧ (skipBlank false offset text).2 = text) ∨
      ∃ (r : Rule) (w rest : List Char), (r = .blanks ∨ r = .comment) ∧ text = w ++ rest ∧
        r.Wins w (w ++ rest) ∧
        skipBlank false offset (w ++ rest) = skipBlank false (offset + Bytes.length w) rest := by
  cases text with
  | nil => exact .inl ⟨trivial, rfl⟩
  | cons c cs =>
    by_cases blank : isBlank c = true
    · have joined := List.takeWhile_append_dropWhile (p := isBlank) (l := c :: cs)
      have wins : Wins .blanks ((c :: cs).takeWhile isBlank) (c :: cs) := wins_blanks blank
      have goes := skipBlank_blanks (mem_run.mp wins.mem).2 offset ((c :: cs).dropWhile isBlank)
      refine .inr ⟨.blanks, _, _, .inl rfl, joined.symm, ?_, goes⟩
      rw [joined]
      exact wins
    by_cases slashes : c = '/' ∧ cs.head? = some '/'
    · obtain ⟨rfl, slash⟩ := slashes
      obtain ⟨cs, rfl⟩ := List.head?_eq_some_iff.mp slash
      have joined : '/' :: '/' :: cs.takeWhile (· != '\n') ++ cs.dropWhile (· != '\n') =
          '/' :: '/' :: cs :=
        congrArg ('/' :: '/' :: ·) List.takeWhile_append_dropWhile
      refine .inr ⟨.comment, _, _, .inr rfl, joined.symm, ?_, ?_⟩
      · rw [joined]
        exact wins_comment cs
      · rw [joined]
        exact skipBlank_comment offset cs
    · refine .inl ⟨⟨Bool.eq_false_iff.mpr blank, slashes⟩, ?_⟩
      rw [skipBlank, if_neg Bool.false_ne_true, if_neg blank, if_neg (by simpa using slashes)]

theorem skips_skipBlank (offset : Nat) (text : List Char) :
    Skips text (skipBlank false offset text).2 ∧ AtLexeme (skipBlank false offset text).2 := by
  induction size : text.length using Nat.strong_induction_on generalizing offset text with
  | _ size shorter =>
  rcases skipBlank_cases offset text with ⟨front, stays⟩ | ⟨r, w, rest, skipped, rfl, wins, goes⟩
  · rw [stays]
    exact ⟨.nothing, front⟩
  · have some := List.length_pos_iff.mpr (ne_nil_of_mem wins.mem)
    rw [List.length_append] at size
    obtain ⟨skips, front⟩ := shorter rest.length (by omega) (offset + Bytes.length w) rest rfl
    rw [goes]
    exact ⟨.piece skipped wins skips, front⟩

/-- The lexeme at the front is the piece that a rule wins, and its class is that of the rule. -/
theorem wins_read {text : List Char} {l : Lexeme} (front : AtLexeme text)
    (found : Lexeme.read text = some l) : (Rule.lexeme l.form).Wins l.chars text := by
  cases text with
  | nil => cases found
  | cons c cs =>
    obtain ⟨notBlank, alone⟩ := front
    simp only [Lexeme.read] at found
    split at found
    · next start =>
      cases found
      exact wins_word start
    split at found
    · next digit =>
      cases found
      exact wins_number digit
    split at found
    · next mark =>
      cases found
      subst mark
      exact wins_quoted cs
    · next notStart notDigit notMark =>
      cases found
      have other : isOther c = true := isOther_iff.mpr
        ⟨notBlank, Bool.eq_false_iff.mpr notStart, Bool.eq_false_iff.mpr notDigit, notMark⟩
      exact wins_symbol other alone

end

def HasFraction (text : List Char) : Prop :=
  ∃ d more, text.dropWhile Char.isDigit = '.' :: d :: more ∧ d.isDigit = true

def Closes (text : List Char) : Prop := ∃ body ∈ stringItem∗, ∃ more, text = body ++ '"' :: more

namespace Rule

variable {r : Rule} {w cs rest : List Char}

theorem Wins.number {c : Char} (wins : r.Wins w (c :: cs)) (digit : c.isDigit = true) :
    r = .lexeme .float ∧ HasFraction (c :: cs) ∨
      r = .lexeme .integer ∧ ¬ HasFraction (c :: cs) := by
  obtain ⟨-, rfl⟩ := (wins_number digit).unique wins
  rcases Lexeme.number_cases (c :: cs) with ⟨read, noDigit⟩ | ⟨more, point, someDigit, read⟩
  · refine .inr ⟨by rw [read], ?_⟩
    rintro ⟨d, more, point, digit'⟩
    have none := noDigit (d :: more) point
    rw [List.takeWhile_cons_of_pos digit'] at none
    cases none
  · refine .inl ⟨by rw [read], ?_⟩
    cases more with
    | nil => exact absurd rfl someDigit
    | cons d more =>
      refine ⟨d, more, point, ?_⟩
      by_contra notDigit
      exact someDigit (List.takeWhile_cons_of_neg notDigit)

theorem Wins.quote (wins : r.Wins w ('"' :: cs)) (joined : '"' :: cs = w ++ rest) :
    r = .lexeme .string ∧ Closes cs ∨
      r = .lexeme .openString ∧ ¬ Closes cs ∧ Lexeme.Unclosed rest := by
  obtain ⟨rfl, rfl⟩ := (wins_quoted cs).unique wins
  obtain ⟨body, items, ⟨more, rfl⟩ | ⟨rest', rfl, unclosed⟩⟩ := Lexeme.quoted_cases cs
  · rw [Lexeme.quoted_closed items]
    exact .inl ⟨rfl, body, items, more, rfl⟩
  · rw [Lexeme.quoted_open items unclosed] at joined ⊢
    have same := List.append_cancel_left (List.cons.inj joined).2
    subst same
    refine .inr ⟨rfl, ?_, unclosed⟩
    rintro ⟨body', items', more, closed⟩
    have both := Lexeme.quoted_open items unclosed
    rw [closed, Lexeme.quoted_closed items'] at both
    cases both

theorem Wins.slash {form : LexemeClass} (wins : (Rule.lexeme form).Wins w ('/' :: cs)) :
    form = .symbol ∧ w = ['/'] ∧ cs.head? ≠ some '/' := by
  by_cases slash : cs.head? = some '/'
  · obtain ⟨cs, rfl⟩ := List.head?_eq_some_iff.mp slash
    obtain ⟨-, same⟩ := (wins_comment cs).unique wins
    cases same
  · obtain ⟨rfl, same⟩ := (wins_symbol (by decide) fun both => slash both.2).unique wins
    cases same
    exact ⟨rfl, rfl, slash⟩

end Rule

namespace Tokenizer

/-- What the piece `w` is read as, given the class whose rule wins it. -/
inductive Names (keywords : List String) (w : List Char) :
    LexemeClass → Except LexFault (Kind × String) → Prop where
  | keyword (among : String.ofList w ∈ keywords) :
    Names keywords w .word (.ok (.keyword, String.ofList w))
  | word (other : String.ofList w ∉ keywords) :
    Names keywords w .word (.ok (.word, String.ofList w))
  | integer : Names keywords w .integer (.ok (.integer, String.ofList w))
  | float : Names keywords w .float (.ok (.float, String.ofList w))
  | string {body : List Char} (quotes : w = '"' :: (body ++ ['"'])) :
    Names keywords w .string (.ok (.string, String.ofList (Quoted.unescape body)))
  | openString : Names keywords w .openString (.error .unterminatedString)
  | symbol : Names keywords w .symbol (.ok (.symbol, String.ofList w))

theorem names_classify (keywords : List String) {l : Lexeme}
    (mem : l.chars ∈ (Rule.lexeme l.form).language) :
    Names keywords l.chars l.form (classify keywords l) := by
  obtain ⟨form, chars, rest⟩ := l
  cases form with
  | word =>
    by_cases among : String.ofList chars ∈ keywords
    · simp only [classify, List.contains_iff_mem.mpr among, ↓reduceIte]
      exact .keyword among
    · simp only [classify, List.contains_eq_mem, decide_eq_true_eq, among, ↓reduceIte]
      exact .word among
  | integer => exact .integer
  | float => exact .float
  | string =>
    obtain ⟨body, -, quotes⟩ := mem_string.mp mem
    have content : Lexeme.content ⟨.string, chars, rest⟩ = body := by
      rw [Lexeme.content, quotes]
      exact List.dropLast_concat
    simp only [classify, content]
    exact .string quotes
  | openString => exact .openString
  | symbol => exact .symbol

def reply (position : Position) : Except LexFault (Kind × String) → Except LexError Token
  | .ok (kind, value) => .ok ⟨kind, value, position⟩
  | .error fault => .error ⟨position, fault⟩

theorem next_of_read_none {t : Tokenizer}
    (found : Lexeme.read (skipBlank false t.offset t.rest).2 = none) :
    t.next = (.ok (.eof (t.last.after 1)),
      { t with offset := (skipBlank false t.offset t.rest).1, rest := [] }) := by
  simp only [next, found]

theorem next_of_read_some {t : Tokenizer} {l : Lexeme}
    (found : Lexeme.read (skipBlank false t.offset t.rest).2 = some l) :
    ∃ r, r = reply (.ofSpan t.source ⟨Offset.clip (skipBlank false t.offset t.rest).1,
        Offset.clip ((skipBlank false t.offset t.rest).1 + Bytes.length l.chars)⟩)
        (classify t.keywords l) ∧
      t.next = (r, { t with
        offset := (skipBlank false t.offset t.rest).1 + Bytes.length l.chars
        rest := l.rest
        last := lastAmong t.last [r] }) := by
  refine ⟨_, rfl, ?_⟩
  simp only [next, found]
  cases classify t.keywords l <;> rfl

structure Reads (keywords : List String) (w rest : List Char) (form : LexemeClass)
    (outcome : Except LexFault (Kind × String)) : Prop where
  wins : (Rule.lexeme form).Wins w (w ++ rest)
  named : Names keywords w form outcome
  number : ∀ c cs, w ++ rest = c :: cs → c.isDigit = true →
    form = .float ∧ HasFraction (c :: cs) ∨ form = .integer ∧ ¬ HasFraction (c :: cs)
  quote : ∀ cs, w ++ rest = '"' :: cs →
    form = .string ∧ Closes cs ∨ form = .openString ∧ ¬ Closes cs ∧ Lexeme.Unclosed rest
  slash : ∀ cs, w ++ rest = '/' :: cs → form = .symbol ∧ w = ['/'] ∧ cs.head? ≠ some '/'

theorem reads_of_wins {keywords : List String} {w rest : List Char} {form : LexemeClass}
    {outcome : Except LexFault (Kind × String)} (wins : (Rule.lexeme form).Wins w (w ++ rest))
    (named : Names keywords w form outcome) : Reads keywords w rest form outcome where
  wins
  named
  number := by
    intro c cs joined digit
    rw [joined] at wins
    exact wins.number digit |>.imp (And.imp_left Rule.lexeme.inj) (And.imp_left Rule.lexeme.inj)
  quote := by
    intro cs joined
    rw [joined] at wins
    exact wins.quote joined.symm |>.imp (And.imp_left Rule.lexeme.inj)
      (And.imp_left Rule.lexeme.inj)
  slash := by
    intro cs joined
    rw [joined] at wins
    exact wins.slash

def after : Nat → Tokenizer → Tokenizer
  | 0, t => t
  | n + 1, t => after n t.next.2

structure HasRead (source : Source) (keywords : List String) (front : List Char) (t : Tokenizer) :
    Prop where
  source_eq : t.source = source
  keywords_eq : t.keywords = keywords
  joined : source.chars = front ++ t.rest
  offset_eq : t.offset = Bytes.length front

/-- What one call does where `front` has been read: nothing is left but pieces to skip, or the next
piece is read. -/
inductive Answers (source : Source) (keywords : List String) (front : List Char) (t : Tokenizer) :
    Prop where
  | ends (skips : Skips t.rest []) (answer : t.next.1 = .ok (.eof (t.last.after 1)))
    (later : HasRead source keywords (front ++ t.rest) t.next.2)
  | piece {gap w rest : List Char} {form : LexemeClass}
    {outcome : Except LexFault (Kind × String)} (joined : t.rest = gap ++ w ++ rest)
    (skips : Skips (gap ++ w ++ rest) (w ++ rest)) (reads : Reads keywords w rest form outcome)
    (answer : t.next.1 = reply (.ofSpan source ⟨Offset.clip (Bytes.length (front ++ gap)),
      Offset.clip (Bytes.length (front ++ gap ++ w))⟩) outcome)
    (later : HasRead source keywords (front ++ gap ++ w) t.next.2)

section

variable {source : Source} {keywords : List String} {front : List Char} {t : Tokenizer}

theorem HasRead.answers (h : HasRead source keywords front t) :
    Answers source keywords front t := by
  obtain ⟨rfl, rfl, joined, offset_eq⟩ := h
  obtain ⟨gap, text, size, -⟩ := skipBlank_gap false t.offset t.rest
  obtain ⟨skips, atLexeme⟩ := skips_skipBlank t.offset t.rest
  have start : (skipBlank false t.offset t.rest).1 = Bytes.length (front ++ gap) := by
    rw [size, offset_eq, Bytes.length_append]
  cases found : Lexeme.read (skipBlank false t.offset t.rest).2 with
  | none =>
    have none := Lexeme.read_eq_none_iff.mp found
    rw [none, List.append_nil] at text
    have step := next_of_read_none found
    rw [start] at step
    refine .ends (none ▸ skips) (congrArg Prod.fst step) ?_
    rw [step, text]
    exact ⟨rfl, rfl, by rw [joined, text, List.append_nil], rfl⟩
  | some l =>
    have wins := wins_read atLexeme found
    have pieces := Lexeme.read_append found
    have stop : (skipBlank false t.offset t.rest).1 + Bytes.length l.chars =
        Bytes.length (front ++ gap ++ l.chars) := by
      rw [start, Bytes.length_append (front ++ gap)]
    obtain ⟨r, answer, step⟩ := next_of_read_some found
    rw [stop, start] at answer
    rw [stop] at step
    rw [← pieces] at wins
    rw [← pieces, ← List.append_assoc] at text
    refine .piece text ?_ (reads_of_wins wins (names_classify t.keywords wins.mem))
      ((congrArg Prod.fst step).trans answer) ?_
    · rw [← text, pieces]
      exact skips
    · have joined' : t.source.chars = front ++ gap ++ l.chars ++ l.rest := by
        rw [joined, text]
        simp only [List.append_assoc]
      rw [step]
      exact ⟨rfl, rfl, joined', rfl⟩

theorem hasRead_after (source : Source) (keywords : List String) (n : Nat) :
    ∃ front, HasRead source keywords front ((ofSource source keywords).after n) := by
  have run : ∀ (n : Nat) {t : Tokenizer} {front : List Char}, HasRead source keywords front t →
      ∃ front, HasRead source keywords front (t.after n) := by
    intro n
    induction n with
    | zero => exact fun h => ⟨_, h⟩
    | succ n ih =>
      intro t front h
      cases h.answers with
      | ends _ _ later => exact ih later
      | piece _ _ _ _ later => exact ih later
  have start : HasRead source keywords [] (ofSource source keywords) := ⟨rfl, rfl, rfl, rfl⟩
  exact run n start

end

/-- The same reply with the words told from the keywords by `keywords`. -/
def rekey (keywords : List String) : Except LexError Token → Except LexError Token
  | .ok token =>
    if token.kind = .word ∨ token.kind = .keyword then
      .ok { token with kind := if keywords.contains token.value then .keyword else .word }
    else .ok token
  | .error e => .error e

def withKeywords (keywords : List String) (t : Tokenizer) : Tokenizer := { t with keywords }

theorem next_withKeywords (keywords : List String) (t : Tokenizer) :
    (t.withKeywords keywords).next =
      (rekey keywords t.next.1, t.next.2.withKeywords keywords) := by
  simp only [withKeywords, next]
  cases Lexeme.read (skipBlank false t.offset t.rest).2 with
  | none => rfl
  | some l =>
    simp only [classify]
    cases l.form with
    | word =>
      simp only [rekey]
      cases t.keywords.contains (String.ofList l.chars) <;> rfl
    | integer => rfl
    | float => rfl
    | string => rfl
    | openString => rfl
    | symbol => rfl

theorem after_withKeywords (keywords : List String) (n : Nat) (t : Tokenizer) :
    (t.withKeywords keywords).after n = (t.after n).withKeywords keywords := by
  induction n generalizing t with
  | zero => rfl
  | succ n ih => rw [after, next_withKeywords, ih, after]

/-- A text of less than `2 ^ 32` bytes is read by longest match. Every call that is not answered by
the end marker gives what the one rule says that wins the longest piece behind blanks and comments;
it fails for an open string only. The keywords matter only for which words are keywords. -/
theorem next_is_longest_match (source : Source) (keywords : List String)
    (short : Bytes.length source.chars < 2 ^ 32) (n : Nat) :
    let t := (ofSource source keywords).after n
    (Skips t.rest [] ∧ t.next.1 = .ok (.eof (t.last.after 1)) ∨
      ∃ front gap w rest form outcome, source.chars = front ++ gap ++ w ++ rest ∧
        t.offset = Bytes.length front ∧ Skips (gap ++ w ++ rest) (w ++ rest) ∧
        Reads keywords w rest form outcome ∧
        t.next.1 = reply (.ofSpan source
          ⟨Bytes.length (front ++ gap), Bytes.length (front ++ gap ++ w)⟩) outcome ∧
        t.next.2.offset = Bytes.length (front ++ gap ++ w)) ∧
    (∀ cs, Rule.comment.Wins ('/' :: '/' :: cs.takeWhile (· != '\n')) ('/' :: '/' :: cs)) ∧
    (∀ position c, t.next.1 ≠ .error ⟨position, .unexpectedChar c⟩) ∧
    ∀ keywords', ((ofSource source keywords').after n).next.1 = rekey keywords' t.next.1 := by
  intro t
  obtain ⟨front, read⟩ := hasRead_after source keywords n
  refine ⟨?_, wins_comment, ?_, ?_⟩
  · cases read.answers with
    | ends skips answer => exact .inl ⟨skips, answer⟩
    | @piece gap w rest form outcome joined skips reads answer later =>
      have text : source.chars = front ++ gap ++ w ++ rest := by
        rw [read.joined, joined]
        simp only [List.append_assoc]
      have size := congrArg Bytes.length text
      simp only [Bytes.length_append] at size
      have fits : Bytes.length (front ++ gap ++ w) ≤ Offset.limit := by
        simp only [Bytes.length_append, Offset.limit]
        omega
      have fits' : Bytes.length (front ++ gap) ≤ Offset.limit := by
        rw [Bytes.length_append (front ++ gap)] at fits
        omega
      rw [Offset.clip_of_le fits, Offset.clip_of_le fits'] at answer
      exact .inr ⟨front, gap, w, rest, form, outcome, text, read.offset_eq, skips, reads, answer,
        later.offset_eq⟩
  · intro position c unexpected
    cases read.answers with
    | ends _ answer => cases answer.symm.trans unexpected
    | piece _ _ reads answer =>
      have same := answer.symm.trans unexpected
      cases reads.named <;> cases same
  · intro keywords'
    have other : ofSource source keywords' =
      (ofSource source keywords).withKeywords keywords' := rfl
    rw [other, after_withKeywords, next_withKeywords]

def backtracking : Source := .ofText "t" "1. / \"a\\\n// if"

theorem next_is_longest_match_backtracking :
    Bytes.length backtracking.chars < 2 ^ 32 ∧
      let t := (ofSource backtracking ["if"]).after 3
      (Skips t.rest [] ∧ t.next.1 = .ok (.eof (t.last.after 1)) ∨
        ∃ front gap w rest form outcome, backtracking.chars = front ++ gap ++ w ++ rest ∧
          t.offset = Bytes.length front ∧ Skips (gap ++ w ++ rest) (w ++ rest) ∧
          Reads ["if"] w rest form outcome ∧
          t.next.1 = reply (.ofSpan backtracking
            ⟨Bytes.length (front ++ gap), Bytes.length (front ++ gap ++ w)⟩) outcome ∧
          t.next.2.offset = Bytes.length (front ++ gap ++ w)) ∧
      (∀ cs, Rule.comment.Wins ('/' :: '/' :: cs.takeWhile (· != '\n')) ('/' :: '/' :: cs)) ∧
      (∀ position c, t.next.1 ≠ .error ⟨position, .unexpectedChar c⟩) ∧
      ∀ keywords',
        ((ofSource backtracking keywords').after 3).next.1 = rekey keywords' t.next.1 := by
  have short : Bytes.length backtracking.chars < 2 ^ 32 := by decide +kernel
  exact ⟨short, next_is_longest_match backtracking ["if"] short 3⟩

example : ((ofSource backtracking ["if"]).replies 5).map span =
    [⟨0, 1⟩, ⟨1, 2⟩, ⟨3, 4⟩, ⟨5, 7⟩, ⟨7, 8⟩] := by decide +kernel

end Tokenizer

end Lockstep
