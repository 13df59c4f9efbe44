import Lockstep.Proofs.Tokenizing
import Mathlib.Computability.Language

set_option autoImplicit false

open scoped Computability

namespace Lockstep

inductive Rule where
  | blanks
  | comment
  | lexeme (form : LexemeClass)
  deriving DecidableEq

namespace Rule

def single (p : Char → Bool) : Language Char := {w | ∃ c, p c = true ∧ w = [c]}

def run (p : Char → Bool) : Language Char := single p * (single p)∗

def isPlain (c : Char) : Bool := c != '"' && c != '\\' && c != '\n'

/-- A character inside a string: a plain one, or any but a line feed after a backslash. -/
def stringItem : Language Char := single isPlain + {['\\']} * single (· != '\n')

def isOther (c : Char) : Bool := !(isBlank c || Lexeme.isWordPart c || c == '"')

def language : Rule → Language Char
  | .blanks => run isBlank
  | .comment => {['/', '/']} * (single (· != '\n'))∗
  | .lexeme .word => single Lexeme.isWordStart * (single Lexeme.isWordPart)∗
  | .lexeme .integer => run Char.isDigit
  | .lexeme .float => run Char.isDigit * ({['.']} * run Char.isDigit)
  | .lexeme .string => {['"']} * (stringItem∗ * {['"']})
  | .lexeme .openString => {['"']} * stringItem∗
  | .lexeme .symbol => single isOther

section

variable {p : Char → Bool} {l : Language Char} {u w : List Char}

theorem mem_star_single : w ∈ (single p)∗ ↔ ∀ c ∈ w, p c = true := by
  rw [Language.mem_kstar]
  constructor
  · rintro ⟨pieces, rfl, all⟩ c mem
    obtain ⟨piece, among, here⟩ := List.mem_flatten.mp mem
    obtain ⟨d, holds, rfl⟩ := all piece among
    rw [List.mem_singleton.mp here]
    exact holds
  · intro all
    refine ⟨w.map fun c => [c], (List.flatMap_singleton' w).symm, ?_⟩
    intro piece among
    obtain ⟨c, mem, rfl⟩ := List.mem_map.mp among
    exact ⟨c, all c mem, rfl⟩

theorem mem_single_mul : w ∈ single p * l ↔ ∃ c v, p c = true ∧ v ∈ l ∧ w = c :: v := by
  rw [Language.mem_mul]
  constructor
  · rintro ⟨-, ⟨c, holds, rfl⟩, v, mem, rfl⟩
    exact ⟨c, v, holds, mem, rfl⟩
  · rintro ⟨c, v, holds, mem, rfl⟩
    exact ⟨[c], ⟨c, holds, rfl⟩, v, mem, rfl⟩

theorem mem_literal_mul : w ∈ ({u} : Language Char) * l ↔ ∃ v ∈ l, w = u ++ v := by
  rw [Language.mem_mul]
  constructor
  · rintro ⟨-, rfl, v, mem, rfl⟩
    exact ⟨v, mem, rfl⟩
  · rintro ⟨v, mem, rfl⟩
    exact ⟨u, rfl, v, mem, rfl⟩

theorem mem_run : w ∈ run p ↔ w ≠ [] ∧ ∀ c ∈ w, p c = true := by
  rw [run, mem_single_mul]
  simp only [mem_star_single]
  constructor
  · rintro ⟨c, v, first, others, rfl⟩
    exact ⟨List.cons_ne_nil c v, List.forall_mem_cons.mpr ⟨first, others⟩⟩
  · rintro ⟨nonempty, all⟩
    obtain ⟨c, v, rfl⟩ := List.exists_cons_of_ne_nil nonempty
    obtain ⟨first, others⟩ := List.forall_mem_cons.mp all
    exact ⟨c, v, first, others, rfl⟩

theorem mem_float : w ∈ language (.lexeme .float) ↔
    ∃ whole fraction, whole ∈ run Char.isDigit ∧ fraction ∈ run Char.isDigit ∧
      w = whole ++ '.' :: fraction := by
  simp only [language, Language.mem_mul (l := run _), mem_literal_mul]
  constructor
  · rintro ⟨whole, digits, -, ⟨fraction, digits', rfl⟩, rfl⟩
    exact ⟨whole, fraction, digits, digits', rfl⟩
  · rintro ⟨whole, fraction, digits, digits', rfl⟩
    exact ⟨whole, digits, _, ⟨fraction, digits', rfl⟩, rfl⟩

theorem mem_string : w ∈ language (.lexeme .string) ↔
    ∃ body ∈ stringItem∗, w = '"' :: (body ++ ['"']) := by
  simp only [language, mem_literal_mul, Language.mem_mul (l := stringItem∗)]
  constructor
  · rintro ⟨-, ⟨body, items, -, rfl, rfl⟩, rfl⟩
    exact ⟨body, items, rfl⟩
  · rintro ⟨body, items, rfl⟩
    exact ⟨_, ⟨body, items, _, rfl, rfl⟩, rfl⟩

end

section

variable {c : Char} {cs body : List Char}

theorem nil_mem_items : [] ∈ stringItem∗ := Language.nil_mem_kstar stringItem

theorem append_mem_items {item : List Char} (first : item ∈ stringItem) (items : cs ∈ stringItem∗) :
    item ++ cs ∈ stringItem∗ := by
  obtain ⟨pieces, rfl, all⟩ := Language.mem_kstar.mp items
  exact Language.mem_kstar.mpr ⟨item :: pieces, rfl, List.forall_mem_cons.mpr ⟨first, all⟩⟩

theorem plain_mem_items (plain : isPlain c = true) (items : cs ∈ stringItem∗) :
    c :: cs ∈ stringItem∗ := by
  have item : [c] ∈ stringItem := .inl ⟨c, plain, rfl⟩
  exact append_mem_items item items

theorem escape_mem_items (other : c ≠ '\n') (items : cs ∈ stringItem∗) :
    '\\' :: c :: cs ∈ stringItem∗ := by
  have pair : ['\\', c] ∈ stringItem :=
    .inr (mem_literal_mul.mpr ⟨[c], ⟨c, bne_iff_ne.mpr other, rfl⟩, rfl⟩)
  exact append_mem_items pair items

theorem items_induction {motive : List Char → Prop} (nil : motive [])
    (plain : ∀ c cs, isPlain c = true → motive cs → motive (c :: cs))
    (escape : ∀ c cs, c ≠ '\n' → motive cs → motive ('\\' :: c :: cs))
    (items : body ∈ stringItem∗) : motive body := by
  obtain ⟨pieces, rfl, all⟩ := Language.mem_kstar.mp items
  clear items
  induction pieces with
  | nil => exact nil
  | cons piece pieces ih =>
    obtain ⟨first, others⟩ := List.forall_mem_cons.mp all
    have rest := ih others
    rw [List.flatten_cons]
    rcases first with ⟨c, holds, rfl⟩ | pair
    · exact plain c _ holds rest
    · obtain ⟨-, ⟨c, other, rfl⟩, rfl⟩ := mem_literal_mul.mp pair
      exact escape c _ (bne_iff_ne.mp other) rest

end

end Rule

namespace Lexeme

open Rule

/-- The inside of a string goes on no further here, and there is no closing quote: the line or the
text ends, or a backslash escapes nothing on its line. -/
inductive Unclosed : List Char → Prop where
  | atEnd : Unclosed []
  | feed (more : List Char) : Unclosed ('\n' :: more)
  | backslash : Unclosed ['\\']
  | backslashFeed (more : List Char) : Unclosed ('\\' :: '\n' :: more)

theorem number_cases (cs : List Char) :
    (number cs = ⟨.integer, cs.takeWhile Char.isDigit, cs.dropWhile Char.isDigit⟩ ∧
      ∀ more, cs.dropWhile Char.isDigit = '.' :: more → more.takeWhile Char.isDigit = []) ∨
    ∃ more, cs.dropWhile Char.isDigit = '.' :: more ∧ more.takeWhile Char.isDigit ≠ [] ∧
      number cs = ⟨.float, cs.takeWhile Char.isDigit ++ '.' :: more.takeWhile Char.isDigit,
        more.dropWhile Char.isDigit⟩ := by
  simp only [number]
  split
  · next more point =>
    split
    · next none =>
      refine .inl ⟨by rw [point], ?_⟩
      intro more' point'
      rw [point] at point'
      cases point'
      exact none
    · next some => exact .inr ⟨more, point, some, rfl⟩
  · next other => exact .inl ⟨rfl, fun more point => absurd point (other more)⟩

theorem stringBody_plain {c : Char} (plain : isPlain c = true) (cs : List Char) :
    stringBody (c :: cs) = (c :: (stringBody cs).1, (stringBody cs).2) := by
  simp only [isPlain, Bool.and_eq_true, bne_iff_ne] at plain
  obtain ⟨⟨notMark, notBackslash⟩, notFeed⟩ := plain
  rw [stringBody.eq_3 _ _ fun _ _ same => absurd same notBackslash]
  rw [if_neg (by simp [notMark, notBackslash, notFeed])]

theorem stringBody_escape {c : Char} (other : c ≠ '\n') (cs : List Char) :
    stringBody ('\\' :: c :: cs) = ('\\' :: c :: (stringBody cs).1, (stringBody cs).2) := by
  rw [stringBody, if_neg other]

theorem stringBody_quote (more : List Char) : stringBody ('"' :: more) = ([], '"' :: more) := rfl

theorem stringBody_unclosed {cs : List Char} (h : Unclosed cs) : stringBody cs = ([], cs) := by
  cases h <;> rfl

theorem stringBody_items {body : List Char} (items : body ∈ stringItem∗) (rest : List Char) :
    stringBody (body ++ rest) = (body ++ (stringBody rest).1, (stringBody rest).2) := by
  refine items_induction (motive := fun body =>
    stringBody (body ++ rest) = (body ++ (stringBody rest).1, (stringBody rest).2))
    ?nil ?plain ?escape items
  case nil => rfl
  case plain =>
    intro c cs plain ih
    rw [List.cons_append, stringBody_plain plain, ih]
    rfl
  case escape =>
    intro c cs other ih
    rw [List.cons_append, List.cons_append, stringBody_escape other, ih]
    rfl

theorem stringBody_spec (cs : List Char) : (stringBody cs).1 ∈ stringItem∗ ∧
    ((∃ more, (stringBody cs).2 = '"' :: more) ∨ Unclosed (stringBody cs).2) := by
  fun_induction stringBody cs with
  | case1 => exact ⟨nil_mem_items, .inr .atEnd⟩
  | case2 cs => exact ⟨nil_mem_items, .inr (.backslashFeed cs)⟩
  | case3 c cs other rest ih => exact ⟨escape_mem_items other ih.1, ih.2⟩
  | case4 c cs alone stops =>
    refine ⟨nil_mem_items, ?_⟩
    rcases stops with rfl | rfl | rfl
    · exact .inl ⟨cs, rfl⟩
    · cases cs with
      | nil => exact .inr .backslash
      | cons d cs => exact absurd rfl (alone d cs rfl)
    · exact .inr (.feed cs)
  | case5 c cs alone goes rest ih =>
    simp only [not_or] at goes
    have plain : isPlain c = true := by simp [isPlain, goes]
    exact ⟨plain_mem_items plain ih.1, ih.2⟩

theorem stringBody_closed {body : List Char} (items : body ∈ stringItem∗) (more : List Char) :
    stringBody (body ++ '"' :: more) = (body, '"' :: more) := by
  rw [stringBody_items items, stringBody_quote, List.append_nil]

theorem stringBody_open {body rest : List Char} (items : body ∈ stringItem∗)
    (unclosed : Unclosed rest) : stringBody (body ++ rest) = (body, rest) := by
  rw [stringBody_items items, stringBody_unclosed unclosed, List.append_nil]

theorem quoted_closed {body : List Char} (items : body ∈ stringItem∗) (more : List Char) :
    quoted (body ++ '"' :: more) = ⟨.string, '"' :: body ++ ['"'], more⟩ := by
  simp only [quoted, stringBody_closed items]

theorem quoted_open {body rest : List Char} (items : body ∈ stringItem∗)
    (unclosed : Unclosed rest) : quoted (body ++ rest) = ⟨.openString, '"' :: body, rest⟩ := by
  simp only [quoted, stringBody_open items unclosed]
  cases unclosed <;> rfl

theorem quoted_cases (cs : List Char) : ∃ body ∈ stringItem∗,
    (∃ more, cs = body ++ '"' :: more) ∨ ∃ rest, cs = body ++ rest ∧ Unclosed rest := by
  have joined := stringBody_append cs
  obtain ⟨items, ⟨more, stop⟩ | unclosed⟩ := stringBody_spec cs
  · rw [stop] at joined
    exact ⟨_, items, .inl ⟨more, joined.symm⟩⟩
  · exact ⟨_, items, .inr ⟨_, joined.symm, unclosed⟩⟩

end Lexeme

namespace Rule

/-- `w` is the longest piece at the front of `text` that matches a rule, and `r` is the only rule
that it matches. -/
structure Wins (r : Rule) (w text : List Char) : Prop where
  mem : w ∈ r.language
  front : w <+: text
  longest : ∀ r' w', w' ∈ r'.language → w' <+: text → w'.length < w.length ∨ w' = w ∧ r' = r

/-- The rules fall into families by the characters that their pieces start with. -/
inductive Family where
  | blank
  | word
  | number
  | quote
  | other

def family : Rule → Family
  | .blanks => .blank
  | .comment => .other
  | .lexeme .word => .word
  | .lexeme .integer => .number
  | .lexeme .float => .number
  | .lexeme .string => .quote
  | .lexeme .openString => .quote
  | .lexeme .symbol => .other

def familyOf (c : Char) : Family :=
  if Lexeme.isWordStart c then .word
  else if c.isDigit then .number
  else if c = '"' then .quote
  else if isBlank c then .blank
  else .other

section

variable {p : Char → Bool} {c : Char} {cs v w w' text : List Char} {r r' : Rule}

theorem not_isWordStart_of_isDigit (digit : c.isDigit = true) : Lexeme.isWordStart c = false := by
  have upTo : c.toNat ≤ '9'.toNat := (Char.isDigit_iff_toNat.mp digit).2
  have below : ∀ letter : Char, '9'.toNat < letter.toNat → ¬ letter.val ≤ c.val := by
    intro letter above le
    exact Nat.not_le_of_lt (Nat.lt_of_le_of_lt upTo above) (UInt32.le_iff_toNat_le.mp le)
  have notUpper : c.isUpper = false :=
    decide_eq_false fun range => below 'A' (by decide) range.1
  have notLower : c.isLower = false :=
    Bool.and_eq_false_iff.mpr (.inl (decide_eq_false (below 'a' (by decide))))
  have notLine : (c == '_') = false := by
    refine beq_eq_false_iff_ne.mpr ?_
    rintro rfl
    cases digit
  exact Bool.or_eq_false_iff.mpr ⟨Bool.or_eq_false_iff.mpr ⟨notUpper, notLower⟩, notLine⟩

theorem familyOf_of_isDigit (digit : c.isDigit = true) : familyOf c = .number := by
  rw [familyOf, not_isWordStart_of_isDigit digit, if_neg Bool.false_ne_true, if_pos digit]

theorem familyOf_of_isBlank (blank : isBlank c = true) : familyOf c = .blank := by
  have among := mem_blanks_of_isBlank blank
  simp only [List.mem_cons, List.not_mem_nil, or_false] at among
  rcases among with rfl | rfl | rfl | rfl | rfl <;> rfl

theorem isOther_iff : isOther c = true ↔
    isBlank c = false ∧ Lexeme.isWordStart c = false ∧ c.isDigit = false ∧ c ≠ '"' := by
  simp only [isOther, Lexeme.isWordPart, Lexeme.isWordStart, Char.isAlphanum, Bool.not_eq_true',
    Bool.or_eq_false_iff, beq_eq_false_iff_ne]
  tauto

theorem familyOf_of_isOther (other : isOther c = true) : familyOf c = .other := by
  obtain ⟨notBlank, notStart, notDigit, notMark⟩ := isOther_iff.mp other
  simp [familyOf, notBlank, notStart, notDigit, notMark]

theorem family_of_mem (mem : c :: cs ∈ r.language) : r.family = familyOf c := by
  match r with
  | .blanks =>
    exact (familyOf_of_isBlank ((mem_run.mp mem).2 c List.mem_cons_self)).symm
  | .comment =>
    obtain ⟨v, -, same⟩ := mem_literal_mul.mp mem
    cases same
    rfl
  | .lexeme .word =>
    obtain ⟨d, v, start, -, same⟩ := mem_single_mul.mp mem
    cases same
    exact (if_pos start).symm
  | .lexeme .integer =>
    exact (familyOf_of_isDigit ((mem_run.mp mem).2 c List.mem_cons_self)).symm
  | .lexeme .float =>
    obtain ⟨whole, fraction, digits, -, same⟩ := mem_float.mp mem
    obtain ⟨some, all⟩ := mem_run.mp digits
    obtain ⟨d, whole, rfl⟩ := List.exists_cons_of_ne_nil some
    cases same
    exact (familyOf_of_isDigit (all c List.mem_cons_self)).symm
  | .lexeme .string =>
    obtain ⟨body, -, same⟩ := mem_string.mp mem
    cases same
    rfl
  | .lexeme .openString =>
    obtain ⟨body, -, same⟩ := mem_literal_mul.mp mem
    cases same
    rfl
  | .lexeme .symbol =>
    obtain ⟨d, other, same⟩ := mem
    cases same
    exact (familyOf_of_isOther other).symm

theorem ne_nil_of_mem (mem : w ∈ r.language) : w ≠ [] := by
  rintro rfl
  match r with
  | .blanks => exact (mem_run.mp mem).1 rfl
  | .comment => obtain ⟨v, -, same⟩ := mem_literal_mul.mp mem; cases same
  | .lexeme .word => obtain ⟨d, v, -, -, same⟩ := mem_single_mul.mp mem; cases same
  | .lexeme .integer => exact (mem_run.mp mem).1 rfl
  | .lexeme .float =>
    obtain ⟨whole, fraction, -, -, same⟩ := mem_float.mp mem
    simp at same
  | .lexeme .string => obtain ⟨body, -, same⟩ := mem_string.mp mem; cases same
  | .lexeme .openString => obtain ⟨body, -, same⟩ := mem_literal_mul.mp mem; cases same
  | .lexeme .symbol => obtain ⟨d, -, same⟩ := mem; cases same

theorem family_of_front (mem : w ∈ r.language) (front : w <+: c :: cs) :
    r.family = familyOf c := by
  obtain ⟨d, v, rfl⟩ := List.exists_cons_of_ne_nil (ne_nil_of_mem mem)
  obtain ⟨rest, joined⟩ := front
  cases joined
  exact family_of_mem mem

theorem prefix_takeWhile (front : w <+: text) (all : ∀ c ∈ w, p c = true) :
    w <+: text.takeWhile p := by
  obtain ⟨rest, rfl⟩ := front
  rw [List.takeWhile_append_of_pos all]
  exact List.prefix_append _ _

theorem lt_or_eq_of_front (front : w' <+: w) : w'.length < w.length ∨ w' = w :=
  front.length_le.lt_or_eq.imp_right front.eq_of_length

theorem mem_star_takeWhile (p : Char → Bool) (cs : List Char) :
    cs.takeWhile p ∈ (single p)∗ :=
  mem_star_single.mpr fun _ mem => List.all_eq_true.mp List.all_takeWhile _ mem

theorem mem_run_takeWhile (first : p c = true) : (c :: cs).takeWhile p ∈ run p := by
  rw [List.takeWhile_cons_of_pos first]
  exact mem_single_mul.mpr ⟨c, _, first, mem_star_takeWhile p cs, rfl⟩

/-- A rule has only to beat the rules of its own family. -/
theorem wins_of_family (mem : w ∈ r.language) (front : w <+: c :: cs)
    (longest : ∀ r' w', r'.family = r.family → w' ∈ r'.language → w' <+: c :: cs →
      w'.length < w.length ∨ w' = w ∧ r' = r) : Wins r w (c :: cs) := by
  refine ⟨mem, front, ?_⟩
  intro r' w' mem' front'
  have same : r'.family = r.family :=
    (family_of_front mem' front').trans (family_of_front mem front).symm
  exact longest r' w' same mem' front'

theorem wins_blanks (blank : isBlank c = true) :
    Wins .blanks ((c :: cs).takeWhile isBlank) (c :: cs) := by
  refine wins_of_family (mem_run_takeWhile blank) (List.takeWhile_prefix _) ?_
  intro r' w' family mem' front'
  match r', family with
  | .blanks, _ =>
    exact (lt_or_eq_of_front (prefix_takeWhile front' (mem_run.mp mem').2)).imp_right
      fun same => ⟨same, rfl⟩

theorem wins_comment (cs : List Char) :
    Wins .comment ('/' :: '/' :: cs.takeWhile (· != '\n')) ('/' :: '/' :: cs) := by
  refine wins_of_family (mem_literal_mul.mpr ⟨_, mem_star_takeWhile _ cs, rfl⟩) ?_ ?_
  · exact (List.prefix_append_right_inj ['/', '/']).mpr (List.takeWhile_prefix _)
  · intro r' w' family mem' front'
    match r', family with
    | .comment, _ =>
      obtain ⟨body', line, rfl⟩ := mem_literal_mul.mp mem'
      have inside := (List.prefix_append_right_inj ['/', '/']).mp front'
      have longer := prefix_takeWhile inside (mem_star_single.mp line)
      exact (lt_or_eq_of_front ((List.prefix_append_right_inj ['/', '/']).mpr longer)).imp_right
        fun same => ⟨same, rfl⟩
    | .lexeme .symbol, _ =>
      obtain ⟨d, -, rfl⟩ := mem'
      exact .inl (Nat.lt_of_lt_of_le Nat.one_lt_two (Nat.le_add_left _ _))

theorem wins_word (start : Lexeme.isWordStart c = true) :
    Wins (.lexeme .word) (c :: cs.takeWhile Lexeme.isWordPart) (c :: cs) := by
  refine wins_of_family (mem_single_mul.mpr ⟨c, _, start, mem_star_takeWhile _ cs, rfl⟩) ?_ ?_
  · exact (List.prefix_append_right_inj [c]).mpr (List.takeWhile_prefix _)
  · intro r' w' family mem' front'
    match r', family with
    | .lexeme .word, _ =>
      obtain ⟨d, v, -, parts, rfl⟩ := mem_single_mul.mp mem'
      obtain ⟨rfl, inside⟩ := List.cons_prefix_cons.mp front'
      have longer := prefix_takeWhile inside (mem_star_single.mp parts)
      exact (lt_or_eq_of_front ((List.prefix_append_right_inj [d]).mpr longer)).imp_right
        fun same => ⟨same, rfl⟩

/-- Where a float stands at the front, its point follows all digits there. -/
theorem split_of_float_front {whole fraction : List Char} (digits : whole ∈ run Char.isDigit)
    (digits' : fraction ∈ run Char.isDigit) (front : whole ++ '.' :: fraction <+: text) :
    text.takeWhile Char.isDigit = whole ∧ ∃ more, text.dropWhile Char.isDigit = '.' :: more ∧
      fraction <+: more.takeWhile Char.isDigit := by
  obtain ⟨rest, rfl⟩ := front
  have all := (mem_run.mp digits).2
  have point : Char.isDigit '.' = false := by decide
  rw [List.append_assoc, List.takeWhile_append_of_pos all, List.dropWhile_append_of_pos all]
  refine ⟨?_, fraction ++ rest, ?_, ?_⟩
  · simp [point]
  · simp [point]
  · exact prefix_takeWhile (List.prefix_append fraction rest) (mem_run.mp digits').2

theorem wins_number (digit : c.isDigit = true) :
    Wins (.lexeme (Lexeme.number (c :: cs)).form) (Lexeme.number (c :: cs)).chars (c :: cs) := by
  have digits : (c :: cs).takeWhile Char.isDigit ∈ run Char.isDigit := mem_run_takeWhile digit
  have front : (Lexeme.number (c :: cs)).chars <+: c :: cs := ⟨_, Lexeme.number_append (c :: cs)⟩
  have integer : ∀ {w'}, w' ∈ language (.lexeme .integer) → w' <+: c :: cs →
      w' <+: (c :: cs).takeWhile Char.isDigit :=
    fun mem front => prefix_takeWhile front (mem_run.mp mem).2
  rcases Lexeme.number_cases (c :: cs) with ⟨read, noDigit⟩ | ⟨more, point, someDigit, read⟩
  · rw [read] at front ⊢
    refine wins_of_family digits front ?_
    intro r' w' family mem' front'
    match r', family with
    | .lexeme .integer, _ =>
      exact (lt_or_eq_of_front (integer mem' front')).imp_right fun same => ⟨same, rfl⟩
    | .lexeme .float, _ =>
      obtain ⟨whole, fraction, digits', digits'', rfl⟩ := mem_float.mp mem'
      obtain ⟨-, more, point, longer⟩ := split_of_float_front digits' digits'' front'
      rw [noDigit more point] at longer
      exact absurd (List.prefix_nil.mp longer) (mem_run.mp digits'').1
  · have fraction : more.takeWhile Char.isDigit ∈ run Char.isDigit :=
      mem_run.mpr ⟨someDigit, mem_star_single.mp (mem_star_takeWhile _ more)⟩
    rw [read] at front ⊢
    refine wins_of_family (mem_float.mpr ⟨_, _, digits, fraction, rfl⟩) front ?_
    intro r' w' family mem' front'
    match r', family with
    | .lexeme .integer, _ =>
      have shorter := (integer mem' front').length_le
      refine .inl ?_
      rw [List.length_append, List.length_cons]
      omega
    | .lexeme .float, _ =>
      obtain ⟨whole, fraction', digits', digits'', rfl⟩ := mem_float.mp mem'
      obtain ⟨rfl, more', point', longer⟩ := split_of_float_front digits' digits'' front'
      rw [point] at point'
      cases point'
      refine (lt_or_eq_of_front ?_).imp_right fun same => ⟨same, rfl⟩
      exact (List.prefix_append_right_inj _).mpr ((List.prefix_append_right_inj ['.']).mpr longer)

theorem wins_quoted (cs : List Char) :
    Wins (.lexeme (Lexeme.quoted cs).form) (Lexeme.quoted cs).chars ('"' :: cs) := by
  have front : (Lexeme.quoted cs).chars <+: '"' :: cs := ⟨_, Lexeme.quoted_append cs⟩
  have open_front : ∀ {w'}, w' ∈ language (.lexeme .openString) → w' <+: '"' :: cs →
      w' <+: '"' :: (Lexeme.stringBody cs).1 := by
    intro w' mem' front'
    obtain ⟨body, items, rfl⟩ := mem_literal_mul.mp mem'
    obtain ⟨rest, rfl⟩ := (List.prefix_append_right_inj ['"']).mp front'
    rw [Lexeme.stringBody_items items]
    exact (List.prefix_append_right_inj ['"']).mpr (List.prefix_append _ _)
  have string_front : ∀ {w'}, w' ∈ language (.lexeme .string) → w' <+: '"' :: cs →
      ∃ more, w' = '"' :: (Lexeme.stringBody cs).1 ++ ['"'] ∧
        (Lexeme.stringBody cs).2 = '"' :: more := by
    intro w' mem' front'
    obtain ⟨body, items, rfl⟩ := mem_string.mp mem'
    obtain ⟨more, joined⟩ := (List.prefix_append_right_inj ['"']).mp front'
    have text : cs = body ++ '"' :: more := joined.symm.trans (by simp)
    rw [text, Lexeme.stringBody_closed items]
    exact ⟨more, rfl, rfl⟩
  obtain ⟨body, items, ⟨more, rfl⟩ | ⟨rest, rfl, unclosed⟩⟩ := Lexeme.quoted_cases cs
  · rw [Lexeme.quoted_closed items] at front ⊢
    rw [Lexeme.stringBody_closed items] at open_front string_front
    refine wins_of_family (mem_string.mpr ⟨body, items, rfl⟩) front ?_
    intro r' w' family mem' front'
    match r', family with
    | .lexeme .openString, _ =>
      have shorter := (open_front mem' front').length_le
      refine .inl ?_
      rw [List.length_append]
      exact Nat.lt_succ_of_le shorter
    | .lexeme .string, _ =>
      obtain ⟨-, same, -⟩ := string_front mem' front'
      exact .inr ⟨same, rfl⟩
  · rw [Lexeme.quoted_open items unclosed] at front ⊢
    rw [Lexeme.stringBody_open items unclosed] at open_front string_front
    refine wins_of_family (mem_literal_mul.mpr ⟨body, items, rfl⟩) front ?_
    intro r' w' family mem' front'
    match r', family with
    | .lexeme .openString, _ =>
      exact (lt_or_eq_of_front (open_front mem' front')).imp_right fun same => ⟨same, rfl⟩
    | .lexeme .string, _ =>
      obtain ⟨more, -, same⟩ := string_front mem' front'
      cases same
      cases unclosed

theorem wins_symbol (other : isOther c = true) (alone : ¬ (c = '/' ∧ cs.head? = some '/')) :
    Wins (.lexeme .symbol) [c] (c :: cs) := by
  refine wins_of_family ⟨c, other, rfl⟩ ((List.prefix_append_right_inj [c]).mpr List.nil_prefix) ?_
  intro r' w' family mem' front'
  match r', family with
  | .comment, _ =>
    obtain ⟨body, -, rfl⟩ := mem_literal_mul.mp mem'
    obtain ⟨rfl, inside⟩ := List.cons_prefix_cons.mp front'
    obtain ⟨rest, rfl⟩ := inside
    exact absurd ⟨rfl, rfl⟩ alone
  | .lexeme .symbol, _ =>
    obtain ⟨d, -, rfl⟩ := mem'
    obtain ⟨rfl, -⟩ := List.cons_prefix_cons.mp front'
    exact .inr ⟨rfl, rfl⟩

theorem Wins.unique (wins : Wins r w text) (wins' : Wins r' w' text) : w' = w ∧ r' = r := by
  rcases wins.longest r' w' wins'.mem wins'.front with shorter | same
  · rcases wins'.longest r w wins.mem wins.front with shorter' | ⟨rfl, rfl⟩
    · exact absurd shorter (Nat.lt_asymm shorter')
    · exact ⟨rfl, rfl⟩
  · exact same

end

end Rule

end Lockstep
