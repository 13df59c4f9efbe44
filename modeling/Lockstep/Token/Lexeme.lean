import Lockstep.Text.Bytes

set_option autoImplicit false

/-!
Lexemes: the longest piece at the front of a text that belongs to one of the token classes. The
class follows from the first character, except that digits may go on to a fraction and a string
may lack its closing quote. Nothing is lost: a lexeme and what follows it join to the text read.
-/

namespace Lockstep

def isBlank (c : Char) : Bool := c == ' ' || c == '\t' || c == '\r' || c == '\n' || c == '\x0c'

/-- Blanks, and comments, which run from two slashes up to a line feed, removed from the front of a
text that starts at `offset`; `inComment` says that a comment is open. -/
def skipBlank (inComment : Bool) (offset : Nat) : List Char → Nat × List Char
  | [] => (offset, [])
  | c :: cs =>
    if inComment then skipBlank (c != '\n') (offset + c.utf8Size) cs
    else if isBlank c then skipBlank false (offset + c.utf8Size) cs
    else if c == '/' && cs.head? == some '/' then skipBlank true (offset + c.utf8Size) cs
    else (offset, c :: cs)

inductive LexemeClass where
  | word
  | integer
  | float
  | string
  | openString
  | symbol
  deriving DecidableEq, Repr

structure Lexeme where
  form : LexemeClass
  chars : List Char
  rest : List Char
  deriving DecidableEq, Repr

namespace Lexeme

def isWordStart (c : Char) : Bool := c.isAlpha || c == '_'

def isWordPart (c : Char) : Bool := c.isAlphanum || c == '_'

def number (cs : List Char) : Lexeme :=
  let whole := cs.takeWhile Char.isDigit
  let rest := cs.dropWhile Char.isDigit
  match rest with
  | '.' :: more =>
    match more.takeWhile Char.isDigit with
    | [] => ⟨.integer, whole, rest⟩
    | fraction => ⟨.float, whole ++ '.' :: fraction, more.dropWhile Char.isDigit⟩
  | _ => ⟨.integer, whole, rest⟩

/-- What stands after an opening quote, up to the closing quote, a line feed, a backslash that
escapes nothing on its line, or the end. -/
def stringBody : List Char → List Char × List Char
  | [] => ([], [])
  | '\\' :: c :: cs =>
    if c = '\n' then ([], '\\' :: c :: cs)
    else
      let more := stringBody cs
      ('\\' :: c :: more.1, more.2)
  | c :: cs =>
    if c = '"' ∨ c = '\\' ∨ c = '\n' then ([], c :: cs)
    else
      let more := stringBody cs
      (c :: more.1, more.2)

def quoted (cs : List Char) : Lexeme :=
  match stringBody cs with
  | (body, '"' :: rest) => ⟨.string, '"' :: body ++ ['"'], rest⟩
  | (body, rest) => ⟨.openString, '"' :: body, rest⟩

/-- The lexeme at the front of a text that does not start with a blank or a comment. -/
def read : List Char → Option Lexeme
  | [] => none
  | c :: cs =>
    if isWordStart c then
      some ⟨.word, c :: cs.takeWhile isWordPart, cs.dropWhile isWordPart⟩
    else if c.isDigit then some (number (c :: cs))
    else if c = '"' then some (quoted cs)
    else some ⟨.symbol, [c], cs⟩

def content (l : Lexeme) : List Char := (l.chars.drop 1).dropLast

theorem stringBody_append (cs : List Char) : (stringBody cs).1 ++ (stringBody cs).2 = cs := by
  fun_induction stringBody cs with
  | case1 => rfl
  | case2 => rfl
  | case3 c cs _ more ih => simp [more, ih]
  | case4 => rfl
  | case5 c cs _ _ more ih => simp [more, ih]

theorem number_append (cs : List Char) : (number cs).chars ++ (number cs).rest = cs := by
  simp only [number]
  split
  · rename_i more same
    split
    · exact List.takeWhile_append_dropWhile
    · have whole := List.takeWhile_append_dropWhile (p := Char.isDigit) (l := cs)
      have part := List.takeWhile_append_dropWhile (p := Char.isDigit) (l := more)
      rw [List.append_assoc, List.cons_append, part, ← same, whole]
  · exact List.takeWhile_append_dropWhile

theorem quoted_append (cs : List Char) : (quoted cs).chars ++ (quoted cs).rest = '"' :: cs := by
  have joined := stringBody_append cs
  simp only [quoted]
  split
  · rename_i body rest same
    rw [same] at joined
    simp [← joined]
  · rename_i body rest _ same
    rw [same] at joined
    simp [← joined]

theorem read_append {cs : List Char} {l : Lexeme} (h : read cs = some l) :
    l.chars ++ l.rest = cs := by
  cases cs with
  | nil => simp [read] at h
  | cons c cs =>
    simp only [read] at h
    split at h
    · cases h; simp
    split at h
    · cases h; exact number_append _
    split at h
    · rename_i mark
      cases h; subst mark; exact quoted_append _
    · cases h; rfl

theorem read_eq_none_iff {cs : List Char} : read cs = none ↔ cs = [] := by
  cases cs with
  | nil => simp [read]
  | cons c cs => simp only [read]; grind

theorem number_chars_ne_nil {c : Char} (cs : List Char) (h : c.isDigit = true) :
    (number (c :: cs)).chars ≠ [] := by
  simp only [number]
  split
  · split <;> simp [h]
  · simp [h]

theorem quoted_chars_ne_nil (cs : List Char) : (quoted cs).chars ≠ [] := by
  simp only [quoted]; split <;> simp

theorem chars_ne_nil_of_read {cs : List Char} {l : Lexeme} (h : read cs = some l) :
    l.chars ≠ [] := by
  cases cs with
  | nil => simp [read] at h
  | cons c cs =>
    simp only [read] at h
    split at h
    · cases h; simp
    split at h
    · rename_i digit
      cases h; exact number_chars_ne_nil cs digit
    split at h
    · cases h; exact quoted_chars_ne_nil cs
    · cases h; simp

theorem rest_length_lt_of_read {cs : List Char} {l : Lexeme} (h : read cs = some l) :
    l.rest.length < cs.length := by
  have joined := congrArg List.length (read_append h)
  have pos := List.length_pos_iff.2 (chars_ne_nil_of_read h)
  rw [List.length_append] at joined
  omega

end Lexeme

theorem skipBlank_length_le (inComment : Bool) (offset : Nat) (cs : List Char) :
    (skipBlank inComment offset cs).2.length ≤ cs.length := by
  fun_induction skipBlank inComment offset cs <;> simp_all <;> omega

end Lockstep
