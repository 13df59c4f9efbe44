import Lockstep.Text.Printable

set_option autoImplicit false

/-!
Quoted text. A style says which characters are written as a backslash and something after it. In
what is read, a backslash stands for the character that its letter names, and for the letter itself
when it names none; so reading undoes the style of token values.
-/

namespace Lockstep.Quoted

abbrev Style := Char → Option (List Char)

def literal : Style
  | '\\' => some ['\\']
  | '"' => some ['"']
  | '\n' => some ['n']
  | _ => none

def codePoint (c : Char) : List Char := 'u' :: '\x7b' :: Nat.toDigits 16 c.toNat ++ ['\x7d']

/-- Texts in descriptions of values: all that is not printable is escaped too, by a letter where
there is one. -/
def described : Style
  | '\r' => some ['r']
  | '\t' => some ['t']
  | '\x00' => some ['0']
  | c => literal c <|> if isPrintable c then none else some (codePoint c)

def escape (style : Style) : List Char → List Char
  | [] => []
  | c :: cs =>
    match style c with
    | some escaped => '\\' :: (escaped ++ escape style cs)
    | none => c :: escape style cs

def named : Char → Char
  | 'n' => '\n'
  | 't' => '\t'
  | 'r' => '\r'
  | '0' => '\x00'
  | c => c

/-- A backslash at the end stands for itself. -/
def unescape : List Char → List Char
  | '\\' :: c :: cs => named c :: unescape cs
  | c :: cs => c :: unescape cs
  | [] => []

def quote (style : Style) (text : String) : String :=
  String.ofList ('"' :: escape style text.toList ++ ['"'])

def describeOption : Option String → String
  | some text => "Some(" ++ quote described text ++ ")"
  | none => "None"

theorem unescape_cons_of_ne {c : Char} (h : c ≠ '\\') (cs : List Char) :
    unescape (c :: cs) = c :: unescape cs := by
  rw [unescape]
  rintro d ds heq rfl
  exact h heq

theorem unescape_escape_literal (cs : List Char) : unescape (escape literal cs) = cs := by
  induction cs with
  | nil => rfl
  | cons c cs ih =>
    by_cases backslash : c = '\\'
    · subst backslash; simp [escape, literal, unescape, named, ih]
    by_cases mark : c = '"'
    · subst mark; simp [escape, literal, unescape, named, ih]
    by_cases feed : c = '\n'
    · subst feed; simp [escape, literal, unescape, named, ih]
    have plain : literal c = none := by simp_all [literal]
    simp [escape, plain, unescape_cons_of_ne backslash, ih]

end Lockstep.Quoted
