import Lockstep.Token.Basic
import Lockstep.Token.Lexeme

set_option autoImplicit false

namespace Lockstep

inductive LexFault where
  | unexpectedChar (c : Char)
  | unterminatedString
  deriving DecidableEq, Repr

structure LexError where
  position : Position
  fault : LexFault
  deriving DecidableEq

def LexFault.message : LexFault → String
  | .unexpectedChar c => "Unexpected character: '" ++ c.toString ++ "'"
  | .unterminatedString => "Unterminated string literal"

def LexError.message (e : LexError) : String := e.fault.message

/-- A source read up to `offset`; `rest` is what follows and `last` the last token's place. -/
structure Tokenizer where
  source : Source
  keywords : List String
  offset : Nat
  rest : List Char
  last : Position

namespace Tokenizer

def ofSource (source : Source) (keywords : List String) : Tokenizer :=
  ⟨source, keywords, 0, source.chars, Position.startOf source⟩

def start (t : Tokenizer) : Position := Position.startOf t.source

def classify (keywords : List String) (l : Lexeme) : Except LexFault (Kind × String) :=
  let text := String.ofList l.chars
  match l.form with
  | .word => .ok (if keywords.contains text then .keyword else .word, text)
  | .integer => .ok (.integer, text)
  | .float => .ok (.float, text)
  | .string => .ok (.string, String.ofList (Quoted.unescape l.content))
  | .openString => .error .unterminatedString
  | .symbol => .ok (.symbol, text)

def next (t : Tokenizer) : Except LexError Token × Tokenizer :=
  let (start, rest) := skipBlank false t.offset t.rest
  match Lexeme.read rest with
  | none => (.ok (.eof (t.last.after 1)), { t with offset := start, rest := [] })
  | some lexeme =>
    let stop := start + Bytes.length lexeme.chars
    let position := Position.ofSpan t.source ⟨Offset.clip start, Offset.clip stop⟩
    match classify t.keywords lexeme with
    | .ok (kind, value) =>
      (.ok ⟨kind, value, position⟩, { t with offset := stop, rest := lexeme.rest, last := position })
    | .error fault => (.error ⟨position, fault⟩, { t with offset := stop, rest := lexeme.rest })

theorem classify_kind_ne_eof {keywords : List String} {l : Lexeme} {kind : Kind} {value : String}
    (h : classify keywords l = .ok (kind, value)) : kind ≠ .eof := by
  simp only [classify] at h
  split at h <;> simp only [Except.ok.injEq, Prod.mk.injEq, reduceCtorEq] at h <;>
    obtain ⟨rfl, -⟩ := h
  · split <;> simp
  all_goals simp

theorem rest_length_lt_of_next {t u : Tokenizer} {token : Token} (h : t.next = (.ok token, u))
    (more : token.isEof = false) : u.rest.length < t.rest.length := by
  have skipped := skipBlank_length_le false t.offset t.rest
  simp only [next] at h
  split at h
  · cases h; simp [Token.eof, Token.isEof] at more
  · rename_i lexeme found
    have shorter := Lexeme.rest_length_lt_of_read found
    split at h <;> cases h
    simp only
    omega

def tokenize (t : Tokenizer) : Except LexError (List Token) :=
  match read : t.next with
  | (.error e, _) => .error e
  | (.ok token, u) =>
    if ended : token.isEof then .ok [token]
    else
      have := rest_length_lt_of_next read (Bool.eq_false_iff.2 ended)
      match tokenize u with
      | .ok tokens => .ok (token :: tokens)
      | .error e => .error e
termination_by t.rest.length

end Tokenizer

end Lockstep
