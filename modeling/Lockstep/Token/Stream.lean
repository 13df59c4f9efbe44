import Lockstep.Token.Tokenizer

set_option autoImplicit false

namespace Lockstep

class TokenSource (σ : Type) where
  start : σ → Position
  next : σ → Except LexError Token × σ
  remaining : σ → Nat
  remaining_lt : ∀ {s s' : σ} {token : Token}, next s = (.ok token, s') →
    token.isEof = false → remaining s' < remaining s

instance : TokenSource Tokenizer where
  start := Tokenizer.start
  next := Tokenizer.next
  remaining t := t.rest.length
  remaining_lt := Tokenizer.rest_length_lt_of_next

/-- Tokens made beforehand; the end marker comes after the last of them, or after the start. -/
structure TokenBuffer where
  tokens : List Token
  start : Position
  last : Position

namespace TokenBuffer

def ofTokens (start : Position) (tokens : List Token) : TokenBuffer :=
  let tokens := tokens.filter fun t => !t.isEof
  ⟨tokens, start, (tokens.getLast?.map Token.position).getD start⟩

def size (b : TokenBuffer) : Nat := b.tokens.length

def isEmpty (b : TokenBuffer) : Bool := b.tokens.isEmpty

def next (b : TokenBuffer) : Except LexError Token × TokenBuffer :=
  match b.tokens with
  | [] => (.ok (.eof (b.last.after 1)), b)
  | token :: tokens => (.ok token, { b with tokens })

theorem size_lt_of_next {b b' : TokenBuffer} {token : Token} (h : b.next = (.ok token, b'))
    (more : token.isEof = false) : b'.size < b.size := by
  simp only [next] at h
  split at h
  · cases h; simp [Token.eof, Token.isEof] at more
  · rename_i same
    cases h; simp [size, same]

instance : TokenSource TokenBuffer where
  start := TokenBuffer.start
  next := TokenBuffer.next
  remaining := TokenBuffer.size
  remaining_lt := size_lt_of_next

end TokenBuffer

end Lockstep
