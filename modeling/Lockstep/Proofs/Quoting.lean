import Lockstep.Proofs.LongestMatch
import Lockstep.Proofs.Pulling

set_option autoImplicit false

open scoped Computability

namespace Lockstep

open Rule Quoted TokenSource

theorem escape_literal_mem_items (cs : List Char) : escape literal cs ∈ stringItem∗ := by
  induction cs with
  | nil => exact nil_mem_items
  | cons c cs ih =>
    by_cases backslash : c = '\\'
    · subst backslash
      exact escape_mem_items (by decide) ih
    by_cases mark : c = '"'
    · subst mark
      exact escape_mem_items (by decide) ih
    by_cases feed : c = '\n'
    · subst feed
      exact escape_mem_items (by decide) ih
    have plain : isPlain c = true := by simp [isPlain, backslash, mark, feed]
    have kept : escape literal (c :: cs) = c :: escape literal cs := by
      have same : literal c = none := by simp_all [literal]
      rw [escape, same]
    rw [kept]
    exact plain_mem_items plain ih

theorem Token.render_string (value : String) (position : Position) :
    (Token.mk .string value position).render = "String " ++ quote literal value := rfl

namespace Tokenizer

variable {source : Source} {body : List Char}

theorem tokenize_quoted (keywords : List String) (items : body ∈ stringItem∗)
    (text : source.chars = '"' :: (body ++ ['"']))
    (fits : Bytes.length source.chars ≤ Offset.limit) :
    (ofSource source keywords).tokenize =
      .ok [⟨.string, String.ofList (unescape body), .ofSpan source ⟨0, Bytes.length source.chars⟩⟩,
        .eof ((Position.ofSpan source ⟨0, Bytes.length source.chars⟩).after 1)] := by
  have skipped : skipBlank false 0 source.chars = (0, source.chars) := by
    rw [text]
    rfl
  have found : Lexeme.read (skipBlank false 0 source.chars).2 =
      some ⟨.string, source.chars, []⟩ := by
    have read : Lexeme.read ('"' :: (body ++ ['"'])) = some (Lexeme.quoted (body ++ ['"'])) := rfl
    rw [skipped, text, read, Lexeme.quoted_closed items]
    rfl
  have content : Lexeme.content ⟨.string, source.chars, []⟩ = body := by
    rw [Lexeme.content, text]
    exact List.dropLast_concat
  obtain ⟨r, answer, step⟩ := next_of_read_some (t := ofSource source keywords) found
  have answer : r = .ok ⟨.string, String.ofList (unescape body),
      .ofSpan source ⟨0, Bytes.length source.chars⟩⟩ := by
    have place : r = reply (.ofSpan source ⟨Offset.clip (skipBlank false 0 source.chars).1,
        Offset.clip ((skipBlank false 0 source.chars).1 + Bytes.length source.chars)⟩)
        (.ok (.string, String.ofList (unescape body))) := by
      rw [answer, classify, content]
      rfl
    rw [place, skipped, Nat.zero_add, Offset.clip_of_le fits]
    rfl
  rw [answer] at step
  have pulled : readAll (ofSource source keywords) = ([_], .ok (.eof _)) :=
    (readAll_of_token step rfl).trans (by rw [readAll_of_end rfl rfl])
  obtain ⟨tokens, -⟩ := tokenize_of_readAll (congrArg Prod.snd pulled)
  rw [tokens, pulled]
  rfl

end Tokenizer

/-- A string value of any characters is read back from its quoted form, and nothing else is. -/
theorem quoted_value_is_read_back (value : String) (position : Position)
    (short : Bytes.length (escape literal value.toList) < 2 ^ 32 - 2) :
    (Token.mk .string value position).render = "String " ++ quote literal value ∧
      ∀ name keywords,
        let source := Source.ofText name (quote literal value)
        let place := Position.ofSpan source ⟨0, Bytes.length source.chars⟩
        (Tokenizer.ofSource source keywords).tokenize =
          .ok [⟨.string, value, place⟩, .eof (place.after 1)] := by
  refine ⟨Token.render_string value position, ?_⟩
  intro name keywords source place
  have text : source.chars = '"' :: (escape literal value.toList ++ ['"']) :=
    String.toList_ofList
  have size : Bytes.length source.chars = 1 + (Bytes.length (escape literal value.toList) + 1) := by
    rw [text, Bytes.length, Bytes.length_append]
    rfl
  have fits : Bytes.length source.chars ≤ Offset.limit := by
    simp only [Offset.limit]
    omega
  have read := Tokenizer.tokenize_quoted keywords (escape_literal_mem_items value.toList) text fits
  rw [unescape_escape_literal, String.ofList_toList] at read
  exact read

def roughValue : String := "\"\r\n// \\n\\"

theorem roughValue_is_read_back :
    Bytes.length (escape literal roughValue.toList) < 2 ^ 32 - 2 ∧
      (Token.mk .string roughValue .detached).render = "String " ++ quote literal roughValue ∧
        ∀ name keywords,
          let source := Source.ofText name (quote literal roughValue)
          let place := Position.ofSpan source ⟨0, Bytes.length source.chars⟩
          (Tokenizer.ofSource source keywords).tokenize =
            .ok [⟨.string, roughValue, place⟩, .eof (place.after 1)] := by
  have short : Bytes.length (escape literal roughValue.toList) < 2 ^ 32 - 2 := by decide +kernel
  exact ⟨short, quoted_value_is_read_back roughValue .detached short⟩

end Lockstep
