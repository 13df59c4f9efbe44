import Lockstep.Grammar.Builder
import Lockstep.Parse
import Lockstep.Proofs.LongestMatch
import Lockstep.Proofs.Rows
import Mathlib.Data.List.TakeWhile

set_option autoImplicit false

namespace Lockstep

open TokenSource (readAll readAll_of_token readAll_of_end)

inductive Operates (text : String) : Pattern → Prop where
  | made (b : Builder) : Operates text (b.operator text).1
  | defined (b b' : Builder) (name : String) : Operates text (b'.define name (b.operator text).1).1

/-- A token starts at the line and column where the one before it ends. -/
def Glued (previous token : Token) : Prop := token.position.first = previous.position.last

/-- The tokens are the characters of the text, each as a symbol, with nothing between them. -/
structure Spells (text : String) (tokens : List Token) : Prop where
  symbols : tokens.map (fun t => (t.kind, t.value)) = text.toList.map fun c => (.symbol, c.toString)
  glued : tokens.IsChain Glued

def symbolPart (guards : List Predicate) (c : Char) : Spec × List Predicate :=
  (⟨.symbol, some c.toString⟩, guards)

/-- The characters of an operator; all but the first are glued to the one before. -/
def operatorRow : List Char → Row
  | [] => []
  | c :: cs => symbolPart [] c :: cs.map (symbolPart [.noSpace])

theorem operatorRow_patterns (c : Char) (cs : List Char) :
    (operatorRow (c :: cs)).patterns =
      Builder.operatorPart false c :: cs.map (Builder.operatorPart true) := by
  simp only [operatorRow, Row.patterns, List.map_cons, List.map_map]
  rfl

theorem operatorRow_plain (cs : List Char) : (operatorRow cs).Plain := by
  cases cs with
  | nil => exact fun part mem => nomatch mem
  | cons c cs =>
    refine List.forall_mem_cons.mpr ⟨nofun, ?_⟩
    intro part mem
    obtain ⟨d, -, rfl⟩ := List.mem_map.mp mem
    exact nofun

theorem accepts_symbol_iff {value : String} {token : Token} :
    Spec.accepts ⟨.symbol, some value⟩ token = true ↔
      (token.kind, token.value) = (.symbol, value) := by
  rw [Prod.mk.injEq, eq_comm (a := token.value)]
  simp [Spec.accepts, Kind.castsTo]

theorem noSpace_holds_iff {previous token : Token} :
    (∀ guard ∈ [Predicate.noSpace], guard.test token previous.position.endPoint = true) ↔
      Glued previous token := by
  rw [List.forall_mem_singleton]
  exact beq_iff_eq

theorem fits_glued_iff {cs : List Char} {previous : Token} {tokens : List Token} :
    Row.Fits (cs.map (symbolPart [.noSpace])) previous.position tokens ↔
      tokens.map (fun t => (t.kind, t.value)) = cs.map (fun c => (.symbol, c.toString)) ∧
        (previous :: tokens).IsChain Glued := by
  induction cs generalizing previous tokens with
  | nil =>
    cases tokens with
    | nil => exact iff_of_true .nil ⟨rfl, .singleton previous⟩
    | cons token tokens =>
      exact iff_of_false (fun fits => nomatch fits) (fun both => nomatch both.1)
  | cons c cs ih =>
    cases tokens with
    | nil => exact iff_of_false (fun fits => nomatch fits) (fun both => nomatch both.1)
    | cons token tokens =>
      rw [List.map_cons, Row.fits_part_iff, symbolPart, accepts_symbol_iff, noSpace_holds_iff, ih,
        List.map_cons, List.map_cons, List.cons.injEq, List.isChain_cons_cons]
      constructor
      · rintro ⟨⟨symbol, glued⟩, symbols, chain⟩
        exact ⟨⟨symbol, symbols⟩, glued, chain⟩
      · rintro ⟨⟨symbol, symbols⟩, glued, chain⟩
        exact ⟨⟨symbol, glued⟩, symbols, chain⟩

theorem fits_iff_spells {text : String} {c : Char} {cs : List Char} (chars : text.toList = c :: cs)
    {start : Position} {tokens : List Token} :
    (operatorRow (c :: cs)).Fits start tokens ↔ Spells text tokens := by
  have spells_iff : Spells text tokens ↔
      tokens.map (fun t => (t.kind, t.value)) = (c :: cs).map (fun c => (.symbol, c.toString)) ∧
        tokens.IsChain Glued := by
    rw [← chars]
    exact ⟨fun spells => ⟨spells.symbols, spells.glued⟩, fun both => ⟨both.1, both.2⟩⟩
  rw [spells_iff, operatorRow]
  cases tokens with
  | nil => exact iff_of_false (fun fits => nomatch fits) (fun both => nomatch both.1)
  | cons token tokens =>
    have free : ∀ guard ∈ ([] : List Predicate), guard.test token start.endPoint = true :=
      fun guard mem => nomatch mem
    rw [Row.fits_part_iff, symbolPart, accepts_symbol_iff, fits_glued_iff, List.map_cons,
      List.map_cons, List.cons.injEq]
    constructor
    · rintro ⟨⟨symbol, -⟩, symbols, chain⟩
      exact ⟨⟨symbol, symbols⟩, chain⟩
    · rintro ⟨⟨symbol, symbols⟩, chain⟩
      exact ⟨⟨symbol, free⟩, symbols, chain⟩

theorem operator_of_one {text : String} {c : Char} (chars : text.toList = [c]) (b : Builder) :
    (b.operator text).1 = .token ⟨.symbol, some c.toString⟩ [] := by
  simp only [Builder.operator, chars]
  rfl

theorem operator_of_more {text : String} {c d : Char} {cs : List Char}
    (chars : text.toList = c :: d :: cs) (b : Builder) :
    (b.operator text).1 = .sequence b.nextMark none (operatorRow (c :: d :: cs)).patterns
      (.joinedSymbol text) [] := by
  rw [operatorRow_patterns]
  simp only [Builder.operator, chars]
  rfl

/-- A pattern of an operator is a row of symbols, unless it is a single symbol. -/
theorem Operates.cases {text : String} {pattern : Pattern} (h : Operates text pattern) {c : Char}
    {cs : List Char} (chars : text.toList = c :: cs) :
    (cs = [] ∧ pattern = .token ⟨.symbol, some c.toString⟩ []) ∨
      ∃ mark name? build, pattern = .sequence mark name? (operatorRow (c :: cs)).patterns build [] ∧
        (cs = [] ∧ build = .nth 0 ∨ cs ≠ [] ∧ build = .joinedSymbol text) := by
  cases cs with
  | nil =>
    cases h with
    | made b => exact .inl ⟨rfl, operator_of_one chars b⟩
    | defined b b' name =>
      have made : (b'.define name (b.operator text).1).1 =
          .sequence b'.nextMark (some name) (operatorRow [c]).patterns (.nth 0) [] := by
        rw [operator_of_one chars b]
        rfl
      exact .inr ⟨_, _, _, made, .inl ⟨rfl, rfl⟩⟩
  | cons d cs =>
    have more := List.cons_ne_nil d cs
    cases h with
    | made b => exact .inr ⟨_, _, _, operator_of_more chars b, .inr ⟨more, rfl⟩⟩
    | defined b b' name =>
      have made : (b'.define name (b.operator text).1).1 =
          .sequence b'.nextMark (some name) (operatorRow (c :: d :: cs)).patterns
            (.joinedSymbol text) [] := by
        rw [operator_of_more chars b]
        rfl
      exact .inr ⟨_, _, _, made, .inr ⟨more, rfl⟩⟩

theorem Spells.ends {text : String} {tokens : List Token} (spells : Spells text tokens) {c : Char}
    {cs : List Char} (chars : text.toList = c :: cs) :
    ∃ first last, tokens.head? = some first ∧ tokens.getLast? = some last := by
  cases tokens with
  | nil =>
    have none := spells.symbols
    rw [chars] at none
    cases none
  | cons first tokens => exact ⟨first, _, rfl, List.getLast?_eq_some_getLast (List.cons_ne_nil _ _)⟩

theorem joinedSymbol_tokens (text : String) {tokens : List Token} {first last : Token}
    (head : tokens.head? = some first) (getLast : tokens.getLast? = some last) :
    Combiner.joinedSymbol text (tokens.map .token) =
      .token ⟨.symbol, text, first.position.upTo last.position⟩ := by
  obtain ⟨tokens, rfl⟩ := List.head?_eq_some_iff.mp head
  have last_eq : (first :: tokens).getLast (List.cons_ne_nil first tokens) = last :=
    Option.some.inj ((List.getLast?_eq_some_getLast _).symm.trans getLast)
  have position : ((Capture.token first :: tokens.map .token).getLast
      (List.cons_ne_nil _ _)).position = last.position := by
    have mapped := List.getLast_map (f := Capture.token) (l := first :: tokens)
      (List.cons_ne_nil _ _)
    rw [last_eq] at mapped
    exact congrArg Capture.position mapped
  simp only [Combiner.joinedSymbol, List.map_cons, Capture.span?, position]
  rfl

/-- A run over `tokens` gives one symbol if the limits suffice and the tokens spell the text, and
nothing otherwise. -/
structure ReadsOperator (text : String) (limits : Limits) (tokens : List Token)
    (run : Option ParseError × Parser) : Prop where
  ok_iff : run.1 = none ↔ limits.SufficeForRow
  matches_iff : run.2.results.toList ≠ [] ↔ limits.SufficeForRow ∧ Spells text tokens
  single : run.2.results.toList ≠ [] → ∃ first last, tokens.head? = some first ∧
    tokens.getLast? = some last ∧
      run.2.results.toList = [.token ⟨.symbol, text, first.position.upTo last.position⟩]

namespace Parser

theorem feedToEnd_operator {text : String} {pattern : Pattern} (operates : Operates text pattern)
    (long : 2 ≤ text.length) (p₀ : Parser) (start : Position) (tokens : List Token) :
    ReadsOperator text p₀.limits (tokens.takeWhile fun t => !t.isEof)
      ((p₀.setup pattern start).feedToEnd tokens) := by
  obtain ⟨c, d, cs, chars⟩ : ∃ c d cs, text.toList = c :: d :: cs := by
    rw [← String.length_toList] at long
    match text.toList, long with
    | c :: d :: cs, _ => exact ⟨c, d, cs, rfl⟩
  obtain ⟨mark, name?, rfl⟩ : ∃ mark name?, pattern = .sequence mark name?
      (operatorRow (c :: d :: cs)).patterns (.joinedSymbol text) [] := by
    rcases operates.cases chars with ⟨none, -⟩ | ⟨mark, name?, build, same, ⟨none, -⟩ | ⟨-, rfl⟩⟩
    · cases none
    · cases none
    · exact ⟨mark, name?, same⟩
  have some : operatorRow (c :: d :: cs) ≠ [] := List.cons_ne_nil _ _
  obtain ⟨errs, outcome⟩ := feedToEnd_row mark name? (.joinedSymbol text) p₀ start some
    (operatorRow_plain (c :: d :: cs)) tokens
  rw [fits_iff_spells chars] at outcome
  rcases outcome with ⟨suffice, spells, results⟩ | ⟨fails, results⟩
  · obtain ⟨first, last, head, getLast⟩ := spells.ends chars
    rw [joinedSymbol_tokens text head getLast] at results
    have some : _ ≠ [] := results ▸ List.cons_ne_nil _ _
    exact ⟨errs, iff_of_true some ⟨suffice, spells⟩,
      fun _ => ⟨first, last, head, getLast, results⟩⟩
  · exact ⟨errs, iff_of_false (fun some => some results) fails, fun some => absurd results some⟩

end Parser

/-- Characters that are read as symbols, where no two slashes start a comment. -/
structure OnlySymbols (cs : List Char) : Prop where
  symbols : ∀ c ∈ cs, Rule.isOther c = true
  noComment : ¬ ['/', '/'] <:+: cs

def symbolsFrom (source : Source) : (offset : Nat) → List Char → List Token
  | _, [] => []
  | offset, c :: cs =>
    ⟨.symbol, c.toString, .ofSpan source ⟨offset, offset + c.utf8Size⟩⟩ ::
      symbolsFrom source (offset + c.utf8Size) cs

section

variable {source : Source} {offset : Nat} {c : Char} {cs : List Char}

theorem OnlySymbols.tail (only : OnlySymbols (c :: cs)) : OnlySymbols cs where
  symbols d mem := only.symbols d (List.mem_cons_of_mem c mem)
  noComment inside := only.noComment (List.IsInfix.trans inside (List.suffix_cons c cs).isInfix)

theorem OnlySymbols.read (only : OnlySymbols (c :: cs)) (offset : Nat) :
    skipBlank false offset (c :: cs) = (offset, c :: cs) ∧
      Lexeme.read (c :: cs) = some ⟨.symbol, [c], cs⟩ := by
  obtain ⟨notBlank, notStart, notDigit, notMark⟩ :=
    Rule.isOther_iff.mp (only.symbols c List.mem_cons_self)
  have alone : ¬ (c = '/' ∧ cs.head? = some '/') := by
    rintro ⟨rfl, slash⟩
    obtain ⟨cs, rfl⟩ := List.head?_eq_some_iff.mp slash
    exact only.noComment ⟨[], cs, rfl⟩
  constructor
  · simp [skipBlank, notBlank, alone]
  · simp [Lexeme.read, notStart, notDigit, notMark]

theorem readAll_symbols {t : Tokenizer} (only : OnlySymbols t.rest)
    (fits : t.offset + Bytes.length t.rest ≤ Offset.limit) :
    ∃ eof, readAll t = (symbolsFrom t.source t.offset t.rest, .ok eof) := by
  induction chars : t.rest generalizing t with
  | nil =>
    have found : Lexeme.read (skipBlank false t.offset t.rest).2 = none := by
      rw [chars]
      rfl
    have step := Tokenizer.next_of_read_none found
    exact ⟨_, readAll_of_end step rfl⟩
  | cons c cs ih =>
    rw [chars] at only fits
    obtain ⟨skipped, read⟩ := only.read t.offset
    have found : Lexeme.read (skipBlank false t.offset t.rest).2 = some ⟨.symbol, [c], cs⟩ := by
      rw [chars, skipped]
      exact read
    obtain ⟨r, answer, step⟩ := Tokenizer.next_of_read_some found
    have size : Bytes.length (c :: cs) = c.utf8Size + Bytes.length cs := rfl
    have answer : r = .ok ⟨.symbol, c.toString,
        .ofSpan t.source ⟨t.offset, t.offset + c.utf8Size⟩⟩ := by
      have one : Bytes.length [c] = c.utf8Size := rfl
      rw [chars, skipped, one, Offset.clip_of_le (by omega), Offset.clip_of_le (by omega)] at answer
      exact answer
    rw [chars, skipped, answer] at step
    obtain ⟨u, step, source_eq, offset_eq, rest_eq⟩ : ∃ u, t.next = (.ok _, u) ∧
        u.source = t.source ∧ u.offset = t.offset + c.utf8Size ∧ u.rest = cs :=
      ⟨_, step, rfl, rfl, rfl⟩
    have pulled : readAll t = _ := readAll_of_token step rfl
    have fits' : u.offset + Bytes.length u.rest ≤ Offset.limit := by
      rw [offset_eq, rest_eq]
      omega
    obtain ⟨eof, later⟩ := ih (rest_eq ▸ only.tail) fits' rest_eq
    rw [source_eq, offset_eq] at later
    rw [later] at pulled
    exact ⟨eof, pulled⟩

theorem symbolsFrom_symbols (source : Source) (offset : Nat) (cs : List Char) :
    (symbolsFrom source offset cs).map (fun t => (t.kind, t.value)) =
      cs.map fun c => (.symbol, c.toString) := by
  induction cs generalizing offset with
  | nil => rfl
  | cons c cs ih => rw [symbolsFrom, List.map_cons, List.map_cons, ih]

theorem symbolsFrom_glued (source : Source) (offset : Nat) (cs : List Char) :
    (symbolsFrom source offset cs).IsChain Glued := by
  induction cs generalizing offset with
  | nil => exact .nil
  | cons c cs ih =>
    cases cs with
    | nil => exact .singleton _
    | cons d cs => exact .cons_cons rfl (ih (offset + c.utf8Size))

theorem OnlySymbols.startsAfter_eq (only : OnlySymbols cs) (offset : Nat) :
    LineTable.startsAfter offset cs = [] := by
  induction cs generalizing offset with
  | nil => rfl
  | cons c cs ih =>
    have notFeed : c ≠ '\n' := by
      rintro rfl
      exact absurd (only.symbols '\n' List.mem_cons_self) (by decide)
    have notReturn : c ≠ '\r' := by
      rintro rfl
      exact absurd (only.symbols '\r' List.mem_cons_self) (by decide)
    rw [LineTable.startsAfter.eq_3 _ _ _ fun _ same => absurd same notReturn]
    rw [if_neg (by simp [notFeed, notReturn])]
    exact ih only.tail (offset + c.utf8Size)

theorem OnlySymbols.lineCol_eq (only : OnlySymbols source.chars) (offset : Nat) :
    source.lineCol offset = ⟨0, min offset (Bytes.length source.chars)⟩ := by
  have table : source.table = ⟨#[0], Bytes.length source.chars⟩ := by
    have same : source.table = LineTable.ofText source.chars := source.table_eq
    rw [same, LineTable.ofText, only.startsAfter_eq]
  have line : LineTable.lineOf ⟨#[0], Bytes.length source.chars⟩
      (min offset (Bytes.length source.chars)) = 0 := by
    rw [LineTable.lineOf, LineTable.search]
    rfl
  rw [Source.lineCol, table, LineTable.lineCol, line]
  rfl

theorem OnlySymbols.upTo_eq (only : OnlySymbols source.chars) {a b a' b' : Nat} (start : a ≤ a')
    (stop : b ≤ b') :
    (Position.ofSpan source ⟨a, b⟩).upTo (.ofSpan source ⟨a', b'⟩) = .ofSpan source ⟨a, b'⟩ := by
  have ascending : ∀ {m n : Nat}, m ≤ n → source.lineCol m ≤ source.lineCol n := by
    intro m n le
    rw [only.lineCol_eq, only.lineCol_eq]
    exact .inr ⟨rfl, by simp only; omega⟩
  have first : min (source.lineCol a) (source.lineCol a') = source.lineCol a :=
    if_pos (ascending start)
  have last : max (source.lineCol b) (source.lineCol b') = source.lineCol b' :=
    if_pos (ascending stop)
  simp only [Position.upTo, Position.ofSpan, Span.cover, first, last, Nat.min_eq_left start,
    Nat.max_eq_right stop]

theorem symbolsFrom_getLast? (source : Source) (offset : Nat) (c : Char) (cs : List Char) :
    ∃ last start, (symbolsFrom source offset (c :: cs)).getLast? = some last ∧ offset ≤ start ∧
      last.position = .ofSpan source ⟨start, offset + Bytes.length (c :: cs)⟩ := by
  induction cs generalizing offset c with
  | nil => exact ⟨_, offset, rfl, Nat.le_refl offset, rfl⟩
  | cons d cs ih =>
    obtain ⟨last, start, getLast, after, position⟩ := ih (offset + c.utf8Size) d
    refine ⟨last, start, ?_, by omega, ?_⟩
    · rw [symbolsFrom, ← getLast]
      rfl
    · rw [position, Nat.add_assoc]
      rfl

theorem symbolsFrom_capture (only : OnlySymbols source.chars) (chars : source.chars = c :: cs)
    {build : Combiner}
    (which : cs = [] ∧ build = .nth 0 ∨ cs ≠ [] ∧ build = .joinedSymbol source.text) :
    build ((symbolsFrom source 0 source.chars).map .token) =
      .token ⟨.symbol, source.text, .ofSpan source ⟨0, Bytes.length source.chars⟩⟩ := by
  rcases which with ⟨rfl, rfl⟩ | ⟨-, rfl⟩
  · have value : c.toString = source.text := by
      rw [← String.toList_inj]
      exact (String.toList_singleton c).trans chars.symm
    have size : 0 + c.utf8Size = Bytes.length [c] := Nat.zero_add c.utf8Size
    rw [chars, symbolsFrom, value, size]
    rfl
  · obtain ⟨last, start, getLast, -, position⟩ := symbolsFrom_getLast? source 0 c cs
    have head : (symbolsFrom source 0 (c :: cs)).head? =
      some ⟨.symbol, c.toString, .ofSpan source ⟨0, 0 + c.utf8Size⟩⟩ := rfl
    have size : 0 + Bytes.length (c :: cs) = c.utf8Size + Bytes.length cs := Nat.zero_add _
    rw [chars, joinedSymbol_tokens source.text head getLast, position,
      only.upTo_eq (Nat.zero_le start) (by omega), Nat.zero_add]

end

theorem Spells.plain {text : String} {tokens : List Token} (spells : Spells text tokens) :
    ∀ token ∈ tokens, token.isEof = false := by
  intro token mem
  have among : (token.kind, token.value) ∈ text.toList.map fun c => (Kind.symbol, c.toString) := by
    rw [← spells.symbols]
    exact List.mem_map_of_mem mem
  obtain ⟨c, -, same⟩ := List.mem_map.mp among
  have kind : token.kind = .symbol := (congrArg Prod.fst same).symm
  rw [Token.isEof, kind]
  rfl

namespace Parser

theorem feedToEnd_of_spells {text : String} {pattern : Pattern} (operates : Operates text pattern)
    {c : Char} {cs : List Char} (chars : text.toList = c :: cs) (p₀ : Parser)
    (suffice : p₀.limits.SufficeForRow) (start : Position) {tokens : List Token}
    (spells : Spells text tokens) :
    let run := (p₀.setup pattern start).feedToEnd tokens
    run.1 = none ∧ ∃ build : Combiner, run.2.results.toList = [build (tokens.map .token)] ∧
      (cs = [] ∧ build = .nth 0 ∨ cs ≠ [] ∧ build = .joinedSymbol text) := by
  have fits : (operatorRow (c :: cs)).Fits start tokens := (fits_iff_spells chars).mpr spells
  have all : tokens.takeWhile (fun t => !t.isEof) = tokens := by
    refine List.takeWhile_eq_self_iff.mpr ?_
    intro token mem
    rw [spells.plain token mem]
    rfl
  intro run
  rcases operates.cases chars with ⟨rfl, rfl⟩ | ⟨mark, name?, build, rfl, which⟩
  · have stands : Row.Stands (.ofPattern p₀.grammar p₀.limits
        (.token ⟨.symbol, some c.toString⟩ []) start)
        ⟨none, [.token ⟨.symbol, some c.toString⟩ []], .nth 0⟩ [] [] (operatorRow [c]) :=
      Row.stands_of_settled rfl rfl rfl rfl (operatorRow_plain [c]) (fun _ => rfl) suffice.1
        (Nat.le_of_succ_le suffice.2)
    obtain ⟨u, ended, outcome⟩ := stands.feedToEnd tokens
    rw [feedToEnd_setup] at ended
    rw [all] at outcome
    rcases outcome with ⟨-, results⟩ | ⟨misfit, -⟩
    · obtain ⟨errs, left⟩ := Prod.mk.inj ended
      rw [← left] at results
      exact ⟨errs, .nth 0, results, .inl ⟨rfl, rfl⟩⟩
    · exact absurd fits misfit
  · have some : operatorRow (c :: cs) ≠ [] := List.cons_ne_nil _ _
    obtain ⟨errs, outcome⟩ := feedToEnd_row mark name? build p₀ start some
      (operatorRow_plain (c :: cs)) tokens
    rw [all] at outcome
    rcases outcome with ⟨-, -, results⟩ | ⟨fails, -⟩
    · exact ⟨errs.mpr suffice, build, results, which⟩
    · exact absurd ⟨suffice, fits⟩ fails

end Parser

namespace Grammar

/-- A parse of a source that ends gives what feeding its tokens gives, if that is no error. -/
theorem parse_of_feedToEnd {σ : Type} [TokenSource σ] {g : Grammar} {name? : Option String}
    {pattern : Pattern} (entry : g.entry name? = .ok pattern) {s : σ} {tokens : List Token}
    {eof : Token} (all : readAll s = (tokens, .ok eof)) {limits : Limits} {result : Capture}
    {run : Option ParseError × Parser} (fed : run = ((Parser.ofGrammar g limits).setup pattern
      (TokenSource.start s)).feedToEnd tokens)
    (errs : run.1 = none) (results : run.2.results.toList = [result]) :
    g.parse name? s limits = .ok [result] := by
  have pulled := Parser.parse_eq_feedToEnd ((Parser.ofGrammar g limits).setup pattern
    (TokenSource.start s)) s (congrArg Prod.snd all)
  rw [all, ← fed] at pulled
  simp only [parse, entry]
  generalize Parser.parse _ s = outcome at pulled ⊢
  obtain ⟨error?, q, rest⟩ := outcome
  subst pulled
  cases errs
  have results : q.results = #[result] := Array.toList_inj.mp results
  have accepted : q.hasError = false := by
    rw [Parser.hasError, results]
    exact Bool.and_false _
  simp only [accepted, results, Bool.false_eq_true, ↓reduceIte]

theorem parseSource_operator {text : String} {pattern : Pattern} (operates : Operates text pattern)
    (only : OnlySymbols text.toList) (some : text ≠ "") {g : Grammar}
    (main : g.mainPattern? = .some pattern) {source : Source} (same : source.text = text)
    (short : Bytes.length source.chars < 2 ^ 32) {limits : Limits}
    (suffice : limits.SufficeForRow) :
    g.parseSource source limits =
      .ok [.token ⟨.symbol, text, .ofSpan source ⟨0, Bytes.length source.chars⟩⟩] := by
  subst same
  have only : OnlySymbols source.chars := only
  obtain ⟨c, cs, chars⟩ : ∃ c cs, source.chars = c :: cs := by
    refine List.exists_cons_of_ne_nil ?_
    exact fun none => some (String.toList_inj.mp none)
  have entry : g.entry none = .ok pattern := by rw [Grammar.entry, main]
  have fits : 0 + Bytes.length source.chars ≤ Offset.limit := by
    rw [Nat.zero_add, Offset.limit]
    omega
  obtain ⟨eof, all⟩ := readAll_symbols (t := .ofSource source g.keywords) only fits
  have spells : Spells source.text (symbolsFrom source 0 source.chars) :=
    ⟨symbolsFrom_symbols source 0 source.chars, symbolsFrom_glued source 0 source.chars⟩
  obtain ⟨errs, build, results, which⟩ := Parser.feedToEnd_of_spells operates chars
    (.ofGrammar g limits) suffice (TokenSource.start (Tokenizer.ofSource source g.keywords)) spells
  rw [symbolsFrom_capture only chars which] at results
  exact parse_of_feedToEnd entry all rfl errs results

end Grammar

/-- An operator stands for its characters with nothing between them, and for nothing else. -/
theorem operator_matches_glued_characters {text : String} {pattern : Pattern}
    (operates : Operates text pattern) :
    (2 ≤ text.length → ∀ (p₀ : Parser) (start : Position) (tokens : List Token),
      ReadsOperator text p₀.limits (tokens.takeWhile fun t => !t.isEof)
        ((p₀.setup pattern start).feedToEnd tokens)) ∧
      (text ≠ "" → OnlySymbols text.toList → ∀ (g : Grammar) (source : Source) (limits : Limits),
        g.mainPattern? = some pattern → source.text = text →
          Bytes.length source.chars < 2 ^ 32 → limits.SufficeForRow →
            g.parseSource source limits =
              .ok [.token ⟨.symbol, text, .ofSpan source ⟨0, Bytes.length source.chars⟩⟩]) := by
  refine ⟨fun long p₀ start tokens => Parser.feedToEnd_operator operates long p₀ start tokens, ?_⟩
  intro some only g source limits main same short suffice
  exact Grammar.parseSource_operator operates only some main same short suffice

def farArrow : Pattern := (Builder.empty.define "main" (Builder.empty.operator "⟶>").1).1

theorem farArrow_matches_glued_characters :
    2 ≤ "⟶>".length ∧ OnlySymbols "⟶>".toList ∧
      (∀ (p₀ : Parser) (start : Position) (tokens : List Token),
        ReadsOperator "⟶>" p₀.limits (tokens.takeWhile fun t => !t.isEof)
          ((p₀.setup farArrow start).feedToEnd tokens)) ∧
      Grammar.parseSource ⟨["main"], [("main", farArrow)], [], some "main"⟩ (.ofText "" "⟶>") {} =
        .ok [.token ⟨.symbol, "⟶>", .ofSpan (.ofText "" "⟶>") ⟨0, 4⟩⟩] := by
  have operates : Operates "⟶>" farArrow := .defined .empty .empty "main"
  have long : 2 ≤ "⟶>".length := by decide
  have only : OnlySymbols "⟶>".toList := ⟨List.all_eq_true.mp (by decide), by decide⟩
  have suffice : Limits.SufficeForRow {} := ⟨by decide, by decide⟩
  obtain ⟨matched, whole⟩ := operator_matches_glued_characters operates
  exact ⟨long, only, matched long, whole (by decide) only _ _ _ rfl rfl (by decide) suffice⟩

end Lockstep
