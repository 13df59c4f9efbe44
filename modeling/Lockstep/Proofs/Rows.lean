import Lockstep.Proofs.Pulling

set_option autoImplicit false

/-!
Tokens in a row. A sequence of nothing but tokens leaves one derivation at most, so a parse of it is
one derivation that takes the tokens one by one. It has a result if and only if the tokens are those
of the row, each under its guards, and then it has one.
-/

namespace Lockstep

/-- What each token of a row has to be, and the guards on it. -/
abbrev Row := List (Spec × List Predicate)

namespace Row

def patterns (row : Row) : List Pattern := row.map fun (spec, guards) => .token spec guards

def matchers (row : Row) : List Matcher := row.map fun (spec, guards) => .token spec guards

theorem lowerAll_patterns (row : Row) : Matcher.lowerAll row.patterns = row.matchers := by
  induction row with
  | nil => rfl
  | cons part row ih => exact congrArg (_ :: ·) ih

/-- The tokens are those of the row; the first of them follows `last`. -/
inductive Fits : Row → (last : Position) → List Token → Prop where
  | nil {last : Position} : Fits [] last []
  | cons {spec : Spec} {guards : List Predicate} {row : Row} {last : Position} {token : Token}
      {tokens : List Token} (accepted : spec.accepts token = true)
      (held : ∀ guard ∈ guards, guard.test token last.endPoint = true)
      (more : Fits row token.position tokens) : Fits ((spec, guards) :: row) last (token :: tokens)

/-- The derivation that waits for the first token of the row, or is complete if there is none, when
the parts of `s` before it have given `captured`. -/
def waiting (s : Sequence) (outer : List Frame) (captured : List Capture) : Row → Waiting
  | [] => ⟨.accepted, ⟨s, captured⟩ :: outer, []⟩
  | (spec, guards) :: _ => ⟨.token spec, ⟨s, captured⟩ :: outer, guards⟩

end Row

/-- The first guard that does not hold refuses a token, so none refuses it if all hold. -/
theorem Waiting.refusal?_isNone_iff (x : Waiting) (token : Token) (last : Position) :
    (x.refusal? token last).isNone = true ↔ ∀ guard ∈ x.guards, guard.test token last = true := by
  simp [Waiting.refusal?]

namespace Row

variable {s : Sequence} {outer : List Frame} {captured : List Capture} {row : Row} {spec : Spec}
  {guards : List Predicate}

theorem waiting_takes_iff {token : Token} {last : Position} :
    (waiting s outer captured ((spec, guards) :: row)).takes token last = true ↔
      spec.accepts token = true ∧ ∀ guard ∈ guards, guard.test token last = true := by
  simp only [waiting, Waiting.takes, Bool.and_eq_true, Waiting.refusal?_isNone_iff]

theorem settle_at_end (parts : s.parts.drop captured.length = matchers [])
    (closed : ∀ c, Frame.climb c outer = none) :
    Frame.settle (⟨s, captured⟩ :: outer) = .done (⟨s, captured⟩ :: outer) := by
  have next : Frame.next? ⟨s, captured⟩ = (matchers []).head? := by
    rw [← parts, List.head?_drop]
    rfl
  simp only [Frame.settle, next, matchers, List.map_nil, List.head?_nil, closed, Option.getD_none]

theorem settle_at_token (parts : s.parts.drop captured.length = matchers ((spec, guards) :: row)) :
    Frame.settle (⟨s, captured⟩ :: outer) =
      .next (.token spec guards) (⟨s, captured⟩ :: outer) := by
  have next : Frame.next? ⟨s, captured⟩ = (matchers ((spec, guards) :: row)).head? := by
    rw [← parts, List.head?_drop]
    rfl
  simp only [Frame.settle, next, matchers, List.map_cons, List.head?_cons]

theorem resolveStrands_settled (p : Phase) (budget branches made : Nat)
    (room : 1 ≤ p.limits.maxThreads) (parts : s.parts.drop captured.length = row.matchers)
    (closed : ∀ c, Frame.climb c outer = none) :
    p.resolveStrands (budget + 1) [⟨Frame.settle (⟨s, captured⟩ :: outer), []⟩] [] branches made =
      ⟨.ok [row.waiting s outer captured], branches, made⟩ := by
  cases row with
  | nil =>
    rw [settle_at_end parts closed]
    simp only [Phase.resolveStrands, Strand.expand, List.nil_append, Nat.add_zero]
    rfl
  | cons part row =>
    have free : ([] : List Waiting).length < p.limits.maxThreads := room
    rw [settle_at_token parts]
    simp only [Phase.resolveStrands, Strand.expand, Matcher.guards, free, ↓reduceIte,
      List.nil_append, Nat.add_zero]
    rfl

theorem resolveStrands_crowded (p : Phase) (budget branches made : Nat)
    (crowded : p.limits.maxThreads = 0)
    (parts : s.parts.drop captured.length = matchers ((spec, guards) :: row)) :
    (p.resolveStrands (budget + 1) [⟨Frame.settle (⟨s, captured⟩ :: outer), []⟩] []
      branches made).outcome = .error (.threadLimit p.limits.maxThreads p.position) := by
  have full : ¬ ([] : List Waiting).length < p.limits.maxThreads := by
    rw [crowded]
    exact Nat.lt_irrefl 0
  rw [settle_at_token parts]
  simp only [Phase.resolveStrands, Strand.expand, full, ↓reduceIte]

end Row

namespace Weave

variable {v : Weave} {x : Waiting} {token eof : Token}

def feedToEnd (v : Weave) (tokens : List Token) : Option ParseError × Weave :=
  match v.feedAll tokens with
  | (some e, u) => (some e, u)
  | (none, u) => u.finish

theorem feedToEnd_of_error {tokens : List Token} {e : ParseError} {u : Weave}
    (fed : v.feed token = (some e, u)) : v.feedToEnd (token :: tokens) = (some e, u) := by
  simp only [feedToEnd, feedAll, fed]

theorem feedToEnd_of_fed {tokens : List Token} {u : Weave} (fed : v.feed token = (none, u)) :
    v.feedToEnd (token :: tokens) = u.feedToEnd tokens := by
  simp only [feedToEnd, feedAll, fed]

theorem feedToEnd_of_stopped (stopped : v.isRunning = false) (tokens : List Token) :
    v.feedToEnd tokens = (none, v) := by
  induction tokens with
  | nil => simp only [feedToEnd, feedAll, finish, stopped, Bool.false_eq_true, ↓reduceIte]
  | cons token tokens ih =>
    rw [feedToEnd_of_fed (feed_of_stopped stopped token), ih]

/-- One derivation is left, and it waits as `x` for whatever comes. -/
structure Awaits (v : Weave) (x : Waiting) : Prop where
  runs : v.isRunning = true
  results_eq : v.results = []
  resolves : ∀ token, (v.resolve token).1 = .ok [x]

theorem Awaits.consume (h : v.Awaits x) (token : Token) :
    ∃ metrics allocated, v.consume token =
      (.ok ((x.meet token v.last.endPoint).survivors, (x.meet token v.last.endPoint).failures),
        { v with
          strands := []
          results := (x.meet token v.last.endPoint).results
          metrics
          allocated }) := by
  obtain ⟨metrics, allocated, left⟩ := v.resolve_snd token
  have resolved : v.resolve token = (.ok [x], { v with strands := [], metrics, allocated }) :=
    Prod.ext (h.resolves token) left
  refine ⟨metrics, allocated + Fate.madeBy [x.meet token v.last.endPoint], ?_⟩
  simp only [Weave.consume, resolved, gather, h.results_eq, List.map_cons, List.map_nil,
    List.flatMap_cons, List.flatMap_nil, List.append_nil, List.nil_append]

theorem Awaits.feed_of_takes (h : v.Awaits x) (plain : token.isEof = false)
    (takes : x.takes token v.last.endPoint = true) :
    ∃ u, v.feed token = (none, u) ∧ u.isRunning = true ∧ u.results = [] ∧ u.limits = v.limits ∧
      u.strands = [x.advance token] ∧ u.last = token.position := by
  obtain ⟨metrics, allocated, consumed⟩ := h.consume token
  rw [feed_of_plain h.runs plain]
  simp only [take, plain, consumed, Waiting.meet, takes, Bool.false_and, Bool.false_eq_true,
    ↓reduceIte, List.isEmpty_cons]
  exact ⟨_, rfl, h.runs, rfl, rfl, rfl, rfl⟩

theorem Awaits.feed_of_refuses (h : v.Awaits x) (plain : token.isEof = false)
    (refuses : x.takes token v.last.endPoint = false) :
    ∃ u, v.feed token = (none, u) ∧ u.isRunning = false ∧ u.results = [] := by
  obtain ⟨metrics, allocated, consumed⟩ := h.consume token
  rw [feed_of_plain h.runs plain]
  simp only [take, plain, consumed, Waiting.meet, refuses, Bool.false_and, Bool.false_eq_true,
    ↓reduceIte, List.isEmpty_nil]
  exact ⟨_, rfl, rfl, rfl⟩

theorem Awaits.finishAt (h : v.Awaits x) (marker : eof.isEof = true)
    (refuses : x.takes eof v.last.endPoint = false) :
    ∃ u, v.finishAt eof = (none, u) ∧ u.isRunning = false ∧
      u.results = if x.isComplete eof v.last.endPoint then [Frame.outermost x.frames] else [] := by
  obtain ⟨metrics, allocated, consumed⟩ := h.consume eof
  simp only [Weave.finishAt, consumed, complete, Waiting.meet, refuses, marker, Bool.true_and,
    Bool.false_eq_true, ↓reduceIte, List.isEmpty_nil, countNodes]
  cases complete : x.isComplete eof v.last.endPoint with
  | true =>
    simp only [↓reduceIte, List.isEmpty_cons, Bool.false_eq_true]
    exact ⟨_, rfl, rfl, rfl⟩
  | false =>
    simp only [Bool.false_eq_true, ↓reduceIte, List.isEmpty_nil]
    exact ⟨_, rfl, rfl, rfl⟩

end Weave

namespace Row

variable {v : Weave} {s : Sequence} {outer : List Frame}

def Plain (row : Row) : Prop := ∀ part ∈ row, part.1.kind ≠ .eof

theorem waiting_refuses_marker {captured : List Capture} {row : Row} {eof : Token}
    {last : Position}
    (plain : row.Plain) (marker : eof.isEof = true) :
    (row.waiting s outer captured).takes eof last = false := by
  cases row with
  | nil => rfl
  | cons part row =>
    have other := plain part List.mem_cons_self
    have kind : eof.kind = .eof := beq_iff_eq.mp marker
    have refused : part.1.accepts eof = false := by
      simp [Spec.accepts, Kind.castsTo, kind, other.symm]
    rw [← Bool.not_eq_true, waiting_takes_iff, refused]
    exact fun takes => absurd takes.1 Bool.false_ne_true

theorem waiting_isComplete_iff {captured : List Capture} {row : Row} {eof : Token}
    {last : Position} : (row.waiting s outer captured).isComplete eof last = true ↔ row = [] := by
  cases row with
  | nil => exact iff_of_true rfl rfl
  | cons part row => exact iff_of_false Bool.false_ne_true (List.cons_ne_nil part row)

theorem fits_nil_iff {row : Row} {last : Position} : row.Fits last [] ↔ row = [] := by
  constructor
  · intro fits
    cases fits
    rfl
  · rintro rfl
    exact .nil

theorem fits_part_iff {part : Spec × List Predicate} {row : Row} {last : Position} {token : Token}
    {tokens : List Token} : Fits (part :: row) last (token :: tokens) ↔
      (part.1.accepts token = true ∧ ∀ guard ∈ part.2, guard.test token last.endPoint = true) ∧
        Fits row token.position tokens := by
  constructor
  · intro fits
    cases fits with
    | cons accepted held more => exact ⟨⟨accepted, held⟩, more⟩
  · rintro ⟨⟨accepted, held⟩, more⟩
    exact .cons accepted held more

theorem fits_cons_iff (s : Sequence) (outer : List Frame) (captured : List Capture) {row : Row}
    {last : Position} {token : Token} {tokens : List Token} :
    row.Fits last (token :: tokens) ↔
      (row.waiting s outer captured).takes token last.endPoint = true ∧
        Fits row.tail token.position tokens := by
  cases row with
  | nil =>
    refine iff_of_false (fun fits => nomatch fits) fun takes => absurd takes.1 Bool.false_ne_true
  | cons part row => rw [fits_part_iff, waiting_takes_iff]; rfl

/-- One derivation is left. It waits for the first token of `row`, which is the end of `s`, and
nothing around `s` goes on after it. -/
structure Stands (v : Weave) (s : Sequence) (outer : List Frame) (captured : List Capture)
    (row : Row) : Prop where
  awaits : v.Awaits (row.waiting s outer captured)
  parts : s.parts.drop captured.length = row.matchers
  plain : row.Plain
  closed : ∀ c, Frame.climb c outer = none
  room : 1 ≤ v.limits.maxThreads
  steps : 1 ≤ v.limits.maxExpansions

section

variable {captured : List Capture} {row : Row} {token eof : Token}

theorem stands_of_settled (runs : v.isRunning = true) (results : v.results = [])
    (strands : v.strands = [⟨Frame.settle (⟨s, captured⟩ :: outer), []⟩])
    (parts : s.parts.drop captured.length = row.matchers) (plain : row.Plain)
    (closed : ∀ c, Frame.climb c outer = none) (room : 1 ≤ v.limits.maxThreads)
    (steps : 1 ≤ v.limits.maxExpansions) : Stands v s outer captured row := by
  refine ⟨⟨runs, results, ?_⟩, parts, plain, closed, room, steps⟩
  intro token
  obtain ⟨budget, budget_eq⟩ := Nat.exists_eq_add_of_le' steps
  rw [Weave.resolve_fst, strands, budget_eq, resolveStrands_settled _ budget _ _ room parts closed]

theorem Stands.feed (h : Stands v s outer captured row) (plain : token.isEof = false)
    (takes : (row.waiting s outer captured).takes token v.last.endPoint = true) :
    ∃ u, v.feed token = (none, u) ∧ u.last = token.position ∧
      Stands u s outer (captured ++ [.token token]) row.tail := by
  obtain ⟨u, fed, runs, results, limits, strands, last⟩ := h.awaits.feed_of_takes plain takes
  cases row with
  | nil => exact absurd takes Bool.false_ne_true
  | cons part row =>
    have strands : u.strands = [⟨Frame.settle (⟨s, captured ++ [.token token]⟩ :: outer), []⟩] :=
      strands
    have parts : s.parts.drop (captured ++ [Capture.token token]).length = Row.matchers row := by
      rw [List.length_append, ← List.drop_drop, h.parts]
      rfl
    have plain : Row.Plain row := fun p mem => h.plain p (List.mem_cons_of_mem part mem)
    have room := limits ▸ h.room
    have steps := limits ▸ h.steps
    exact ⟨u, fed, last, stands_of_settled runs results strands parts plain h.closed room steps⟩

theorem Stands.finishAt (h : Stands v s outer captured row) (marker : eof.isEof = true) :
    ∃ u, v.finishAt eof = (none, u) ∧ u.isRunning = false ∧
      (row.Fits v.last [] ∧ u.results = [Frame.outermost (⟨s, captured⟩ :: outer)] ∨
        ¬ row.Fits v.last [] ∧ u.results = []) := by
  obtain ⟨u, ended, stopped, results⟩ :=
    h.awaits.finishAt marker (waiting_refuses_marker h.plain marker)
  refine ⟨u, ended, stopped, ?_⟩
  rw [fits_nil_iff]
  by_cases done : row = []
  · rw [if_pos (waiting_isComplete_iff.mpr done)] at results
    subst done
    exact .inl ⟨rfl, results⟩
  · rw [if_neg (mt waiting_isComplete_iff.mp done)] at results
    exact .inr ⟨done, results⟩

/-- Tokens up to the first end marker, and the end of the input. There is no error, and one result
if the tokens fit. -/
theorem Stands.feedToEnd (h : Stands v s outer captured row) (tokens : List Token) :
    let fed := tokens.takeWhile fun t => !t.isEof
    ∃ u, v.feedToEnd tokens = (none, u) ∧
      (row.Fits v.last fed ∧
          u.results = [Frame.outermost (⟨s, captured ++ fed.map .token⟩ :: outer)] ∨
        ¬ row.Fits v.last fed ∧ u.results = []) := by
  induction tokens generalizing v row captured with
  | nil =>
    intro fed
    have marker : (Token.eof (v.last.endPoint.after 1)).isEof = true := rfl
    obtain ⟨u, ended, -, outcome⟩ := h.finishAt marker
    refine ⟨u, ?_, ?_⟩
    · exact (Weave.finish_of_running h.awaits.runs).trans ended
    · simpa [fed] using outcome
  | cons token tokens ih =>
    intro fed
    cases marked : token.isEof with
    | true =>
      obtain ⟨u, ended, stopped, outcome⟩ := h.finishAt marked
      have first : v.feed token = (none, u) := by
        rw [Weave.feed_of_marker h.awaits.runs marked, ended]
      refine ⟨u, ?_, ?_⟩
      · rw [Weave.feedToEnd_of_fed first, Weave.feedToEnd_of_stopped stopped]
      · simpa [fed, marked] using outcome
    | false =>
      have fed_eq : fed = token :: tokens.takeWhile fun t => !t.isEof := by
        simp [fed, marked]
      rw [fed_eq, fits_cons_iff s outer captured]
      cases takes : (row.waiting s outer captured).takes token v.last.endPoint with
      | true =>
        obtain ⟨u, first, last, stands⟩ := h.feed marked takes
        obtain ⟨u', ended, outcome⟩ := ih stands
        rw [last] at outcome
        refine ⟨u', (Weave.feedToEnd_of_fed first).trans ended, ?_⟩
        simpa using outcome
      | false =>
        obtain ⟨u, first, stopped, results⟩ := h.awaits.feed_of_refuses marked takes
        refine ⟨u, (Weave.feedToEnd_of_fed first).trans (Weave.feedToEnd_of_stopped stopped _), ?_⟩
        exact .inr ⟨fun both => absurd both.1 Bool.false_ne_true, results⟩

end

end Row

/-- Enough to take the tokens of a sequence one by one: one derivation, and one step to enter the
sequence and one to come to a token. -/
def Limits.SufficeForRow (limits : Limits) : Prop :=
  1 ≤ limits.maxThreads ∧ 2 ≤ limits.maxExpansions

namespace Weave

variable {v : Weave}

theorem feedToEnd_of_stuck (runs : v.isRunning = true) (results : v.results = [])
    (stuck : ∀ token, ∃ e, (v.resolve token).1 = .error e) (tokens : List Token) :
    ∃ e u, v.feedToEnd tokens = (some e, u) ∧ u.results = [] := by
  have consumed : ∀ token, ∃ e u, v.consume token = (.error e, u) ∧ u.results = [] := by
    intro token
    obtain ⟨e, failed⟩ := stuck token
    obtain ⟨metrics, allocated, left⟩ := v.resolve_snd token
    have resolved : v.resolve token = (.error e, { v with strands := [], metrics, allocated }) :=
      Prod.ext failed left
    refine ⟨e, { v with strands := [], metrics, allocated }, ?_, results⟩
    simp only [consume, resolved]
  have ended : ∀ eof, ∃ e u, v.finishAt eof = (some e, u) ∧ u.results = [] := by
    intro eof
    obtain ⟨e, u, failed, none⟩ := consumed eof
    exact ⟨e, u.halt, by simp only [finishAt, failed], none⟩
  cases tokens with
  | nil =>
    obtain ⟨e, u, failed, none⟩ := ended (.eof (v.last.endPoint.after 1))
    exact ⟨e, u, (finish_of_running runs).trans failed, none⟩
  | cons token tokens =>
    cases marked : token.isEof with
    | true =>
      obtain ⟨e, u, failed, none⟩ := ended token
      have first : v.feed token = (some e, u) := by
        rw [feed_of_marker runs marked, failed]
      exact ⟨e, u, feedToEnd_of_error first, none⟩
    | false =>
      obtain ⟨e, u, failed, none⟩ := consumed token
      have first : v.feed token = (some e, u.countToken.halt) := by
        simp only [feed_of_plain runs marked, take, failed]
      exact ⟨e, _, feedToEnd_of_error first, none⟩

end Weave

namespace Row

def sequence (name? : Option String) (row : Row) (build : Combiner) : Sequence :=
  ⟨name?, row.matchers, build⟩

def around (name? : Option String) (row : Row) (build : Combiner) : List Frame :=
  [⟨⟨none, [.sequence name? row.matchers build []], .nth 0⟩, []⟩]

variable (mark : Nat) (name? : Option String) (build : Combiner) {row : Row} {limits : Limits}

theorem ofPattern_strands (g : Grammar) (start : Position) :
    (Weave.ofPattern g limits (.sequence mark name? row.patterns build []) start).strands =
      [⟨.next (.sequence name? row.matchers build []) (around name? row build), []⟩] := by
  simp only [Weave.ofPattern, Matcher.lower, lowerAll_patterns]
  rfl

theorem resolveStrands_enters (row : Row) (p : Phase) (budget branches made : Nat) :
    ∃ made', p.resolveStrands (budget + 1)
        [⟨.next (.sequence name? row.matchers build []) (around name? row build), []⟩] []
        branches made =
      p.resolveStrands budget
        [⟨Frame.settle (⟨sequence name? row build, []⟩ :: around name? row build), []⟩] []
        branches made' :=
  ⟨_, rfl⟩

theorem stands_ofPattern (g : Grammar) (start : Position) (plain : row.Plain)
    (suffice : limits.SufficeForRow) :
    Stands (.ofPattern g limits (.sequence mark name? row.patterns build []) start)
      (sequence name? row build) (around name? row build) [] row := by
  obtain ⟨room, steps⟩ := suffice
  have closed : ∀ c, Frame.climb c (around name? row build) = none := fun _ => rfl
  refine ⟨⟨rfl, rfl, ?_⟩, rfl, plain, closed, room, Nat.le_of_succ_le steps⟩
  intro token
  obtain ⟨budget, budget_eq⟩ := Nat.exists_eq_add_of_le' steps
  rw [Weave.resolve_fst, ofPattern_strands mark name? build, Weave.ofPattern, budget_eq]
  obtain ⟨made, entered⟩ := resolveStrands_enters name? build row
    ⟨g, limits, .empty start.endPoint, token.position⟩ (budget + 1) 0 1
  rw [entered, resolveStrands_settled _ budget 0 made room rfl closed]

theorem stuck_ofPattern (g : Grammar) (start : Position) (some : row ≠ [])
    (scarce : ¬ limits.SufficeForRow) (token : Token) :
    ∃ e, ((Weave.ofPattern g limits (.sequence mark name? row.patterns build []) start).resolve
      token).1 = .error e := by
  obtain ⟨part, row, rfl⟩ := List.exists_cons_of_ne_nil some
  have enters := resolveStrands_enters name? build (part :: row)
    ⟨g, limits, .empty start.endPoint, token.position⟩
  rw [Weave.resolve_fst, ofPattern_strands mark name? build, Weave.ofPattern]
  cases steps : limits.maxExpansions with
  | zero => exact ⟨_, rfl⟩
  | succ budget =>
    obtain ⟨made, entered⟩ := enters budget 0 1
    rw [entered]
    cases budget with
    | zero => exact ⟨_, rfl⟩
    | succ budget =>
      have crowded : limits.maxThreads = 0 :=
        Nat.eq_zero_of_not_pos fun room => scarce ⟨room, by omega⟩
      rw [resolveStrands_crowded _ budget 0 made crowded rfl]
      exact ⟨_, rfl⟩

/-- Parsing a sequence of tokens. There is an error if and only if the limits do not suffice, and
one result if they do and the tokens up to the first end marker fit the row. -/
theorem feedToEnd_ofPattern (limits : Limits) (g : Grammar) (start : Position) (some : row ≠ [])
    (plain : row.Plain) (tokens : List Token) :
    let fed := tokens.takeWhile fun t => !t.isEof
    let run := (Weave.ofPattern g limits (.sequence mark name? row.patterns build [])
      start).feedToEnd tokens
    (run.1 = none ↔ limits.SufficeForRow) ∧
      (limits.SufficeForRow ∧ row.Fits start fed ∧ run.2.results = [build (fed.map .token)] ∨
        ¬ (limits.SufficeForRow ∧ row.Fits start fed) ∧ run.2.results = []) := by
  intro fed run
  by_cases suffice : limits.SufficeForRow
  · have stands : Stands (.ofPattern g limits (.sequence mark name? row.patterns build []) start)
        (sequence name? row build) (around name? row build) [] row :=
      stands_ofPattern mark name? build g start plain suffice
    obtain ⟨u, ended, outcome⟩ := stands.feedToEnd tokens
    have ended : run = (none, u) := ended
    rw [ended]
    refine ⟨iff_of_true rfl suffice, ?_⟩
    rcases outcome with ⟨fits, results⟩ | ⟨misfit, results⟩
    · exact .inl ⟨suffice, fits, results⟩
    · exact .inr ⟨fun both => misfit both.2, results⟩
  · obtain ⟨e, u, failed, results⟩ :=
      Weave.feedToEnd_of_stuck rfl rfl (stuck_ofPattern mark name? build g start some suffice)
        tokens
    have failed : run = (Option.some e, u) := failed
    rw [failed]
    exact ⟨iff_of_false (Option.some_ne_none e) suffice,
      .inr ⟨fun both => suffice both.1, results⟩⟩

end Row

namespace Parser

theorem feedToEnd_sim {p : Parser} (h : p.Sound) (tokens : List Token) :
    p.weave.feedToEnd tokens = ((p.feedToEnd tokens).1, (p.feedToEnd tokens).2.weave) := by
  obtain ⟨sound, same⟩ := feedAll_sim h tokens
  simp only [feedToEnd, Weave.feedToEnd]
  rw [same]
  generalize p.feedAll tokens = r at sound
  obtain ⟨error?, q⟩ := r
  cases error? with
  | some e => rfl
  | none => exact (finish_sim sound).2

theorem feedToEnd_setup (p₀ : Parser) (pattern : Pattern) (start : Position) (tokens : List Token) :
    (Weave.ofPattern p₀.grammar p₀.limits pattern start).feedToEnd tokens =
      (((p₀.setup pattern start).feedToEnd tokens).1,
        ((p₀.setup pattern start).feedToEnd tokens).2.weave) := by
  obtain ⟨sound, same⟩ := setup_sim p₀ pattern start
  rw [← same]
  exact feedToEnd_sim sound tokens

theorem feedToEnd_row (mark : Nat) (name? : Option String) (build : Combiner) {row : Row}
    (p₀ : Parser) (start : Position) (some : row ≠ []) (plain : row.Plain) (tokens : List Token) :
    let fed := tokens.takeWhile fun t => !t.isEof
    let run := (p₀.setup (.sequence mark name? row.patterns build []) start).feedToEnd tokens
    (run.1 = none ↔ p₀.limits.SufficeForRow) ∧
      (p₀.limits.SufficeForRow ∧ row.Fits start fed ∧
          run.2.results.toList = [build (fed.map .token)] ∨
        ¬ (p₀.limits.SufficeForRow ∧ row.Fits start fed) ∧ run.2.results.toList = []) := by
  intro fed run
  have outcome :=
    Row.feedToEnd_ofPattern mark name? build p₀.limits p₀.grammar start some plain tokens
  rw [feedToEnd_setup] at outcome
  exact outcome

end Parser

end Lockstep
