import Lockstep.Proofs.Derivation
import Lockstep.Proofs.Weave

set_option autoImplicit false

namespace Lockstep

namespace Cursor

def followedBy (c : Cursor) (more : List Token) : Cursor := { c with rest := c.rest ++ more }

end Cursor

namespace Spot

def ofPattern (pattern : Pattern) : Spot :=
  .next (.lower pattern) [⟨⟨none, [.lower pattern], .nth 0⟩, []⟩]

def waiting? (pending : List Predicate) : Spot → Option Waiting
  | .done frames => some ⟨.accepted, frames, pending⟩
  | .next (.token spec guards) frames => some ⟨.token spec, frames, pending ++ guards⟩
  | .next _ _ => none

end Spot

namespace Grammar

/-- One step of a derivation, with the choice that it makes if it is at a branch. -/
inductive Stride (g : Grammar) : Spot → Cursor → Choices → Spot → Cursor → Prop where
  | token {spec : Spec} {guards : List Predicate} {frames : List Frame} {c : Cursor} {token : Token}
      {rest : List Token} (next : c.rest = token :: rest) (accepts : spec.accepts token = true)
      (admitted : (c.visit guards).admits token = true) :
    g.Stride (.next (.token spec guards) frames) c []
      (Frame.advance (.token token) frames) ((c.visit guards).take token rest)
  | nothing {guards : List Predicate} {frames : List Frame} {c : Cursor} :
    g.Stride (.next (.nothing guards) frames) c [] (Frame.advance c.marker frames) (c.visit guards)
  | sequence {name? : Option String} {parts : List Matcher} {build : Combiner}
      {guards : List Predicate} {frames : List Frame} {c : Cursor} :
    g.Stride (.next (.sequence name? parts build guards) frames) c []
      (Frame.settle (⟨⟨name?, parts, build⟩, []⟩ :: frames)) (c.visit guards)
  | branch {options : List Matcher} {guards : List Predicate} {frames : List Frame} {c : Cursor}
      {i : Nat} {m : Matcher} (option : options[i]? = some m) :
    g.Stride (.next (.branch options guards) frames) c [i] (.next m frames) (c.visit guards)
  | deferred {m m' : Matcher} {frames : List Frame} {c : Cursor} (defers : m.isDeferred = true)
      (unfolds : g.unfold m = .ok m') :
    g.Stride (.next m frames) c [] (.next m' frames) (c.visit m.guards)

inductive Walk (g : Grammar) : Spot → Cursor → Choices → Spot → Cursor → Prop where
  | stay {s : Spot} {c : Cursor} : g.Walk s c [] s c
  | stride {s s' s'' : Spot} {c c' c'' : Cursor} {u v : Choices} (first : g.Stride s c u s' c')
      (more : g.Walk s' c' v s'' c'') :
    g.Walk s c (u ++ v) s'' c''

/-- The derivation of `pattern` that has made the choices `w` has taken all of `tokens`, and waits
as `x` does. -/
def Partial (g : Grammar) (pattern : Pattern) (start : Position) (tokens : List Token)
    (w : Choices) (x : Waiting) : Prop :=
  ∃ s c, g.Walk (.ofPattern pattern) ⟨start, [], tokens⟩ w s c ∧ c.rest = [] ∧
    s.waiting? c.pending = some x

def Consumes (g : Grammar) (pattern : Pattern) (start : Position) (tokens : List Token) : Prop :=
  ∃ w s c, g.Walk (.ofPattern pattern) ⟨start, [], tokens⟩ w s c ∧ c.rest = []

end Grammar

namespace Strand

def Reaches (g : Grammar) (last : Position) (t : Strand) (w : Choices) (x : Waiting) : Prop :=
  ∃ s c, g.Walk t.spot ⟨last, t.guards, []⟩ w s c ∧ s.waiting? c.pending = some x

end Strand

namespace Waiting

theorem isNone_refusal? (x : Waiting) (token : Token) (last : Position) :
    (x.refusal? token last).isNone = x.guards.all fun guard => guard.test token last := by
  rw [refusal?, Option.isNone_map, Bool.eq_iff_iff, List.all_eq_true, Option.isNone_iff_eq_none,
    List.find?_eq_none]
  simp only [Bool.not_eq_true', Bool.not_eq_false]

end Waiting

namespace Grammar

variable {g : Grammar} {s s' s'' : Spot} {c c' c'' : Cursor} {u v w : Choices}

section

variable {frames : List Frame} {guards : List Predicate}

theorem stride_token_iff {spec : Spec} :
    g.Stride (.next (.token spec guards) frames) c u s c' ↔
      ∃ token rest, c.rest = token :: rest ∧ spec.accepts token = true ∧
        (c.visit guards).admits token = true ∧ u = [] ∧
        s = Frame.advance (.token token) frames ∧ c' = (c.visit guards).take token rest := by
  constructor
  · intro stride
    cases stride with
    | token next accepts admitted => exact ⟨_, _, next, accepts, admitted, rfl, rfl, rfl⟩
    | deferred defers => cases defers
  · rintro ⟨token, rest, next, accepts, admitted, rfl, rfl, rfl⟩
    exact .token next accepts admitted

theorem stride_nothing_iff :
    g.Stride (.next (.nothing guards) frames) c u s c' ↔
      u = [] ∧ s = Frame.advance c.marker frames ∧ c' = c.visit guards := by
  constructor
  · intro stride
    cases stride with
    | nothing => exact ⟨rfl, rfl, rfl⟩
    | deferred defers => cases defers
  · rintro ⟨rfl, rfl, rfl⟩
    exact .nothing

theorem stride_sequence_iff {name? : Option String} {parts : List Matcher} {build : Combiner} :
    g.Stride (.next (.sequence name? parts build guards) frames) c u s c' ↔
      u = [] ∧ s = Frame.settle (⟨⟨name?, parts, build⟩, []⟩ :: frames) ∧ c' = c.visit guards := by
  constructor
  · intro stride
    cases stride with
    | sequence => exact ⟨rfl, rfl, rfl⟩
    | deferred defers => cases defers
  · rintro ⟨rfl, rfl, rfl⟩
    exact .sequence

theorem stride_branch_iff {options : List Matcher} :
    g.Stride (.next (.branch options guards) frames) c u s c' ↔
      ∃ i m, options[i]? = some m ∧ u = [i] ∧ s = .next m frames ∧ c' = c.visit guards := by
  constructor
  · intro stride
    cases stride with
    | branch option => exact ⟨_, _, option, rfl, rfl, rfl⟩
    | deferred defers => cases defers
  · rintro ⟨i, m, option, rfl, rfl, rfl⟩
    exact .branch option

theorem stride_deferred_iff {m m' : Matcher} (defers : m.isDeferred = true)
    (unfolds : g.unfold m = .ok m') :
    g.Stride (.next m frames) c u s c' ↔ u = [] ∧ s = .next m' frames ∧ c' = c.visit m.guards := by
  constructor
  · intro stride
    cases stride with
    | deferred _ unfolds' =>
      rw [unfolds] at unfolds'
      cases unfolds'
      exact ⟨rfl, rfl, rfl⟩
    | _ => cases defers
  · rintro ⟨rfl, rfl, rfl⟩
    exact .deferred defers unfolds

end

theorem lastPlace_append (start : Position) (tokens more : List Token) :
    lastPlace start (tokens ++ more) = lastPlace (lastPlace start tokens) more := by
  induction tokens generalizing start with
  | nil => rfl
  | cons token tokens ih => exact ih _

theorem lastPlace_marked (start : Position) (tokens : List Token) {eof : Token}
    (marker : eof.isEof = true) : lastPlace start (tokens ++ [eof]) = lastPlace start tokens := by
  rw [lastPlace_append]
  simp only [lastPlace, marker, ↓reduceIte]

theorem Stride.extend (more : List Token) (stride : g.Stride s c u s' c') :
    g.Stride s (c.followedBy more) u s' (c'.followedBy more) := by
  cases stride with
  | token next accepts admitted => exact .token (congrArg (· ++ more) next) accepts admitted
  | nothing => exact .nothing
  | sequence => exact .sequence
  | branch option => exact .branch option
  | deferred defers unfolds => exact .deferred defers unfolds

theorem Walk.extend (more : List Token) (walk : g.Walk s c w s' c') :
    g.Walk s (c.followedBy more) w s' (c'.followedBy more) := by
  induction walk with
  | stay => exact .stay
  | stride first _ ih => exact .stride (first.extend more) ih

theorem Walk.trans (first : g.Walk s c u s' c') (second : g.Walk s' c' v s'' c'') :
    g.Walk s c (u ++ v) s'' c'' := by
  induction first with
  | stay => exact second
  | stride first _ ih =>
    rw [List.append_assoc]
    exact .stride first (ih second)

theorem Stride.taken (stride : g.Stride s c u s' c') :
    ∃ taken, c.rest = taken ++ c'.rest ∧ c'.last = lastPlace c.last taken := by
  cases stride with
  | @token _ _ _ _ token _ next => exact ⟨[token], next, rfl⟩
  | nothing => exact ⟨[], rfl, rfl⟩
  | sequence => exact ⟨[], rfl, rfl⟩
  | branch => exact ⟨[], rfl, rfl⟩
  | deferred => exact ⟨[], rfl, rfl⟩

theorem Walk.taken (walk : g.Walk s c w s' c') :
    ∃ taken, c.rest = taken ++ c'.rest ∧ c'.last = lastPlace c.last taken := by
  induction walk with
  | stay => exact ⟨[], rfl, rfl⟩
  | stride first _ ih =>
    obtain ⟨taken, rest, last⟩ := first.taken
    obtain ⟨taken', rest', last'⟩ := ih
    refine ⟨taken ++ taken', ?_, ?_⟩
    · rw [rest, rest', List.append_assoc]
    · rw [last', last, lastPlace_append]

theorem Walk.last_eq (walk : g.Walk s c w s' c') (ended : c'.rest = []) :
    c'.last = lastPlace c.last c.rest := by
  obtain ⟨taken, rest, last⟩ := walk.taken
  rw [last, rest, ended, List.append_nil]

theorem Walk.rest_eq_nil (walk : g.Walk s c w s' c') (empty : c.rest = []) : c'.rest = [] := by
  obtain ⟨taken, rest, -⟩ := walk.taken
  rw [empty] at rest
  exact (List.append_eq_nil_iff.mp rest.symm).2

theorem takes_iff {x : Waiting} {token : Token} (waits : s.waiting? c.pending = some x) :
    x.takes token c.last.endPoint = true ↔
      ∃ spec guards frames, s = .next (.token spec guards) frames ∧ x.frames = frames ∧
        spec.accepts token = true ∧ (c.visit guards).admits token = true := by
  constructor
  · intro takes
    cases s with
    | done frames =>
      cases waits
      cases takes
    | next m frames =>
      cases m with
      | token spec guards =>
        cases waits
        rw [Waiting.takes, Bool.and_eq_true, Waiting.isNone_refusal?] at takes
        exact ⟨spec, guards, frames, rfl, rfl, takes⟩
      | _ => cases waits
  · rintro ⟨spec, guards, frames, rfl, -, accepts, admitted⟩
    cases waits
    rw [Waiting.takes, Bool.and_eq_true, Waiting.isNone_refusal?]
    exact ⟨accepts, admitted⟩

theorem Stride.of_takes {x : Waiting} {token : Token} {rest : List Token}
    (waits : s.waiting? c.pending = some x) (takes : x.takes token c.last.endPoint = true)
    (next : c.rest = token :: rest) :
    g.Stride s c [] (x.advance token).spot (c.take token rest) := by
  obtain ⟨spec, guards, frames, rfl, rfl, accepts, admitted⟩ := (takes_iff waits).mp takes
  exact .token next accepts admitted

theorem Stride.split_last {token : Token} (stride : g.Stride s (c.followedBy [token]) u s' c') :
    (∃ d, c' = d.followedBy [token] ∧ g.Stride s c u s' d) ∨
      (c.rest = [] ∧ u = [] ∧ c' = c.take token [] ∧ ∃ x, s.waiting? c.pending = some x ∧
        x.takes token c.last.endPoint = true ∧ s' = (x.advance token).spot) := by
  cases stride with
  | @token spec guards frames _ token' rest next accepts admitted =>
    cases ends : c.rest with
    | nil =>
      rw [Cursor.followedBy, ends] at next
      cases next
      have waits : Spot.waiting? c.pending (.next (.token spec guards) frames) =
        some ⟨.token spec, frames, c.pending ++ guards⟩ := rfl
      have takes := (takes_iff waits).mpr ⟨spec, guards, frames, rfl, rfl, accepts, admitted⟩
      exact .inr ⟨rfl, rfl, rfl, _, waits, takes, rfl⟩
    | cons first later =>
      rw [Cursor.followedBy, ends] at next
      cases next
      exact .inl ⟨(c.visit guards).take token' later, rfl, .token ends accepts admitted⟩
  | nothing => exact .inl ⟨_, rfl, .nothing⟩
  | sequence => exact .inl ⟨_, rfl, .sequence⟩
  | branch option => exact .inl ⟨_, rfl, .branch option⟩
  | deferred defers unfolds => exact .inl ⟨_, rfl, .deferred defers unfolds⟩

/-- A walk comes to wait for the last token and takes it, or does not depend on it. -/
theorem Walk.split_last {token : Token} (walk : g.Walk s (c.followedBy [token]) w s' c') :
    (∃ d, c' = d.followedBy [token] ∧ g.Walk s c w s' d) ∨
      ∃ u v s₁ d x, w = u ++ v ∧ g.Walk s c u s₁ d ∧ d.rest = [] ∧
        s₁.waiting? d.pending = some x ∧ x.takes token d.last.endPoint = true ∧
        g.Walk (x.advance token).spot (d.take token []) v s' c' := by
  generalize whole : c.followedBy [token] = e at walk
  induction walk generalizing c with
  | stay => exact .inl ⟨c, whole.symm, .stay⟩
  | stride first more ih =>
    subst whole
    rcases first.split_last with ⟨d, rfl, short⟩ | ⟨ended, rfl, rfl, x, waits, takes, rfl⟩
    · rcases ih rfl with ⟨e, rfl, later⟩ | ⟨u, v, s₁, e, x, rfl, before, rest⟩
      · exact .inl ⟨e, rfl, .stride short later⟩
      · exact .inr ⟨_, v, s₁, e, x, (List.append_assoc _ u v).symm, .stride short before, rest⟩
    · exact .inr ⟨[], _, _, c, x, rfl, .stay, ended, waits, takes, more⟩

theorem walk_concat_iff {token : Token} :
    (g.Walk s (c.followedBy [token]) w s' c' ∧ c'.rest = []) ↔
      ∃ u v s₁ d x, w = u ++ v ∧ g.Walk s c u s₁ d ∧ d.rest = [] ∧
        s₁.waiting? d.pending = some x ∧ x.takes token d.last.endPoint = true ∧
        g.Walk (x.advance token).spot (d.take token []) v s' c' := by
  constructor
  · rintro ⟨walk, ended⟩
    rcases walk.split_last with ⟨d, rfl, -⟩ | taken
    · exact absurd ended (List.append_ne_nil_of_right_ne_nil d.rest (List.cons_ne_nil token []))
    · exact taken
  · rintro ⟨u, v, s₁, d, x, rfl, before, ended, waits, takes, after⟩
    have next : (d.followedBy [token]).rest = token :: [] := congrArg (· ++ [token]) ended
    have stride : g.Stride s₁ (d.followedBy [token]) [] _ _ := .of_takes waits takes next
    exact ⟨(before.extend [token]).trans (.stride stride after), after.rest_eq_nil rfl⟩

theorem partial_nil_iff {pattern : Pattern} {start : Position} {x : Waiting} :
    g.Partial pattern start [] w x ↔ Strand.Reaches g start ⟨.ofPattern pattern, []⟩ w x := by
  constructor
  · rintro ⟨s, c, walk, -, waits⟩
    exact ⟨s, c, walk, waits⟩
  · rintro ⟨s, c, walk, waits⟩
    exact ⟨s, c, walk, walk.rest_eq_nil rfl, waits⟩

section

variable {pattern : Pattern} {start : Position} {tokens : List Token} {token : Token}

theorem walk_tokens_concat_iff :
    (g.Walk (.ofPattern pattern) ⟨start, [], tokens ++ [token]⟩ w s c ∧ c.rest = []) ↔
      ∃ u v y, w = u ++ v ∧ g.Partial pattern start tokens u y ∧
        y.takes token (lastPlace start tokens).endPoint = true ∧
        g.Walk (y.advance token).spot ⟨lastPlace start (tokens ++ [token]), [], []⟩ v s c := by
  have place : ∀ {u : Choices} {s₁ : Spot} {d : Cursor},
      g.Walk (.ofPattern pattern) ⟨start, [], tokens⟩ u s₁ d → d.rest = [] →
        d.last = lastPlace start tokens ∧
          d.take token [] = ⟨lastPlace start (tokens ++ [token]), [], []⟩ := by
    intro u s₁ d before dry
    have last : d.last = lastPlace start tokens := before.last_eq dry
    refine ⟨last, ?_⟩
    rw [lastPlace_append, ← last]
    rfl
  refine (walk_concat_iff (c := ⟨start, [], tokens⟩)).trans ?_
  constructor
  · rintro ⟨u, v, s₁, d, y, rfl, before, dry, waits, takes, after⟩
    obtain ⟨last, next⟩ := place before dry
    rw [last] at takes
    rw [next] at after
    exact ⟨u, v, y, rfl, ⟨s₁, d, before, dry, waits⟩, takes, after⟩
  · rintro ⟨u, v, y, rfl, ⟨s₁, d, before, dry, waits⟩, takes, after⟩
    obtain ⟨last, next⟩ := place before dry
    rw [← last] at takes
    rw [← next] at after
    exact ⟨u, v, s₁, d, y, rfl, before, dry, waits, takes, after⟩

/-- A derivation waits after one more token if, before, it waited for that token. -/
theorem partial_concat_iff {x : Waiting} :
    g.Partial pattern start (tokens ++ [token]) w x ↔
      ∃ u v y, w = u ++ v ∧ g.Partial pattern start tokens u y ∧
        y.takes token (lastPlace start tokens).endPoint = true ∧
        (y.advance token).Reaches g (lastPlace start (tokens ++ [token])) v x := by
  constructor
  · rintro ⟨s, c, walk, ended, waits⟩
    obtain ⟨u, v, y, rfl, before, takes, after⟩ := walk_tokens_concat_iff.mp ⟨walk, ended⟩
    exact ⟨u, v, y, rfl, before, takes, s, c, after, waits⟩
  · rintro ⟨u, v, y, rfl, before, takes, s, c, after, waits⟩
    obtain ⟨walk, ended⟩ := walk_tokens_concat_iff.mpr ⟨u, v, y, rfl, before, takes, after⟩
    exact ⟨s, c, walk, ended, waits⟩

theorem consumes_nil (g : Grammar) (pattern : Pattern) (start : Position) :
    g.Consumes pattern start [] :=
  ⟨[], _, _, .stay, rfl⟩

theorem consumes_concat_iff :
    g.Consumes pattern start (tokens ++ [token]) ↔
      ∃ w x, g.Partial pattern start tokens w x ∧
        x.takes token (lastPlace start tokens).endPoint = true := by
  constructor
  · rintro ⟨w, s, c, walk, ended⟩
    obtain ⟨u, v, y, -, before, takes, -⟩ := walk_tokens_concat_iff.mp ⟨walk, ended⟩
    exact ⟨u, y, before, takes⟩
  · rintro ⟨w, x, before, takes⟩
    obtain ⟨walk, ended⟩ := walk_tokens_concat_iff.mpr ⟨w, [], x, rfl, before, takes, .stay⟩
    exact ⟨w ++ [], _, _, walk, ended⟩

theorem Partial.consumes {x : Waiting} (h : g.Partial pattern start tokens w x) :
    g.Consumes pattern start tokens := by
  obtain ⟨s, c, walk, ended, -⟩ := h
  exact ⟨w, s, c, walk, ended⟩

theorem consumes_of_concat (h : g.Consumes pattern start (tokens ++ [token])) :
    g.Consumes pattern start tokens := by
  obtain ⟨w, x, before, -⟩ := consumes_concat_iff.mp h
  exact before.consumes

end

end Grammar

end Lockstep
