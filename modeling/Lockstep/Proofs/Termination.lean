import Lockstep.Proofs.Closure
import Lockstep.Proofs.Divergence
import Lockstep.Proofs.Session

set_option autoImplicit false

namespace Lockstep

namespace Expansion

def threads : Expansion → List Thread
  | .ready _ => []
  | .moved t => [t]
  | .split ts => ts
  | .unknown _ => []

def goal? : Expansion → Option Goal
  | .ready r => some r.goal
  | _ => none

end Expansion

/-- Each step of a thread leads one level down. A node is a thread with the store that the steps to
it have left. -/
def Thread.branching (g : Grammar) (marker : Capture) : Branching (Thread × Store) where
  children x := (x.1.expand g marker x.2).1.threads.map fun t => (t, (x.1.expand g marker x.2).2)
  goal? x := (x.1.expand g marker x.2).1.goal?

structure Loop where
  spent : Nat
  work : List Thread
  ready : Array Ready
  store : Store
  branches : Nat

namespace Phase

/-- One round of resolving: it ends when no work is left; otherwise the first thread of the work
makes a step, if that is not one too many. -/
def round (p : Phase) (l : Loop) : Loop ⊕ Resolution :=
  match l.work with
  | [] => .inr ⟨.ok l.ready, l.store, l.branches⟩
  | t :: work =>
    if p.limits.maxExpansions ≤ l.spent then
      .inr ⟨.error (.expansionLimit p.limits.maxExpansions p.position), l.store, l.branches⟩
    else
      match t.expand p.grammar p.marker l.store with
      | (.ready r, store) =>
        match r.goal with
        | .accepted => .inl ⟨l.spent + 1, work, l.ready.push r, store, l.branches⟩
        | .token _ =>
          if l.ready.size < p.limits.maxThreads then
            .inl ⟨l.spent + 1, work, l.ready.push r, store, l.branches⟩
          else .inr ⟨.error (.threadLimit p.limits.maxThreads p.position), store, l.branches⟩
      | (.moved u, store) => .inl ⟨l.spent + 1, u :: work, l.ready, store, l.branches⟩
      | (.split us, store) => .inl ⟨l.spent + 1, us ++ work, l.ready, store, l.branches + 1⟩
      | (.unknown name, store) => .inr ⟨.error (.unknownPattern name), store, l.branches⟩

def rounds (p : Phase) : Nat → Loop → Loop ⊕ Resolution
  | 0, l => .inl l
  | n + 1, l =>
    match p.round l with
    | .inl l => p.rounds n l
    | .inr r => .inr r

/-- The loop has ended when each step of the budget and the one after them had its round. -/
theorem rounds_eq (p : Phase) {budget : Nat} {l : Loop}
    (left : l.spent + budget = p.limits.maxExpansions) :
    p.rounds (budget + 1) l = .inr (p.resolve budget l.work l.ready l.store l.branches) := by
  obtain ⟨spent, work, ready, store, branches⟩ := l
  induction budget generalizing spent work ready store branches with
  | zero =>
    cases work with
    | nil => rfl
    | cons t work =>
      have full : p.limits.maxExpansions ≤ spent := Nat.le_of_eq left.symm
      simp only [rounds, round, full, ↓reduceIte, resolve]
  | succ budget ih =>
    cases work with
    | nil => rfl
    | cons t work =>
      have under : ¬ p.limits.maxExpansions ≤ spent := by
        simp only at left
        omega
      have left' : spent + 1 + budget = p.limits.maxExpansions := by
        simp only at left
        omega
      rw [rounds, round, resolve]
      simp only [under, ↓reduceIte]
      generalize t.expand p.grammar p.marker store = expansion
      obtain ⟨e, store'⟩ := expansion
      cases e with
      | ready r =>
        cases goal : r.goal with
        | accepted =>
          simp only [goal]
          exact ih _ _ _ _ _ left'
        | token spec =>
          simp only [goal]
          by_cases room : ready.size < p.limits.maxThreads
          · simp only [room, ↓reduceIte]
            exact ih _ _ _ _ _ left'
          · simp only [room, ↓reduceIte]
      | moved u => exact ih _ _ _ _ _ left'
      | split us => exact ih _ _ _ _ _ left'
      | unknown name => rfl

theorem Decides.of_map {p : Phase} {fits : Prop} {α β : Type} {f : α → β}
    {outcome : Except ParseError α} (h : p.Decides fits (outcome.map f)) :
    p.Decides fits outcome := by
  cases outcome with
  | error e =>
    rcases h with ⟨-, ready, absurd⟩ | ⟨some, limit⟩
    · cases absurd
    · refine .inr ⟨some, ?_⟩
      rcases limit with same | same
      · cases same
        exact .inl rfl
      · cases same
        exact .inr rfl
  | ok ready =>
    rcases h with ⟨fits, -⟩ | ⟨-, absurd | absurd⟩
    · exact .inl ⟨fits, ready, rfl⟩
    · cases absurd
    · cases absurd

end Phase

namespace Branching

variable {α β : Type} {b : Branching α} {b' : Branching β} {f : α → β} {Inv : α → Prop}

/-- Where the invariant holds, `f` takes the steps of the one forest to those of the other. -/
structure Refines (b : Branching α) (b' : Branching β) (f : α → β) (Inv : α → Prop) : Prop where
  children_eq : ∀ a, Inv a → b'.children (f a) = (b.children a).map f
  goal_eq : ∀ a, Inv a → b'.goal? (f a) = b.goal? a
  keeps : ∀ a, Inv a → ∀ a' ∈ b.children a, Inv a'

theorem Refines.below?_eq (h : b.Refines b' f Inv) {a : α} (inv : Inv a) (π : Place) :
    b'.below? (f a) π = (b.below? a π).map f ∧ ∀ x, b.below? a π = some x → Inv x := by
  induction π generalizing a with
  | nil =>
    refine ⟨rfl, ?_⟩
    intro x same
    cases same
    exact inv
  | cons i π ih =>
    simp only [below?, h.children_eq a inv, List.getElem?_map]
    cases child : (b.children a)[i]? with
    | none =>
      refine ⟨rfl, ?_⟩
      rintro x ⟨⟩
    | some a' => exact ih (h.keeps a inv a' (List.mem_of_getElem? child))

theorem Refines.nodeAt?_eq (h : b.Refines b' f Inv) {roots : List α} (inv : ∀ a ∈ roots, Inv a)
    (π : Place) :
    b'.nodeAt? (roots.map f) π = (b.nodeAt? roots π).map f ∧
      ∀ x, b.nodeAt? roots π = some x → Inv x := by
  cases π with
  | nil =>
    refine ⟨rfl, ?_⟩
    rintro x ⟨⟩
  | cons i π =>
    simp only [nodeAt?, List.getElem?_map]
    cases root : roots[i]? with
    | none =>
      refine ⟨rfl, ?_⟩
      rintro x ⟨⟩
    | some a => exact h.below?_eq (inv a (List.mem_of_getElem? root)) π

theorem Refines.fits_iff (h : b.Refines b' f Inv) {roots : List α} (inv : ∀ a ∈ roots, Inv a)
    {limits : Limits} : b'.Fits limits (roots.map f) ↔ b.Fits limits roots := by
  have places_eq : b'.places (roots.map f) = b.places roots := by
    ext π
    simp only [places, Set.mem_ofPred_eq, (h.nodeAt?_eq inv π).1, Option.isSome_map]
  have goalAt_eq : ∀ π, b'.goalAt? (roots.map f) π = b.goalAt? roots π := by
    intro π
    obtain ⟨same, kept⟩ := h.nodeAt?_eq inv π
    rw [goalAt?, goalAt?, same]
    cases here : b.nodeAt? roots π with
    | none => rfl
    | some x => exact h.goal_eq x (kept x here)
  have waiting_eq : ∀ π, b'.waitingUpTo (roots.map f) π = b.waitingUpTo roots π := by
    intro π
    simp only [waitingUpTo, goalAt_eq]
  constructor
  · rintro ⟨finite, nodes, threads⟩
    rw [places_eq] at finite nodes
    refine ⟨finite, nodes, ?_⟩
    intro π spec goal
    rw [← waiting_eq]
    exact threads π spec ((goalAt_eq π).trans goal)
  · rintro ⟨finite, nodes, threads⟩
    rw [← places_eq] at finite nodes
    refine ⟨finite, nodes, ?_⟩
    intro π spec goal
    rw [waiting_eq]
    exact threads π spec ((goalAt_eq π).symm.trans goal)

end Branching

theorem Thread.branching_refines (g : Grammar) (marker : Capture) :
    (Thread.branching g marker).Refines (Strand.branching g marker) (fun x => x.1.strand x.2)
      (fun x => x.2.Sound ∧ x.1.Within x.2) := by
  refine ⟨?_, ?_, ?_⟩
  · rintro ⟨t, s⟩ ⟨sound, within⟩
    obtain ⟨-, -, k, same, -⟩ := t.expand_sim g marker sound within
    simp only [Strand.branching, Thread.branching, same, List.map_map]
    cases (t.expand g marker s).1 <;> rfl
  · rintro ⟨t, s⟩ ⟨sound, within⟩
    obtain ⟨-, -, k, same, -⟩ := t.expand_sim g marker sound within
    simp only [Strand.branching, Thread.branching, same]
    cases (t.expand g marker s).1 <;> rfl
  · rintro ⟨t, s⟩ ⟨sound, within⟩ x child
    obtain ⟨follows, inside, -⟩ := t.expand_sim g marker sound within
    simp only [Thread.branching] at child
    obtain ⟨u, leads, rfl⟩ := List.mem_map.mp child
    refine ⟨follows.sound, ?_⟩
    generalize t.expand g marker s = expansion at *
    obtain ⟨e, s'⟩ := expansion
    cases e with
    | ready r => cases leads
    | moved v =>
      rw [List.mem_singleton.mp leads]
      exact inside
    | split us => exact inside u leads
    | unknown name => cases leads

namespace Parser

def phase (p : Parser) (token : Token) : Phase :=
  ⟨p.grammar, p.limits, .empty p.last.endPoint, token.position⟩

def loop (p : Parser) : Loop := ⟨0, p.threads, #[], p.store, p.metrics.branches⟩

def branching (p : Parser) : Branching (Thread × Store) :=
  Thread.branching p.grammar (.empty p.last.endPoint)

def roots (p : Parser) : List (Thread × Store) := p.threads.map fun t => (t, p.store)

def spotAt? (p : Parser) (π : Place) : Option Spot :=
  (p.branching.nodeAt? p.roots π).map fun x => x.1.step.spot x.2

/-- Some thread can go on without a token and without end. -/
def Diverges (p : Parser) : Prop := p.grammar.Diverges p.spotAt?

/-- The parsers whose threads are resolved when `p` meets `token`: it is `p` itself and, at an end
marker, what `p` has become when its threads have met the marker. -/
inductive Resolves (p : Parser) (token : Token) : Parser → Prop where
  | first : Resolves p token p
  | closing {q : Parser} {survivors : Array Thread} {failed : Array Failed}
      (ended : token.isEof = true) (met : p.consume token = (.ok (survivors, failed), q))
      (any : survivors.isEmpty = false) :
    Resolves p token { q with threads := survivors.toList }

/-- A call that lets `p` meet `token` first, and what it gives in the end. -/
inductive Meets (p : Parser) : Token → Option ParseError × Parser → Prop where
  | feed (token : Token) : Meets p token (p.feed token)
  | finish : Meets p (Grammar.endMarker p.last) p.finish
  | pulled {σ : Type} [TokenSource σ] {s rest : σ} {token : Token}
      (next : TokenSource.next s = (.ok token, rest)) (plain : token.isEof = false) :
    Meets p token ((p.parse s).1, (p.parse s).2.1)
  | ended {σ : Type} [TokenSource σ] {s rest : σ} {token : Token}
      (next : TokenSource.next s = (.ok token, rest)) (marker : token.isEof = true) :
    Meets p (Grammar.endMarker p.last) ((p.parse s).1, (p.parse s).2.1)

/-- The call gave the error of a limit at `token`, and has left no thread and nothing to report. -/
structure Trips (limits : Limits) (token : Token) (r : Option ParseError × Parser) : Prop where
  error : r.1 = some (.threadLimit limits.maxThreads token.position) ∨
    r.1 = some (.expansionLimit limits.maxExpansions token.position)
  halted : r.2.status = .halted
  threads : r.2.threads = []
  diagnostics : r.2.diagnostics = []

structure Poised (g : Grammar) (limits : Limits) (p : Parser) : Prop where
  sound : p.Sound
  isFor : p.IsFor g limits
  proper : ∀ t ∈ p.weave.strands, t.spot.Proper g.Defines
  diagnostics : p.diagnostics = []

variable {g : Grammar} {limits : Limits} {p q : Parser} {token : Token} {e : ParseError}
  {r : Option ParseError × Parser}

theorem weave_strands_eq (p : Parser) :
    p.weave.strands = p.roots.map fun x => x.1.strand x.2 := by
  simp only [weave, roots, List.map_map]
  rfl

theorem roots_within (sound : p.Sound) : ∀ x ∈ p.roots, x.2.Sound ∧ x.1.Within x.2 := by
  intro x mem
  obtain ⟨t, here, rfl⟩ := List.mem_map.mp mem
  exact ⟨sound.1, sound.2 t here⟩

theorem branching_refines (p : Parser) :
    p.branching.Refines (Strand.branching p.grammar (.empty p.last.endPoint))
      (fun x => x.1.strand x.2) (fun x => x.2.Sound ∧ x.1.Within x.2) :=
  Thread.branching_refines _ _

theorem fits_weave_iff (sound : p.Sound) :
    (Strand.branching p.grammar (.empty p.last.endPoint)).Fits limits p.weave.strands ↔
      p.branching.Fits limits p.roots := by
  rw [weave_strands_eq]
  exact p.branching_refines.fits_iff (roots_within sound)

theorem spotAt?_eq (sound : p.Sound) : p.spotAt? = fun π =>
    ((Strand.branching p.grammar (.empty p.last.endPoint)).nodeAt? p.weave.strands π).map
      Strand.spot := by
  funext π
  rw [weave_strands_eq, (p.branching_refines.nodeAt?_eq (roots_within sound) π).1, Option.map_map]
  rfl

theorem Poised.decides (h : p.Poised g limits) (closed : g.Closed g.Defines) (token : Token) :
    (p.phase token).Decides (p.branching.Fits limits p.roots) (p.resolve token).1 := by
  obtain ⟨sound, ⟨rfl, rfl⟩, proper, -⟩ := h
  obtain ⟨-, -, -, same⟩ := resolve_sim sound token
  have strands : (p.phase token).Decides
      ((Strand.branching p.grammar (.empty p.last.endPoint)).Fits p.limits p.weave.strands)
      (p.weave.resolve token).1 := by
    rw [Weave.resolve_fst]
    exact (p.phase token).decides_strands closed proper _ _
  rw [same, fits_weave_iff sound] at strands
  exact strands.of_map

theorem Poised.not_fits (h : p.Poised g limits) (diverges : p.Diverges) :
    ¬ p.branching.Fits limits p.roots := by
  intro fits
  rw [Diverges, spotAt?_eq h.sound] at diverges
  exact Strand.not_finite_of_diverges diverges ((fits_weave_iff h.sound).mpr fits).finite

theorem resolve_fst (p : Parser) (token : Token) :
    (p.resolve token).1 = ((p.phase token).resolve p.limits.maxExpansions p.threads #[] p.store
      p.metrics.branches).outcome := by
  simp only [resolve, Phase.resolveCached_fst, phase]
  split
  · next failed => exact failed.symm
  · next ok => exact ok.symm

theorem resolve_keeps (p : Parser) (token : Token) :
    (p.resolve token).2.status = p.status ∧ (p.resolve token).2.diagnostics = p.diagnostics ∧
      (p.resolve token).2.results = p.results := by
  simp only [resolve]
  split <;> exact ⟨rfl, rfl, rfl⟩

theorem consume_keeps (p : Parser) (token : Token) :
    (p.consume token).2.status = p.status ∧ (p.consume token).2.diagnostics = p.diagnostics := by
  obtain ⟨status, diagnostics, -⟩ := p.resolve_keeps token
  simp only [consume]
  generalize p.resolve token = r at status diagnostics
  obtain ⟨outcome, q⟩ := r
  cases outcome with
  | error e => exact ⟨status, diagnostics⟩
  | ok ready => exact ⟨status, diagnostics⟩

theorem Settled.poised {clean : Bool} (h : p.Settled g.Defines g clean)
    (isFor : p.IsFor g limits) (runs : p.isRunning = true) : p.Poised g limits :=
  ⟨h.sound, isFor, h.weave.proper, (h.stands.running runs).2.2⟩

theorem Poised.resolves (h : p.Poised g limits) (closed : g.Closed g.Defines)
    (phase : p.Resolves token q) : q.Poised g limits := by
  cases phase with
  | first => exact h
  | @closing q survivors failed ended met any =>
    obtain ⟨sound, isFor, proper, diagnostics⟩ := h
    have isFor' := isFor.consume token
    have kept := (p.consume_keeps token).2
    obtain ⟨sound', -, within, same⟩ := consume_sim sound token
    rw [met] at isFor' kept sound' within same
    obtain ⟨within, -⟩ := within survivors failed rfl
    have closed' : p.weave.grammar.Closed g.Defines := by
      rw [show p.weave.grammar = g from isFor.1]
      exact closed
    obtain ⟨results, metrics, allocated, -, leaves, -⟩ := Weave.consume_of_ok closed' proper same
    exact ⟨⟨sound', within⟩, isFor', leaves.proper, kept.trans diagnostics⟩

theorem Resolves.feed_of_error (phase : p.Resolves token q) (runs : p.isRunning = true)
    (failed : (q.resolve token).1 = .error e) :
    (p.feed token).1 = some e ∧ (p.feed token).2.status = .halted ∧ (p.feed token).2.threads = [] ∧
      (p.feed token).2.diagnostics = q.diagnostics ∧ (p.feed token).2.results = q.results := by
  obtain ⟨-, diagnostics, results⟩ := q.resolve_keeps token
  rw [feed_of_running runs]
  cases resolved : q.resolve token with
  | mk outcome q' =>
    rw [resolved] at failed diagnostics results
    cases failed
    cases phase with
    | first =>
      simp only [take, finishAt, consume, resolved]
      split <;> exact ⟨rfl, rfl, rfl, diagnostics, results⟩
    | @closing q survivors failed ended met any =>
      have alive : survivors.toList.isEmpty = false := Array.isEmpty_toList.trans any
      simp only [ended, ↓reduceIte, finishAt, met, complete, alive, Bool.false_eq_true, resolved]
      exact ⟨trivial, rfl, rfl, diagnostics, results⟩

theorem Meets.eq_feed (call : p.Meets token r) (runs : p.isRunning = true)
    (failed : (p.feed token).1 = some e) : r = p.feed token := by
  cases call with
  | feed => rfl
  | finish => exact finish_eq_feed runs
  | pulled next plain =>
    rw [parse_of_token runs next plain]
    generalize p.feed token = fed at failed
    obtain ⟨error?, q⟩ := fed
    cases failed
    rfl
  | ended next marker =>
    rw [parse_of_end runs next marker]
    exact finish_eq_feed runs

theorem Reachable.isFor {allowed : Pattern → Prop} {clean : Bool}
    (h : Reachable allowed g limits clean p) : p.IsFor g limits := by
  induction h with
  | fresh => exact ⟨rfl, rfl⟩
  | setup _ _ _ ih => exact ih
  | feed _ token ih => exact ih.feed token
  | finish _ ih => exact ih.finish
  | parse _ s ih => exact ih.parse s

variable {b : Builder} {made : List Pattern}

/-- Whenever threads are resolved, at a token or at the end of the input, the loop ends within one
round more than there may be steps; it ends well exactly if the trees of steps of all threads are
finite, are not too large, and no node in them that waits for a token is one too many. If some thread
goes on without end, the call gives the error of a limit, the parser is halted, and there is neither a
diagnostic nor a result that was not there before. -/
theorem resolving_always_ends (built : b.Built made) (ok : b.grammar = .ok g) {clean : Bool}
    (reachable : Reachable (· ∈ made) g limits clean p) (runs : p.isRunning = true)
    (phase : p.Resolves token q) :
    (∃ resolution, (q.phase token).rounds (limits.maxExpansions + 1) q.loop = .inr resolution ∧
      (q.resolve token).1 = resolution.outcome) ∧
    ((∃ ready, (q.resolve token).1 = .ok ready) ↔ q.branching.Fits limits q.roots) ∧
    p.results = #[] ∧
    (q.Diverges → ∀ r, p.Meets token r → Trips limits token r ∧ r.2.results = q.results) := by
  have closed := built.closed ok
  have settled := reachable.settled closed (built.proper_of_grammar ok)
  have poised := (settled.poised reachable.isFor runs).resolves closed phase
  have decides := poised.decides closed token
  obtain rfl : q.limits = limits := poised.isFor.2
  refine ⟨⟨_, Phase.rounds_eq (q.phase token) (Nat.zero_add _), q.resolve_fst token⟩, ?_,
    (settled.stands.running runs).2.1, ?_⟩
  · rcases decides with ⟨fits, ready, ended⟩ | ⟨unfit, limit⟩
    · exact ⟨fun _ => fits, fun _ => ⟨ready, ended⟩⟩
    · refine ⟨?_, fun fits => absurd fits unfit⟩
      rintro ⟨ready, ended⟩
      rw [ended] at limit
      rcases limit with absurd | absurd <;> cases absurd
  · intro diverges r call
    have unfit := poised.not_fits diverges
    have trips : ∀ e, (q.resolve token).1 = .error e →
        (e = .threadLimit q.limits.maxThreads token.position ∨
          e = .expansionLimit q.limits.maxExpansions token.position) →
        Trips q.limits token r ∧ r.2.results = q.results := by
      intro e failed limit
      obtain ⟨error, halted, threads, diagnostics, results⟩ := phase.feed_of_error runs failed
      rw [call.eq_feed runs error]
      refine ⟨⟨?_, halted, threads, diagnostics.trans poised.diagnostics⟩, results⟩
      rw [error]
      exact limit.imp (congrArg some) (congrArg some)
    rcases decides with ⟨fits, -⟩ | ⟨-, limit | limit⟩
    · exact absurd fits unfit
    · exact trips _ limit (.inl rfl)
    · exact trips _ limit (.inr rfl)

end Parser

namespace Builder

def wordsWord : Pattern := .sequence 0 none [.reference "main" [], wordPattern] (.nth 1) []

def leftPattern : Pattern := .branch [wordsWord, wordPattern] []

def leftBuilder : Builder where
  names := ["main"]
  rules := [("main", leftPattern)]
  referenced := ["main"]
  nextMark := 1

def leftGrammar : Grammar := ⟨["main"], [("main", leftPattern)], [], some "main"⟩

def leftPatterns : List Pattern :=
  [leftPattern, leftPattern, wordsWord, .reference "main" [], wordPattern]

theorem leftBuilder_built : leftBuilder.Built leftPatterns := by
  have word := Built.empty.operation (.token ⟨.word, none⟩) (by simp [Operation.operands])
  have start := word.operation (.reference "main") (by simp [Operation.operands])
  have more := start.operation (.sequence (.nth 1) [.reference "main" [], wordPattern])
    (by simp [Operation.operands, Operation.run, Builder.token, Builder.reference, wordPattern])
  have words := more.operation (.oneOf [wordsWord, wordPattern])
    (by simp [Operation.operands, Operation.run, Builder.token, Builder.reference,
      Builder.sequence, mention, Builder.empty, wordsWord, wordPattern])
  exact words.operation (.register "main" leftPattern)
    (by simp [Operation.operands, Operation.run, Builder.token, Builder.reference,
      Builder.sequence, Builder.oneOf, mention, Builder.empty, leftPattern, wordsWord,
      wordPattern])

theorem leftBuilder_grammar : leftBuilder.grammar = .ok leftGrammar := rfl

end Builder

namespace Parser

open Builder (leftPattern leftPatterns leftGrammar leftBuilder_built leftBuilder_grammar)

def leftStart : Parser := (ofGrammar leftGrammar {}).setup leftPattern .detached

theorem leftStart_diverges : leftStart.Diverges := by
  obtain ⟨sound, same⟩ := setup_sim (ofGrammar leftGrammar {}) leftPattern .detached
  have strands : leftStart.weave.strands = [⟨.ofPattern leftPattern, []⟩] :=
    congrArg Weave.strands same
  have sound : leftStart.Sound := sound
  rw [Diverges, spotAt?_eq sound, strands]
  let outer : Frame := ⟨⟨none, [.lower leftPattern], .nth 0⟩, []⟩
  let entered : Frame := ⟨⟨none, [.rule "main" [], .token ⟨.word, none⟩ []], .nth 1⟩, []⟩
  let spotAt? (π : Place) : Option Spot :=
    ((Strand.branching leftGrammar (.empty Position.detached.endPoint)).nodeAt?
      [⟨.ofPattern leftPattern, []⟩] π).map Strand.spot
  have here : spotAt? [0, 0, 0] = some (.next (.rule "main" []) [entered, outer]) := rfl
  have again : spotAt? ([0, 0, 0] ++ [0, 0, 0]) =
    some (.next (.rule "main" []) ([entered] ++ [entered, outer])) := rfl
  refine .recursion here again (List.cons_ne_nil _ _) ?_
  intro ρ s shorter found
  have cases : ρ = [] ∨ ρ = [0] ∨ ρ = [0, 0] ∨ ρ = [0, 0, 0] := by
    simpa [List.inits] using (List.mem_inits _ _).mpr shorter
  rcases cases with rfl | rfl | rfl | rfl
  · cases found
    exact List.suffix_refl _
  · cases found
    exact List.suffix_refl _
  · cases found
    exact List.suffix_refl _
  · cases found
    exact List.suffix_cons _ _

theorem left_recursion_trips :
    Reachable (· ∈ leftPatterns) leftGrammar {} true leftStart ∧ leftStart.isRunning = true ∧
      leftStart.Resolves wordA leftStart ∧ leftStart.Diverges ∧
      Trips {} wordA (leftStart.feed wordA) ∧ (leftStart.feed wordA).2.results = #[] := by
  have reachable : Reachable (· ∈ leftPatterns) leftGrammar {} true leftStart :=
    .setup .fresh List.mem_cons_self .detached
  have phase : leftStart.Resolves wordA leftStart := .first
  obtain ⟨-, -, none, trips⟩ :=
    resolving_always_ends leftBuilder_built leftBuilder_grammar reachable rfl phase
  obtain ⟨trips, results⟩ := trips leftStart_diverges _ (.feed wordA)
  exact ⟨reachable, rfl, phase, leftStart_diverges, trips, results.trans none⟩

end Parser

end Lockstep
