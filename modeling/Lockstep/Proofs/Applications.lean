import Lockstep.Proofs.Alignment
import Lockstep.Proofs.Reachable

set_option autoImplicit false

namespace Lockstep

variable {defined : String → Prop} {g : Grammar} {log : List Application}

namespace Parser

section Logs

def meetAllLog (p : Parser) (meet : Tally → Ready → Tally)
    (applied : Tally → Ready → List Application) (ready : Array Ready) (failed : Array Failed) :
    List Application :=
  Tally.foldLog meet applied ⟨p.store, #[], failed, p.results⟩ ready.toList

def consumeLog (p : Parser) (token : Token) : List Application :=
  match p.resolve token with
  | (.error _, _) => []
  | (.ok ready, p) =>
    let last := p.last.endPoint
    p.meetAllLog (.meet token last) (Tally.meetLog token last) ready #[]

def completeLog (p : Parser) (eof : Token) (failed : Array Failed) : List Application :=
  if p.threads.isEmpty then []
  else
    match p.resolve eof with
    | (.error _, _) => []
    | (.ok ready, p) =>
      let last := p.last.endPoint
      p.meetAllLog (.close eof last) (Tally.closeLog eof last) ready failed

def finishAtLog (p : Parser) (eof : Token) : List Application :=
  p.consumeLog eof ++
    match p.consume eof with
    | (.error _, _) => []
    | (.ok (survivors, failed), p) =>
      { p with threads := survivors.toList }.completeLog eof failed

def finishLog (p : Parser) : List Application :=
  if p.isRunning then p.finishAtLog (.eof (p.last.endPoint.after 1)) else []

def feedLog (p : Parser) (token : Token) : List Application :=
  if !p.isRunning then []
  else if token.isEof then p.finishAtLog token
  else p.consumeLog token

def parseLog {σ : Type} [TokenSource σ] (p : Parser) (tokens : σ) : List Application :=
  if p.isRunning then
    match pulled : TokenSource.next tokens with
    | (.error _, _) => []
    | (.ok token, rest) =>
      if ended : token.isEof then p.finishLog
      else
        have := TokenSource.remaining_lt pulled (Bool.eq_false_iff.2 ended)
        p.feedLog token ++
          match p.feed token with
          | (some _, _) => []
          | (none, p) => p.parseLog rest
  else []
termination_by TokenSource.remaining tokens

section

variable {σ : Type} [TokenSource σ] {p : Parser} {s s' : σ} {token : Token}

theorem parseLog_of_stopped (stopped : p.isRunning = false) (s : σ) : p.parseLog s = [] := by
  rw [parseLog]
  simp only [stopped, Bool.false_eq_true, ↓reduceIte]

theorem parseLog_of_error {fault : LexError} (step : TokenSource.next s = (.error fault, s')) :
    p.parseLog s = [] := by
  rw [parseLog]
  split
  · split
    · rfl
    · next pulled => rw [step] at pulled; cases pulled
  · rfl

theorem parseLog_of_end (runs : p.isRunning = true) (step : TokenSource.next s = (.ok token, s'))
    (marker : token.isEof = true) : p.parseLog s = p.finishLog := by
  rw [parseLog]
  simp only [runs, ↓reduceIte]
  split
  · next pulled => rw [step] at pulled; cases pulled
  · next pulled =>
    rw [step] at pulled
    cases pulled
    simp only [marker, ↓reduceDIte]

theorem parseLog_of_token (runs : p.isRunning = true)
    (step : TokenSource.next s = (.ok token, s')) (plain : token.isEof = false) :
    p.parseLog s = p.feedLog token ++
      match p.feed token with
      | (some _, _) => []
      | (none, p) => p.parseLog s' := by
  rw [parseLog]
  simp only [runs, ↓reduceIte]
  split
  · next pulled => rw [step] at pulled; cases pulled
  · next pulled =>
    rw [step] at pulled
    cases pulled
    simp only [plain, Bool.false_eq_true, ↓reduceDIte]

end

end Logs

structure Full (defined : String → Prop) (g : Grammar) (log : List Application) (p : Parser) :
    Prop where
  grammar_eq : p.grammar = g
  store : p.store.Full defined g log
  threads : ∀ t ∈ p.threads, t.Aligned defined g p.store
  results : ∀ c ∈ p.results.toList, ∃ a ∈ log, c = a.result
  log : g.Full log

variable {p q : Parser} {token : Token}

theorem Full.same (h : p.Full defined g log) (grammar : q.grammar = p.grammar)
    (store : q.store = p.store) (results : q.results = p.results)
    (threads : ∀ t ∈ q.threads, t.Aligned defined g p.store) : q.Full defined g log :=
  ⟨grammar.trans h.grammar_eq, store ▸ h.store, store ▸ threads, results ▸ h.results, h.log⟩

theorem Full.halt (h : p.Full defined g log) : p.halt.Full defined g log :=
  h.same rfl rfl rfl fun _ mem => absurd mem List.not_mem_nil

section

variable (closed : g.Closed defined) (h : p.Full defined g log)
include closed h

theorem Full.resolve (token : Token) :
    (p.resolve token).2.Full defined g log ∧ (p.resolve token).2.threads = [] ∧
      ∀ ready, (p.resolve token).1 = .ok ready →
        ∀ r ∈ ready.toList, r.Aligned g (p.resolve token).2.store := by
  obtain ⟨rfl, store, threads, results, full⟩ := h
  let phase : Phase := ⟨p.grammar, p.limits, .empty p.last.endPoint, token.position⟩
  have resolved := Phase.resolve_full (p := phase) rfl closed p.limits.maxExpansions p.threads #[]
    p.store p.metrics.branches store threads fun _ mem => absurd mem List.not_mem_nil
  simp only [Parser.resolve, Phase.resolveCached_fst]
  generalize phase.resolve p.limits.maxExpansions p.threads #[] p.store p.metrics.branches = r
    at resolved
  obtain ⟨store', -, waits⟩ := resolved
  have none : ∀ t ∈ ([] : List Thread), t.Aligned defined p.grammar r.store :=
    fun _ mem => absurd mem List.not_mem_nil
  cases outcome : r.outcome with
  | error e =>
    refine ⟨⟨rfl, store', none, results, full⟩, rfl, ?_⟩
    rintro ready' ⟨⟩
  | ok ready =>
    refine ⟨⟨rfl, store', none, results, full⟩, rfl, ?_⟩
    intro ready' same
    cases same
    exact waits ready outcome

omit closed in
theorem Full.meetAll {meet : Tally → Ready → Tally} {applied : Tally → Ready → List Application}
    (fills : Tally.Fills defined g meet applied) {ready : Array Ready}
    (aligned : ∀ r ∈ ready.toList, r.Aligned g p.store) (idle : p.threads = [])
    (failed : Array Failed) :
    let r := p.meetAll meet ready failed
    r.2.2.Full defined g (log ++ p.meetAllLog meet applied ready failed) ∧
      ∀ t ∈ r.1.toList, t.Aligned defined g r.2.2.store := by
  have start : Tally.Full defined g log ⟨p.store, #[], failed, p.results⟩ :=
    ⟨h.store, fun _ mem => absurd mem List.not_mem_nil, h.results, h.log⟩
  obtain ⟨store, survivors, results, full⟩ := fills.foldl ready.toList start aligned
  simp only [Parser.meetAll, meetAllLog, ← Array.foldl_toList]
  refine ⟨⟨h.grammar_eq, store, ?_, results, full⟩, survivors⟩
  rw [idle]
  exact fun _ mem => absurd mem List.not_mem_nil

theorem Full.consume (token : Token) :
    (p.consume token).2.Full defined g (log ++ p.consumeLog token) ∧
      ∀ survivors failed, (p.consume token).1 = .ok (survivors, failed) →
        ∀ t ∈ survivors.toList, t.Aligned defined g (p.consume token).2.store := by
  obtain ⟨resolved, idle, aligned⟩ := h.resolve closed token
  simp only [Parser.consume, consumeLog]
  generalize p.resolve token = r at resolved idle aligned
  obtain ⟨outcome, q⟩ := r
  cases outcome with
  | error e =>
    simp only [List.append_nil]
    exact ⟨resolved, fun _ _ absurd => nomatch absurd⟩
  | ok ready =>
    obtain ⟨met, survive⟩ :=
      resolved.meetAll (Tally.meet_fills token q.last.endPoint) (aligned ready rfl) idle #[]
    refine ⟨met, ?_⟩
    intro survivors failed same
    cases same
    exact survive

theorem Full.complete (eof : Token) (failed : Array Failed) :
    (p.complete eof failed).2.Full defined g (log ++ p.completeLog eof failed) := by
  simp only [Parser.complete, completeLog]
  split
  · rw [List.append_nil]
    exact h
  · obtain ⟨resolved, idle, aligned⟩ := h.resolve closed eof
    generalize p.resolve eof = r at resolved idle aligned
    obtain ⟨outcome, q⟩ := r
    cases outcome with
    | error e =>
      simp only [List.append_nil]
      exact resolved
    | ok ready =>
      exact (resolved.meetAll (Tally.close_fills eof q.last.endPoint) (aligned ready rfl) idle
        failed).1

theorem Full.finishAt (eof : Token) :
    (p.finishAt eof).2.Full defined g (log ++ p.finishAtLog eof) := by
  obtain ⟨consumed, survive⟩ := h.consume closed eof
  simp only [Parser.finishAt, finishAtLog, ← List.append_assoc]
  generalize p.consume eof = r at consumed survive
  obtain ⟨outcome, q⟩ := r
  cases outcome with
  | error e =>
    simp only [List.append_nil]
    exact consumed.halt
  | ok pair =>
    obtain ⟨survivors, failed⟩ := pair
    have survived :
        { q with threads := survivors.toList }.Full defined g (log ++ p.consumeLog eof) :=
      consumed.same rfl rfl rfl (survive survivors failed rfl)
    have completed := survived.complete closed eof failed
    simp only
    generalize { q with threads := survivors.toList }.complete eof failed = r' at completed
    obtain ⟨outcome', q'⟩ := r'
    cases outcome' with
    | error e => exact completed.halt
    | ok failed' =>
      have none : ∀ t ∈ ([] : List Thread), t.Aligned defined g q'.store :=
        fun _ mem => absurd mem List.not_mem_nil
      simp only
      split
      · exact completed.same rfl rfl rfl none
      · exact completed.same rfl rfl rfl none

theorem Full.finish : p.finish.2.Full defined g (log ++ p.finishLog) := by
  simp only [Parser.finish, finishLog]
  split
  · exact h.finishAt closed _
  · rw [List.append_nil]
    exact h

theorem Full.take (token : Token) :
    (p.take token).2.Full defined g (log ++ p.consumeLog token) := by
  obtain ⟨consumed, survive⟩ := h.consume closed token
  simp only [Parser.take]
  generalize p.consume token = r at consumed survive
  obtain ⟨outcome, q⟩ := r
  cases outcome with
  | error e => exact consumed.same rfl rfl rfl fun _ mem => absurd mem List.not_mem_nil
  | ok pair =>
    obtain ⟨survivors, failed⟩ := pair
    have survived := survive survivors failed rfl
    simp only
    split
    · exact consumed.same rfl rfl rfl survived
    · exact consumed.same rfl rfl rfl survived

omit closed in
theorem Full.compact : p.compact.Full defined g log := by
  refine ⟨h.grammar_eq, Store.compact_full h.store _, ?_, h.results, h.log⟩
  intro t' mem
  obtain ⟨t, inside, rfl⟩ := List.mem_map.mp mem
  have root : t.step.node ∈ p.threads.flatMap Thread.roots := by
    refine List.mem_flatMap.mpr ⟨t, inside, ?_⟩
    obtain ⟨step, guards, fresh⟩ := t
    cases step <;> exact List.mem_cons_self
  exact Store.compact_aligned h.store _ root (h.threads t inside)

theorem Full.feed (token : Token) :
    (p.feed token).2.Full defined g (log ++ p.feedLog token) := by
  simp only [Parser.feed, feedLog]
  split
  · rw [List.append_nil]
    exact h
  · split
    · exact h.finishAt closed token
    · have taken := h.take closed token
      generalize p.take token = r at taken
      obtain ⟨error?, q⟩ := r
      cases error? with
      | some e => exact taken
      | none =>
        simp only
        split
        · exact taken.compact
        · exact taken

theorem Full.parse {σ : Type} [TokenSource σ] (s : σ) :
    (p.parse s).2.1.Full defined g (log ++ p.parseLog s) := by
  have stays : ∀ {q : Parser} {log : List Application} (s : σ), q.isRunning = false →
      q.Full defined g log → (q.parse s).2.1.Full defined g (log ++ q.parseLog s) := by
    intro q log s stopped h
    rw [parse_of_stopped stopped, parseLog_of_stopped stopped, List.append_nil]
    exact h
  induction s using TokenSource.pull_induction generalizing p log with
  | failed s fault s' step =>
    cases runs : p.isRunning with
    | false => exact stays s runs h
    | true =>
      rw [parse_of_error runs step, parseLog_of_error step, List.append_nil]
      exact h.halt
  | ended s token s' step marker =>
    cases runs : p.isRunning with
    | false => exact stays s runs h
    | true =>
      rw [parse_of_end runs step marker, parseLog_of_end runs step marker]
      exact h.finish closed
  | pulled s token s' step plain ih =>
    cases runs : p.isRunning with
    | false => exact stays s runs h
    | true =>
      have fed := h.feed closed token
      rw [parse_of_token runs step plain, parseLog_of_token runs step plain, ← List.append_assoc]
      generalize p.feed token = r at fed
      obtain ⟨error?, q⟩ := r
      cases error? with
      | some e =>
        simp only [List.append_nil]
        exact fed
      | none => exact ih fed

end

theorem empty_full (defined : String → Prop) (g : Grammar) : Store.empty.Full defined g log :=
  ⟨Store.empty_sound, fun _ _ found => nomatch found⟩

theorem ofGrammar_full (defined : String → Prop) (g : Grammar) (limits : Limits) :
    (ofGrammar g limits).Full defined g [] :=
  ⟨rfl, empty_full defined g, fun _ mem => absurd mem List.not_mem_nil,
    fun _ mem => absurd mem List.not_mem_nil, .nil⟩

theorem Full.setup (h : p.Full defined g log) {pattern : Pattern} (proper : pattern.Proper defined)
    (start : Position) : (p.setup pattern start).Full defined g log := by
  have lowered : ∀ m ∈ [Matcher.lower pattern], m.Proper defined := by
    intro m mem
    rw [List.mem_singleton.mp mem]
    exact Matcher.proper_lower proper
  have root : ∀ q, (none : Option Nat) = some q → ∃ part guards,
      Store.empty.nextPart? q = some part ∧
        g.Leads part ((Sequence.mk none [Matcher.lower pattern] (.nth 0)).matcher guards) :=
    fun _ absurd => nomatch absurd
  obtain ⟨store, -⟩ := Store.enter_full (empty_full defined g) (List.cons_ne_nil _ _) lowered root
  refine ⟨h.grammar_eq, store, ?_, fun _ mem => absurd mem List.not_mem_nil, h.log⟩
  intro t mem
  rw [List.mem_singleton.mp mem]
  exact store.aligned_next rfl

/-- Calls lead from a new parser for `g` to `p`, the patterns for it to be set up with being
`allowed`, and `log` is what they have applied on the way. -/
inductive Logged (allowed : Pattern → Prop) (g : Grammar) (limits : Limits) :
    (log : List Application) → Parser → Prop where
  | fresh : Logged allowed g limits [] (ofGrammar g limits)
  | setup {log : List Application} {p : Parser} {pattern : Pattern}
      (h : Logged allowed g limits log p) (known : allowed pattern) (start : Position) :
    Logged allowed g limits log (p.setup pattern start)
  | feed {log : List Application} {p : Parser} (h : Logged allowed g limits log p)
      (token : Token) :
    Logged allowed g limits (log ++ p.feedLog token) (p.feed token).2
  | finish {log : List Application} {p : Parser} (h : Logged allowed g limits log p) :
    Logged allowed g limits (log ++ p.finishLog) p.finish.2
  | parse {log : List Application} {p : Parser} {σ : Type} [TokenSource σ]
      (h : Logged allowed g limits log p) (s : σ) :
    Logged allowed g limits (log ++ p.parseLog s) (p.parse s).2.1

variable {allowed : Pattern → Prop} {limits : Limits}

theorem Reachable.logged {clean : Bool} (h : Reachable allowed g limits clean p) :
    ∃ log, Logged allowed g limits log p := by
  induction h with
  | fresh => exact ⟨[], .fresh⟩
  | setup _ known start ih =>
    obtain ⟨log, logged⟩ := ih
    exact ⟨log, logged.setup known start⟩
  | feed _ token ih =>
    obtain ⟨log, logged⟩ := ih
    exact ⟨_, logged.feed token⟩
  | finish _ ih =>
    obtain ⟨log, logged⟩ := ih
    exact ⟨_, logged.finish⟩
  | parse _ s ih =>
    obtain ⟨log, logged⟩ := ih
    exact ⟨_, logged.parse s⟩

theorem Logged.full (h : Logged allowed g limits log p) (closed : g.Closed defined)
    (proper : ∀ pattern, allowed pattern → pattern.Proper defined) : p.Full defined g log := by
  induction h with
  | fresh => exact ofGrammar_full defined g limits
  | setup _ known start ih => exact ih.setup (proper _ known) start
  | feed _ token ih => exact ih.feed closed token
  | finish _ ih => exact ih.finish closed
  | parse _ s ih => exact ih.parse closed s

/-- Whatever captures the parser holds go back to tokens, to nothing or to the applications in
`log`. -/
structure Accounts (g : Grammar) (log : List Application) (p : Parser) : Prop where
  results : ∀ c ∈ p.results, ∃ a ∈ log, c = a.result
  slots : ∀ (id : Nat) (n : Node) (previous : Nat) (c : Capture), p.store.nodes[id]? = some n →
    n.progress = .extended previous (.built c) →
    ∃ part, p.store.nextPart? previous = some part ∧ g.Captures log part c

theorem Full.accounts (h : p.Full defined g log) : p.Accounts g log := by
  refine ⟨fun c mem => h.results c (Array.mem_toList_iff.mpr mem), ?_⟩
  intro id n previous c found built
  have progress := (h.store.node id n found).progress
  rw [built] at progress
  obtain ⟨m, part, foundPrevious, -, next, captured⟩ := progress
  exact ⟨part, (Store.nextPart?_of_node foundPrevious).trans next, captured⟩

end Parser

/-- The combiner gets one capture for each part of its sequence, when it is applied after those
`before`. -/
structure Application.GetsAll (g : Grammar) (before : List Application) (a : Application) :
    Prop where
  length_eq : a.captures.length = a.sequence.parts.length
  captures : ∀ (i : Nat) (part : Matcher) (c : Capture), a.sequence.parts[i]? = some part →
    a.captures[i]? = some c → g.Captures before part c
  /-- For a part that is a sequence itself, it is the result that the combiner of that had. -/
  inner : ∀ (i : Nat) (q : Sequence) (guards : List Predicate) (c : Capture),
    a.sequence.parts[i]? = some (q.matcher guards) → a.captures[i]? = some c →
    ∃ inner ∈ before, inner.sequence = q ∧ c = inner.result
  /-- So there is a first one, after which the marker for parts that do not fit is put. -/
  fallback : ∃ c ∈ a.captures, Combiner.fallback a.captures = .empty c.position.endPoint

theorem Grammar.IsFull.getsAll {before : List Application} {a : Application}
    (h : g.IsFull before a) : a.GetsAll g before := by
  obtain ⟨nonempty, all⟩ := h
  have captures : ∀ (i : Nat) (part : Matcher) (c : Capture), a.sequence.parts[i]? = some part →
      a.captures[i]? = some c → g.Captures before part c := by
    intro i part c atPart atCapture
    obtain ⟨inside, rfl⟩ := List.getElem?_eq_some_iff.mp atPart
    obtain ⟨inside', rfl⟩ := List.getElem?_eq_some_iff.mp atCapture
    exact all.get inside inside'
  refine ⟨all.length_eq.symm, captures, ?_, ?_⟩
  · intro i q guards c atPart atCapture
    exact (captures i _ c atPart atCapture).of_sequence
  · cases same : a.captures with
    | nil => exact absurd same nonempty
    | cons c rest => exact ⟨c, List.mem_cons_self, rfl⟩

namespace Parser

variable {p : Parser} {b : Builder} {made : List Pattern}

/-- Whatever is applied in calls with patterns that were built, the combiner gets a capture for each
part; and all captures that the parser holds go back to what was so applied. -/
theorem combiners_get_all_parts (built : b.Built made) (ok : b.grammar = .ok g) (limits : Limits)
    (logged : Logged Pattern.Made g limits log p) :
    (∀ before a after, log = before ++ a :: after → a.GetsAll g before) ∧ p.Accounts g log := by
  -- A parse that comes upon an unknown name just ends, so any name will do.
  have closed : g.Closed fun _ => True := (built.closed ok).mono fun _ _ => trivial
  have full := logged.full closed fun _ => Pattern.Made.proper
  refine ⟨?_, full.accounts⟩
  intro before a after split
  exact (full.log.isFull split).getsAll

open Builder (wordsGrammar moreWords wordsBuilder_built wordsBuilder_grammar)

def awaitingWords : Parser := (ofGrammar wordsGrammar {}).setup moreWords .detached

def fedOneWord : Parser := (awaitingWords.feed wordA).2

def fedTwoWords : Parser := (fedOneWord.feed wordA).2

def twoWordsLog : List Application :=
  awaitingWords.feedLog wordA ++ fedOneWord.feedLog wordA ++ fedTwoWords.finishLog

theorem parts_of_two_words :
    twoWordsLog.map Application.captures =
        [[.token wordA, .token wordA], [.token wordA]] ∧
      fedTwoWords.finish.2.results = #[.token wordA] ∧
      (∀ before a after, twoWordsLog = before ++ a :: after → a.GetsAll wordsGrammar before) ∧
      fedTwoWords.finish.2.Accounts wordsGrammar twoWordsLog := by
  have made : moreWords.Made := ⟨_, _, wordsBuilder_built, by simp⟩
  have start : Logged Pattern.Made wordsGrammar {} [] awaitingWords :=
    Logged.fresh.setup made .detached
  have logged := ((start.feed wordA).feed wordA).finish
  rw [List.nil_append] at logged
  exact ⟨by decide +kernel, by decide +kernel,
    combiners_get_all_parts wordsBuilder_built wordsBuilder_grammar {} logged⟩

end Parser

end Lockstep
