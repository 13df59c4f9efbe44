import Lockstep.Engine.Resolve
import Lockstep.Engine.Tally
import Lockstep.Store.Compaction
import Lockstep.Token.Stream

set_option autoImplicit false

/-!
The parser. It runs all derivations of the input in step: each token is met by all threads, and
those that take it live on. When none does, their failures are reported and the parser halts.
Every operation gives the parser after it and, if a limit was hit, the error.
-/

namespace Lockstep

inductive Status where
  | idle
  | running
  /-- All threads have died, or a limit was hit. -/
  | halted
  | finished
  deriving DecidableEq, Repr

structure Parser where
  grammar : Grammar
  limits : Limits
  /-- The rules lowered so far; it outlives a parse. -/
  cache : RuleCache grammar
  store : Store
  threads : List Thread
  results : Array Capture
  diagnostics : List Diagnostic
  /-- The place of the last token taken, at first of the start. -/
  last : Position
  status : Status
  metrics : Metrics
  compactAt : Nat

namespace Thread

def roots (t : Thread) : List Nat :=
  match t.step with
  | .next _ node => node :: t.fresh
  | .done node => node :: t.fresh

def rename (f : Nat → Nat) (t : Thread) : Thread :=
  let step := match t.step with
    | .next matcher node => .next matcher (f node)
    | .done node => .done (f node)
  { t with step, fresh := t.fresh.map f }

end Thread

namespace Parser

def minCompact : Nat := 4096

def ofGrammar (grammar : Grammar) (limits : Limits) : Parser where
  grammar
  limits
  cache := .empty
  store := .empty
  threads := []
  results := #[]
  diagnostics := []
  last := .detached
  status := .idle
  metrics := {}
  compactAt := minCompact

def setup (p : Parser) (pattern : Pattern) (start : Position) : Parser :=
  let matcher := Matcher.lower pattern
  let (root, store) := Store.empty.enter none ⟨none, [matcher], .nth 0⟩
  { p with
    store
    threads := [⟨.next matcher root, [], []⟩]
    results := #[]
    diagnostics := []
    last := start
    status := .running
    metrics := {}
    compactAt := minCompact }

def isRunning (p : Parser) : Bool := p.status == .running

def hasError (p : Parser) : Bool :=
  !p.diagnostics.isEmpty && p.threads.isEmpty && p.results.isEmpty

def halt (p : Parser) : Parser := { p with threads := [], status := .halted }

def resolve (p : Parser) (token : Token) : Except ParseError (Array Ready) × Parser :=
  let phase : Phase := ⟨p.grammar, p.limits, .empty p.last.endPoint, token.position⟩
  let (threads, store) := (p.threads, p.store)
  let p := { p with threads := [], store := .empty }
  let (r, cache) :=
    phase.resolveCached p.cache phase.limits.maxExpansions threads #[] store p.metrics.branches
  let metrics := { p.metrics with branches := r.branches }
  match r.outcome with
  | .error e => (.error e, { p with store := r.store, cache, metrics })
  | .ok ready =>
    let metrics := { metrics with peakThreads := max metrics.peakThreads ready.size }
    (.ok ready, { p with store := r.store, cache, metrics })

def meetAll (p : Parser) (meet : Tally → Ready → Tally) (ready : Array Ready)
    (failed : Array Failed) : Array Thread × Array Failed × Parser :=
  let (store, results) := (p.store, p.results)
  let p := { p with store := .empty, results := #[] }
  let tally := ready.foldl meet ⟨store, #[], failed, results⟩
  (tally.survivors, tally.failed, { p with store := tally.store, results := tally.results })

def consume (p : Parser) (token : Token) :
    Except ParseError (Array Thread × Array Failed) × Parser :=
  match p.resolve token with
  | (.error e, p) => (.error e, p)
  | (.ok ready, p) =>
    let (survivors, failed, p) := p.meetAll (.meet token p.last.endPoint) ready #[]
    (.ok (survivors, failed), p)

def failures (p : Parser) (failed : Array Failed) : List Failure :=
  failed.toList.map fun f => ⟨p.store.trail f.node, f.cause⟩

def compact (p : Parser) : Parser :=
  let (store, place) := p.store.compact (p.threads.flatMap Thread.roots)
  let threads := p.threads.map (Thread.rename place)
  { p with store, threads, compactAt := max (2 * store.size) minCompact }

def countNodes (p : Parser) : Parser :=
  { p with metrics := { p.metrics with sequencesAllocated := p.store.allocated } }

def countToken (p : Parser) : Parser :=
  { p with metrics := { p.metrics with tokensConsumed := p.metrics.tokensConsumed + 1 } }

def reject (p : Parser) (failed : Array Failed) (token : Token) : Parser :=
  { p with diagnostics := Failure.report (p.failures failed) token, status := .halted }

/-- The threads that took the end marker are to be accepted without more input. -/
def complete (p : Parser) (eof : Token) (failed : Array Failed) :
    Except ParseError (Array Failed) × Parser :=
  if p.threads.isEmpty then (.ok failed, p)
  else
    match p.resolve eof with
    | (.error e, p) => (.error e, p)
    | (.ok ready, p) =>
      let (_, failed, p) := p.meetAll (.close eof p.last.endPoint) ready failed
      (.ok failed, p)

def finishAt (p : Parser) (eof : Token) : Option ParseError × Parser :=
  match p.consume eof with
  | (.error e, p) => (some e, p.halt)
  | (.ok (survivors, failed), p) =>
    match { p with threads := survivors.toList }.complete eof failed with
    | (.error e, p) => (some e, p.halt)
    | (.ok failed, p) =>
      let p := { p with threads := [] }.countNodes
      if p.results.isEmpty then (none, p.reject failed eof)
      else (none, { p with status := .finished })

/-- The input ends here, one column after the last token. -/
def finish (p : Parser) : Option ParseError × Parser :=
  if p.isRunning then p.finishAt (.eof (p.last.endPoint.after 1)) else (none, p)

def take (p : Parser) (token : Token) : Option ParseError × Parser :=
  match p.consume token with
  | (.error e, p) => (some e, p.countToken.halt)
  | (.ok (survivors, failed), p) =>
    let p := { p.countToken.countNodes with last := token.position, threads := survivors.toList }
    (none, if survivors.isEmpty then p.reject failed token else p)

def isCompactionDue (p : Parser) : Bool := p.compactAt ≤ p.store.size

/-- Feeds one token; an end marker ends the input. A parser that is not running takes none. -/
def feed (p : Parser) (token : Token) : Option ParseError × Parser :=
  if !p.isRunning then (none, p)
  else if token.isEof then p.finishAt token
  else
    match p.take token with
    | (some e, p) => (some e, p)
    | (none, p) => (none, if p.isCompactionDue then p.compact else p)

def parse {σ : Type} [TokenSource σ] (p : Parser) (tokens : σ) : Option ParseError × Parser × σ :=
  if p.isRunning then
    match pulled : TokenSource.next tokens with
    | (.error e, tokens) => (some (.lexical e), p.halt, tokens)
    | (.ok token, rest) =>
      if ended : token.isEof then
        let (error?, p) := p.finish
        (error?, p, rest)
      else
        have := TokenSource.remaining_lt pulled (Bool.eq_false_iff.2 ended)
        match p.feed token with
        | (some e, p) => (some e, p, rest)
        | (none, p) => p.parse rest
  else (none, p, tokens)
termination_by TokenSource.remaining tokens

def takeResults (p : Parser) : List Capture × Parser :=
  (p.results.toList, { p with results := #[] })

def takeDiagnostics (p : Parser) : List Diagnostic × Parser :=
  (p.diagnostics, { p with diagnostics := [] })

end Parser

end Lockstep
