import Lockstep.Proofs.Simulation.Threads
import Lockstep.Proofs.Store.Compacted

set_option autoImplicit false

namespace Lockstep

namespace Parser

def weave (p : Parser) : Weave where
  grammar := p.grammar
  limits := p.limits
  strands := p.threads.map (Thread.strand p.store)
  results := p.results.toList
  diagnostics := p.diagnostics
  last := p.last
  status := p.status
  metrics := p.metrics
  allocated := p.store.allocated

def Sound (p : Parser) : Prop := p.store.Sound ∧ ∀ t ∈ p.threads, t.Within p.store

variable {p : Parser}

theorem setup_sim (p : Parser) (pattern : Pattern) (start : Position) :
    (p.setup pattern start).Sound ∧
      (p.setup pattern start).weave = .ofPattern p.grammar p.limits pattern start := by
  have nowhere : ∀ q, (none : Option Nat) = some q → q < Store.empty.size := by
    intro q same
    cases same
  have entered := Store.enter_follows Store.empty_sound
    ⟨none, [.lower pattern], .nth 0⟩ nowhere
  have frames := Store.frames_enter Store.empty_sound ⟨none, [.lower pattern], .nth 0⟩ nowhere
  refine ⟨⟨entered.sound, ?_⟩, ?_⟩
  · intro t mem
    rw [List.mem_singleton.mp mem]
    exact Nat.zero_lt_one
  · have strand : Thread.strand (p.setup pattern start).store ⟨.next (.lower pattern) 0, [], []⟩ =
        ⟨.next (.lower pattern) [⟨⟨none, [.lower pattern], .nth 0⟩, []⟩], []⟩ := by
      exact congrArg (fun frames => Strand.mk (.next (.lower pattern) frames) []) frames
    simp only [weave, Weave.ofPattern, ← strand]
    rfl

theorem resolve_sim (h : p.Sound) (token : Token) :
    p.store.Follows (p.resolve token).2.store ∧ (p.resolve token).2.threads = [] ∧
      (∀ ready, (p.resolve token).1 = .ok ready →
        ∀ r ∈ ready.toList, r.Within (p.resolve token).2.store) ∧
      p.weave.resolve token =
        ((p.resolve token).1.map fun ready =>
          ready.toList.map (Ready.waiting (p.resolve token).2.store), (p.resolve token).2.weave) := by
  obtain ⟨sound, within⟩ := h
  have sim := Phase.resolve_sim ⟨p.grammar, p.limits, .empty p.last.endPoint, token.position⟩
    p.limits.maxExpansions p.threads #[] p.store p.metrics.branches sound within
    (fun _ mem => absurd mem List.not_mem_nil)
  simp only [resolve, Phase.resolveCached_fst, Weave.resolve, weave]
  simp only [List.map_nil] at sim
  generalize Phase.resolve _ _ _ _ _ _ = r at sim ⊢
  generalize Phase.resolveStrands _ _ _ _ _ _ = v at sim ⊢
  rw [sim.outcome, sim.branches, sim.made]
  cases outcome : r.outcome with
  | error e =>
    refine ⟨sim.follows, rfl, ?_, rfl⟩
    intro ready same
    cases same
  | ok ready =>
    refine ⟨sim.follows, rfl, ?_, ?_⟩
    · intro ready' same
      cases same
      exact sim.within ready outcome
    · simp only [Except.map, List.map_nil, List.length_map, Array.length_toList]

theorem meetAll_sim (sound : p.store.Sound) {meet : Tally → Ready → Tally}
    {fate : Waiting → Fate} (meets : Tally.Meets meet fate) {ready : Array Ready}
    (readyWithin : ∀ r ∈ ready.toList, r.Within p.store) (failed : Array Failed)
    (failedWithin : ∀ f ∈ failed.toList, f.Within p.store) :
    let fates := (ready.toList.map (Ready.waiting p.store)).map fate
    let r := p.meetAll meet ready failed
    r.2.2.store.Sound ∧ r.2.2.threads = p.threads ∧
      (∀ t ∈ r.1.toList, t.Within r.2.2.store) ∧ (∀ f ∈ r.2.1.toList, f.Within r.2.2.store) ∧
      r.1.toList.map (Thread.strand r.2.2.store) = fates.flatMap Fate.survivors ∧
      r.2.2.failures r.2.1 = p.failures failed ++ fates.flatMap Fate.failures ∧
      (p.threads = [] → r.2.2.weave = p.weave.gather fates) := by
  have start : Tally.Sim ⟨p.store, #[], failed, p.results⟩ [] (p.failures failed)
      p.results.toList p.store.allocated :=
    ⟨sound, fun _ mem => absurd mem List.not_mem_nil, failedWithin, rfl, rfl, rfl, rfl⟩
  obtain ⟨-, sim⟩ := meets.foldl ready.toList start readyWithin
  rw [Array.foldl_toList] at sim
  refine ⟨sim.sound, rfl, sim.survivorsWithin, sim.failedWithin, ?_, sim.failures_eq, ?_⟩
  · exact sim.survivors_eq
  · intro none
    simp only [meetAll, weave, none, Weave.gather, sim.results_eq, sim.made_eq]
    rfl

theorem consume_sim (h : p.Sound) (token : Token) :
    (p.consume token).2.store.Sound ∧ (p.consume token).2.threads = [] ∧
      (∀ survivors failed, (p.consume token).1 = .ok (survivors, failed) →
        (∀ t ∈ survivors.toList, t.Within (p.consume token).2.store) ∧
        ∀ f ∈ failed.toList, f.Within (p.consume token).2.store) ∧
      p.weave.consume token =
        ((p.consume token).1.map fun outcome =>
          (outcome.1.toList.map (Thread.strand (p.consume token).2.store),
            (p.consume token).2.failures outcome.2), (p.consume token).2.weave) := by
  obtain ⟨⟨sound, -, -⟩, idle, within, same⟩ := resolve_sim h token
  simp only [consume, Weave.consume]
  rw [same]
  generalize p.resolve token = r at *
  obtain ⟨outcome, q⟩ := r
  cases outcome with
  | error e =>
    refine ⟨sound, idle, ?_, rfl⟩
    intro survivors failed absurd
    cases absurd
  | ok ready =>
    obtain ⟨sound', idle', survivorsWithin, failedWithin, survivors, failures, gathered⟩ :=
      meetAll_sim sound (Tally.meet_meets token q.last.endPoint) (within ready rfl) #[]
        (fun _ mem => absurd mem List.not_mem_nil)
    refine ⟨sound', idle'.trans idle, ?_, ?_⟩
    · intro survivors failed same
      cases same
      exact ⟨survivorsWithin, failedWithin⟩
    · simp only [Except.map]
      rw [survivors, failures, gathered idle]
      rfl

theorem halt_sim (sound : p.store.Sound) : p.halt.Sound ∧ p.halt.weave = p.weave.halt :=
  ⟨⟨sound, fun _ mem => absurd mem List.not_mem_nil⟩, rfl⟩

theorem take_sim (h : p.Sound) (token : Token) :
    (p.take token).2.Sound ∧
      p.weave.take token = ((p.take token).1, (p.take token).2.weave) := by
  obtain ⟨sound, idle, within, same⟩ := consume_sim h token
  simp only [take, Weave.take]
  rw [same]
  generalize p.consume token = r at *
  obtain ⟨outcome, q⟩ := r
  cases outcome with
  | error e => exact ⟨(halt_sim sound).1, rfl⟩
  | ok outcome =>
    obtain ⟨survivors, failed⟩ := outcome
    obtain ⟨survivorsWithin, failedWithin⟩ := within survivors failed rfl
    simp only [Except.map, List.isEmpty_map]
    have empty : survivors.toList.isEmpty = survivors.isEmpty := Array.isEmpty_toList
    rw [empty]
    by_cases none : survivors.isEmpty = true
    · simp only [none, ↓reduceIte]
      exact ⟨⟨sound, survivorsWithin⟩, rfl⟩
    · simp only [none, Bool.false_eq_true, ↓reduceIte]
      exact ⟨⟨sound, survivorsWithin⟩, rfl⟩

theorem complete_sim (h : p.Sound) (eof : Token) {failed : Array Failed}
    (failedWithin : ∀ f ∈ failed.toList, f.Within p.store) :
    (p.complete eof failed).2.store.Sound ∧
      p.weave.complete eof (p.failures failed) =
        ((p.complete eof failed).1.map (p.complete eof failed).2.failures,
          (p.complete eof failed).2.weave) := by
  obtain ⟨follows, idle, within, same⟩ := resolve_sim h eof
  have empty : p.weave.strands.isEmpty = p.threads.isEmpty := List.isEmpty_map
  simp only [complete, Weave.complete, empty]
  by_cases none : p.threads.isEmpty = true
  · simp only [none, ↓reduceIte]
    exact ⟨h.1, rfl⟩
  · simp only [none, Bool.false_eq_true, ↓reduceIte]
    rw [same]
    generalize p.resolve eof = r at *
    obtain ⟨outcome, q⟩ := r
    cases outcome with
    | error e => exact ⟨follows.sound, rfl⟩
    | ok ready =>
      obtain ⟨failedWithin', kept⟩ := follows.failures_eq failedWithin
      obtain ⟨sound', -, -, -, -, failures, gathered⟩ :=
        meetAll_sim follows.sound (Tally.close_meets eof q.last.endPoint) (within ready rfl) failed
          failedWithin'
      refine ⟨sound', ?_⟩
      simp only [Except.map]
      rw [failures, gathered idle]
      have kept : q.failures failed = p.failures failed := kept
      rw [kept]
      rfl

theorem finishAt_sim (h : p.Sound) (eof : Token) :
    (p.finishAt eof).2.Sound ∧
      p.weave.finishAt eof = ((p.finishAt eof).1, (p.finishAt eof).2.weave) := by
  obtain ⟨sound, idle, within, same⟩ := consume_sim h eof
  simp only [finishAt, Weave.finishAt]
  rw [same]
  generalize p.consume eof = r at *
  obtain ⟨outcome, q⟩ := r
  cases outcome with
  | error e => exact ⟨(halt_sim sound).1, rfl⟩
  | ok outcome =>
    obtain ⟨survivors, failed⟩ := outcome
    obtain ⟨survivorsWithin, failedWithin⟩ := within survivors failed rfl
    obtain ⟨sound', same'⟩ := complete_sim
      (p := { q with threads := survivors.toList }) ⟨sound, survivorsWithin⟩ eof failedWithin
    have start : { q.weave with strands := survivors.toList.map (Thread.strand q.store) } =
        Parser.weave { q with threads := survivors.toList } := rfl
    have failures : q.failures failed =
        Parser.failures { q with threads := survivors.toList } failed := rfl
    simp only [Except.map]
    rw [start, failures, same']
    generalize Parser.complete _ eof failed = r at *
    obtain ⟨outcome, q'⟩ := r
    cases outcome with
    | error e => exact ⟨(halt_sim sound').1, rfl⟩
    | ok failed =>
      have results : q'.weave.results.isEmpty = q'.results.isEmpty := Array.isEmpty_toList
      simp only [Except.map, Weave.countNodes, countNodes, results]
      have ended : ∀ t ∈ ([] : List Thread), t.Within q'.store :=
        fun _ mem => absurd mem List.not_mem_nil
      by_cases none : q'.results.isEmpty = true
      · simp only [none, ↓reduceIte]
        exact ⟨⟨sound', ended⟩, rfl⟩
      · simp only [none, Bool.false_eq_true, ↓reduceIte]
        exact ⟨⟨sound', ended⟩, rfl⟩

theorem finish_sim (h : p.Sound) :
    p.finish.2.Sound ∧ p.weave.finish = (p.finish.1, p.finish.2.weave) := by
  have same : p.weave.isRunning = p.isRunning := rfl
  simp only [finish, Weave.finish, same]
  split
  · exact finishAt_sim h _
  · exact ⟨h, rfl⟩

/-- Compaction does not show in the weave. -/
theorem compact_sim (h : p.Sound) : p.compact.Sound ∧ p.compact.weave = p.weave := by
  obtain ⟨sound, within⟩ := h
  have root : ∀ t ∈ p.threads, t.step.node ∈ p.threads.flatMap Thread.roots := by
    intro t mem
    refine List.mem_flatMap.mpr ⟨t, mem, ?_⟩
    cases step : t.step <;> simp only [Thread.roots, step, Step.node, List.mem_cons, true_or]
  have moved : ∀ t ∈ p.threads, p.compact.store.frames
      ((p.store.compact (p.threads.flatMap Thread.roots)).2 t.step.node) =
        p.store.frames t.step.node :=
    fun t mem => Store.frames_compact p.store _ sound (root t mem) (within t mem)
  have strand : ∀ t ∈ p.threads, Thread.strand p.compact.store
      (t.rename (p.store.compact (p.threads.flatMap Thread.roots)).2) = t.strand p.store := by
    intro t mem
    have same := moved t mem
    obtain ⟨step, guards, fresh⟩ := t
    cases step with
    | next m node => exact congrArg (fun frames => Strand.mk (.next m frames) _) same
    | done node => exact congrArg (fun frames => Strand.mk (.done frames) _) same
  refine ⟨⟨Store.compact_sound p.store _ sound, ?_⟩, ?_⟩
  · intro t mem
    obtain ⟨u, memU, rfl⟩ := List.mem_map.mp mem
    have frames : p.store.frames u.step.node ≠ [] := by
      obtain ⟨n, found⟩ := Store.exists_node (within u memU)
      rw [Store.frames_eq sound found]
      exact List.cons_ne_nil _ _
    rw [← moved u memU] at frames
    have inside := Store.lt_size_of_frames frames
    obtain ⟨step, guards, fresh⟩ := u
    cases step <;> exact inside
  · have strands : p.compact.threads.map (Thread.strand p.compact.store) =
        p.threads.map (Thread.strand p.store) := by
      simp only [compact, List.map_map]
      exact List.map_congr_left strand
    simp only [weave, strands]
    rfl

def feedUnder (due : Parser → Bool) (p : Parser) (token : Token) : Option ParseError × Parser :=
  if !p.isRunning then (none, p)
  else if token.isEof then p.finishAt token
  else
    match p.take token with
    | (some e, p) => (some e, p)
    | (none, p) => (none, if due p then p.compact else p)

theorem feedUnder_sim (h : p.Sound) (due : Parser → Bool) (token : Token) :
    (p.feedUnder due token).2.Sound ∧
      p.weave.feed token = ((p.feedUnder due token).1, (p.feedUnder due token).2.weave) := by
  have running : p.weave.isRunning = p.isRunning := rfl
  simp only [feedUnder, Weave.feed, running]
  split
  · exact ⟨h, rfl⟩
  · split
    · exact finishAt_sim h token
    · obtain ⟨sound, same⟩ := take_sim h token
      rw [same]
      generalize p.take token = r at sound
      obtain ⟨error?, q⟩ := r
      cases error? with
      | some e => exact ⟨sound, rfl⟩
      | none =>
        simp only
        split
        · obtain ⟨sound', same'⟩ := compact_sim sound
          exact ⟨sound', by rw [same']⟩
        · exact ⟨sound, rfl⟩

theorem feed_sim (h : p.Sound) (token : Token) :
    (p.feed token).2.Sound ∧
      p.weave.feed token = ((p.feed token).1, (p.feed token).2.weave) :=
  feedUnder_sim h isCompactionDue token

def feedAll (p : Parser) : List Token → Option ParseError × Parser
  | [] => (none, p)
  | token :: tokens =>
    match p.feed token with
    | (some e, p) => (some e, p)
    | (none, p) => p.feedAll tokens

theorem feedAll_sim (h : p.Sound) (tokens : List Token) :
    (p.feedAll tokens).2.Sound ∧
      p.weave.feedAll tokens = ((p.feedAll tokens).1, (p.feedAll tokens).2.weave) := by
  induction tokens generalizing p with
  | nil => exact ⟨h, rfl⟩
  | cons token tokens ih =>
    obtain ⟨sound, same⟩ := feed_sim h token
    simp only [feedAll, Weave.feedAll]
    rw [same]
    generalize p.feed token = r at sound
    obtain ⟨error?, q⟩ := r
    cases error? with
    | some e => exact ⟨sound, rfl⟩
    | none => exact ih sound

end Parser

end Lockstep
