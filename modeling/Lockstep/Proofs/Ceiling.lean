import Lockstep.Proofs.Termination

set_option autoImplicit false

namespace Lockstep

namespace Ready

def wantsToken (r : Ready) : Bool :=
  match r.goal with
  | .token _ => true
  | .accepted => false

def Capped (ceiling : Nat) (ready : List Ready) : Prop :=
  ∀ r ∈ ready.drop ceiling, r.goal = .accepted

variable {ceiling : Nat} {ready : List Ready}

theorem capped_nil (ceiling : Nat) : Capped ceiling [] := by
  intro r mem
  rw [List.drop_nil] at mem
  cases mem

theorem Capped.push (h : Capped ceiling ready) {r : Ready}
    (room : r.goal = .accepted ∨ ready.length < ceiling) : Capped ceiling (ready ++ [r]) := by
  intro x mem
  rw [List.drop_append] at mem
  rcases List.mem_append.mp mem with old | new
  · exact h x old
  · rcases room with accepted | below
    · rw [List.mem_singleton.mp (List.mem_of_mem_drop new)]
      exact accepted
    · rw [List.drop_eq_nil_of_le (Nat.sub_pos_of_lt below)] at new
      cases new

/-- At most as many threads want a token as the ceiling allows. -/
theorem Capped.countP_le (h : Capped ceiling ready) : ready.countP wantsToken ≤ ceiling := by
  have past : (ready.drop ceiling).countP wantsToken = 0 := by
    refine List.countP_eq_zero.mpr ?_
    intro r mem
    simp only [wantsToken, h r mem, Bool.false_eq_true, not_false_eq_true]
  calc ready.countP wantsToken
      = (ready.take ceiling).countP wantsToken + (ready.drop ceiling).countP wantsToken := by
        rw [← List.countP_append, List.take_append_drop]
    _ ≤ (ready.take ceiling).length := by
        rw [past, Nat.add_zero]
        exact List.countP_le_length
    _ ≤ ceiling := List.length_take_le _ _

end Ready

theorem Phase.resolve_capped (p : Phase) {budget : Nat} {work : List Thread}
    {ready ready' : Array Ready} {store : Store} {branches : Nat}
    (capped : Ready.Capped p.limits.maxThreads ready.toList)
    (ok : (p.resolve budget work ready store branches).outcome = .ok ready') :
    Ready.Capped p.limits.maxThreads ready'.toList := by
  induction budget generalizing work ready store branches with
  | zero =>
    cases work with
    | nil =>
      cases ok
      exact capped
    | cons t work => cases ok
  | succ budget ih =>
    cases work with
    | nil =>
      cases ok
      exact capped
    | cons t work =>
      simp only [resolve] at ok
      generalize t.expand p.grammar p.marker store = expansion at ok
      obtain ⟨e, store'⟩ := expansion
      cases e with
      | ready r =>
        have pushed : r.goal = .accepted ∨ ready.size < p.limits.maxThreads →
            Ready.Capped p.limits.maxThreads (ready.push r).toList := by
          rw [Array.toList_push]
          exact capped.push
        cases goal : r.goal with
        | accepted =>
          simp only [goal] at ok
          exact ih (pushed (.inl goal)) ok
        | token spec =>
          simp only [goal] at ok
          split at ok
          · next room => exact ih (pushed (.inr room)) ok
          · cases ok
      | moved u => exact ih capped ok
      | split us => exact ih capped ok
      | unknown name => cases ok

namespace Tally

theorem size_survivors_meet (token : Token) (last : Position) (t : Tally) (r : Ready) :
    (meet token last t r).survivors.size ≤ t.survivors.size + (if r.wantsToken then 1 else 0) := by
  obtain ⟨store, survivors, failed, results⟩ := t
  cases goal : r.goal with
  | accepted =>
    simp only [meet, goal]
    split
    · split <;> exact Nat.le_add_right _ _
    · exact Nat.le_add_right _ _
  | token spec =>
    have wants : r.wantsToken = true := by simp only [Ready.wantsToken, goal]
    simp only [meet, goal, wants, ↓reduceIte]
    split
    · split
      · exact Nat.le_succ _
      · exact Nat.le_of_eq (Array.size_push _)
    · exact Nat.le_succ _

theorem size_survivors_foldl (token : Token) (last : Position) (ready : List Ready) (t : Tally) :
    (ready.foldl (meet token last) t).survivors.size ≤
      t.survivors.size + ready.countP Ready.wantsToken := by
  induction ready generalizing t with
  | nil => exact Nat.le_refl _
  | cons r ready ih =>
    have met := size_survivors_meet token last t r
    have rest := ih (meet token last t r)
    rw [List.foldl_cons, List.countP_cons]
    omega

end Tally

namespace Parser

variable {g : Grammar} {limits : Limits} {p : Parser} {token : Token}

theorem resolve_capped {ready : Array Ready} (ok : (p.resolve token).1 = .ok ready) :
    Ready.Capped p.limits.maxThreads ready.toList := by
  rw [resolve_fst] at ok
  exact (p.phase token).resolve_capped (Ready.capped_nil _) ok

/-- The peak is the most threads that have ever come to wait at once. -/
theorem resolve_peak {ready : Array Ready} (ok : (p.resolve token).1 = .ok ready) :
    (p.resolve token).2.metrics.peakThreads = max p.metrics.peakThreads ready.size := by
  simp only [resolve] at ok ⊢
  split at ok
  · cases ok
  · cases ok
    rfl

theorem consume_capped {survivors : Array Thread} {failed : Array Failed} {q : Parser}
    (ok : p.consume token = (.ok (survivors, failed), q)) :
    survivors.size ≤ p.limits.maxThreads := by
  simp only [consume] at ok
  cases resolved : p.resolve token with
  | mk outcome q' =>
    rw [resolved] at ok
    cases outcome with
    | error e => cases ok
    | ok ready =>
      cases ok
      have capped : Ready.Capped p.limits.maxThreads ready.toList :=
        resolve_capped (congrArg Prod.fst resolved)
      have few := Tally.size_survivors_foldl token q'.last.endPoint ready.toList
        ⟨q'.store, #[], #[], q'.results⟩
      rw [Array.foldl_toList, Array.size_empty, Nat.zero_add] at few
      exact Nat.le_trans few capped.countP_le

theorem take_capped (p : Parser) (token : Token) :
    (p.take token).2.threads.length ≤ p.limits.maxThreads := by
  simp only [take]
  cases consumed : p.consume token with
  | mk outcome q =>
    cases outcome with
    | error e => exact Nat.zero_le _
    | ok outcome =>
      obtain ⟨survivors, failed⟩ := outcome
      have few : survivors.toList.length ≤ p.limits.maxThreads := consume_capped consumed
      simp only
      split
      · exact few
      · exact few

theorem finishAt_threads (p : Parser) (eof : Token) : (p.finishAt eof).2.threads = [] := by
  simp only [finishAt]
  split
  · rfl
  · split
    · rfl
    · split <;> rfl

theorem feed_capped (runs : p.isRunning = true) (token : Token) :
    (p.feed token).2.threads.length ≤ p.limits.maxThreads := by
  have few := p.take_capped token
  rw [feed_of_running runs]
  split
  · rw [finishAt_threads]
    exact Nat.zero_le _
  · generalize p.take token = r at few
    obtain ⟨error?, q⟩ := r
    cases error? with
    | some e => exact few
    | none =>
      simp only
      split
      · simp only [compact, List.length_map]
        exact few
      · exact few

def Rests (p : Parser) : Prop := p.isRunning = false → p.threads = []

theorem rests_finishAt (p : Parser) (eof : Token) : (p.finishAt eof).2.Rests :=
  fun _ => finishAt_threads p eof

theorem rests_take (runs : p.isRunning = true) (token : Token) : (p.take token).2.Rests := by
  have status := (p.consume_keeps token).1
  simp only [take]
  generalize p.consume token = r at status
  obtain ⟨outcome, q⟩ := r
  have goes : q.isRunning = true := by
    rw [isRunning, status]
    exact runs
  cases outcome with
  | error e => exact fun _ => rfl
  | ok outcome =>
    obtain ⟨survivors, failed⟩ := outcome
    simp only
    split
    · next none =>
      have none : survivors.toList.isEmpty = true := Array.isEmpty_toList.trans none
      exact fun _ => List.isEmpty_iff.mp none
    · exact fun stopped => Bool.noConfusion (goes.symm.trans stopped)

theorem Rests.feed (h : p.Rests) (token : Token) : (p.feed token).2.Rests := by
  cases runs : p.isRunning with
  | false =>
    rw [feed_of_stopped runs]
    exact h
  | true =>
    have took := rests_take runs token
    rw [feed_of_running runs]
    split
    · exact rests_finishAt p token
    · generalize p.take token = r at took
      obtain ⟨error?, q⟩ := r
      cases error? with
      | some e => exact took
      | none =>
        simp only
        split
        · intro stopped
          have none : q.threads = [] := took stopped
          simp only [compact, none, List.map_nil]
        · exact took

theorem Rests.finish (h : p.Rests) : p.finish.2.Rests := by
  simp only [Parser.finish]
  split
  · exact rests_finishAt p _
  · exact h

theorem Reachable.rests {allowed : Pattern → Prop} {clean : Bool}
    (h : Reachable allowed g limits clean p) : p.Rests := by
  induction h with
  | fresh => exact fun _ => rfl
  | setup => exact fun stopped => nomatch stopped
  | feed _ token ih => exact ih.feed token
  | finish _ ih => exact ih.finish
  | parse _ s ih =>
    exact parse_keeps (fun _ token h => h.feed token) (fun _ h => h.finish) (fun _ _ _ => rfl) ih s

theorem Resolves.limits_eq {q : Parser} (phase : p.Resolves token q) : q.limits = p.limits := by
  cases phase with
  | first => rfl
  | closing ended met any =>
    have kept : (p.consume token).2.IsFor p.grammar p.limits := IsFor.consume ⟨rfl, rfl⟩ token
    rw [met] at kept
    exact kept.2

/-- In every phase that ends well, the threads past the ceiling are accepted, whatever the grammar.
So no more threads than the ceiling allows come to wait for a token, or live on after one; only the
peak, which counts all of them, may be higher, and only at a token where some are accepted. -/
theorem only_accepted_pass_the_ceiling {allowed : Pattern → Prop} {clean : Bool}
    (reachable : Reachable allowed g limits clean p) (token : Token) :
    (p.feed token).2.threads.length ≤ limits.maxThreads ∧
      ∀ q ready, p.Resolves token q → (q.resolve token).1 = .ok ready →
        (q.resolve token).2.metrics.peakThreads = max q.metrics.peakThreads ready.size ∧
        Ready.Capped limits.maxThreads ready.toList ∧
        ready.toList.countP Ready.wantsToken ≤ limits.maxThreads := by
  obtain rfl : p.limits = limits := reachable.isFor.2
  refine ⟨?_, ?_⟩
  · cases runs : p.isRunning with
    | true => exact feed_capped runs token
    | false =>
      rw [feed_of_stopped runs, reachable.rests runs]
      exact Nat.zero_le _
  · intro q ready phase ok
    have capped := resolve_capped ok
    rw [phase.limits_eq] at capped
    exact ⟨resolve_peak ok, capped, capped.countP_le⟩

def anyWords : Pattern := .list Builder.wordPattern none []

def anyWordsGrammar : Grammar := ⟨["main"], [("main", anyWords)], [], some "main"⟩

def narrowStart : Parser :=
  (ofGrammar anyWordsGrammar { maxThreads := 1 }).setup anyWords .detached

/-- A word may come or the list may end here, so two threads wait where one is allowed. Only the one
that takes the word lives on. -/
theorem one_word_below_the_ceiling :
    Reachable (fun _ => True) anyWordsGrammar { maxThreads := 1 } true narrowStart ∧
      (narrowStart.feed wordA).2.threads.length ≤ 1 ∧ (narrowStart.feed wordA).2.threads ≠ [] := by
  have reachable : Reachable (fun _ => True) anyWordsGrammar { maxThreads := 1 } true narrowStart :=
    .setup .fresh trivial .detached
  obtain ⟨few, -⟩ := only_accepted_pass_the_ceiling reachable wordA
  refine ⟨reachable, few, ?_⟩
  have alive : (narrowStart.feed wordA).2.threads.isEmpty = false := by decide +kernel
  exact List.isEmpty_eq_false_iff.mp alive

/-- The peak passes the ceiling, and no call gives an error. -/
theorem peak_passes_the_ceiling :
    (narrowStart.feed wordA).1 = none ∧
      ¬ (narrowStart.feed wordA).2.metrics.peakThreads ≤ narrowStart.limits.maxThreads := by
  decide +kernel

end Parser

end Lockstep
