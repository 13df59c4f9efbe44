import Lockstep.Proofs.Session
import Lockstep.Proofs.Store.Unbuilt

set_option autoImplicit false

/-!
No slot is left unbuilt for longer than one token. A parse is followed from moment to moment: threads
are expanded one by one, then those that wait meet the token one by one, and in between the store may
be compacted. At every moment each thread lists exactly the slots that it has deferred since it last
took a token, and it sees no others that are not built. So when it takes the next token, all that it
saw before is built, and slots never stand one inside the other deeper than they were deferred since.
-/

namespace Lockstep

/-- A parse at one moment. With each thread stand the places of the slots that it has deferred since
it last took a token. -/
structure Moment where
  store : Store
  work : List (Thread × List Nat)
  waiting : List (Ready × List Nat)
  taken : List (Thread × List Nat)

def Tally.start (s : Store) : Tally := ⟨s, #[], #[], #[]⟩

namespace Moment

/-- What comes after a moment. What a thread defers is told from the store: the slots that are not
built among the nodes that its step has made. -/
inductive Next (g : Grammar) (m : Moment) : Moment → Prop where
  | waits {t : Thread} {made : List Nat} {work : List (Thread × List Nat)} {marker : Capture}
      {r : Ready} {s : Store} (first : m.work = (t, made) :: work)
      (h : t.expand g marker m.store = (.ready r, s)) :
    Next g m { m with
      store := s, work, waiting := m.waiting ++ [(r, s.unbuiltFrom m.store.size ++ made)] }
  | moves {t : Thread} {made : List Nat} {work : List (Thread × List Nat)} {marker : Capture}
      {u : Thread} {s : Store} (first : m.work = (t, made) :: work)
      (h : t.expand g marker m.store = (.moved u, s)) :
    Next g m { m with store := s, work := (u, s.unbuiltFrom m.store.size ++ made) :: work }
  | splits {t : Thread} {made : List Nat} {work : List (Thread × List Nat)} {marker : Capture}
      {us : List Thread} {s : Store} (first : m.work = (t, made) :: work)
      (h : t.expand g marker m.store = (.split us, s)) :
    Next g m { m with
      store := s, work := us.map (·, s.unbuiltFrom m.store.size ++ made) ++ work }
  /-- A thread meets the token. If it takes it, what it had deferred before no longer counts. -/
  | meets {r : Ready} {made : List Nat} {waiting : List (Ready × List Nat)} (token : Token)
      (last : Position) {met : Tally} (expanded : m.work = []) (first : m.waiting = (r, made) :: waiting)
      (h : (Tally.start m.store).meet token last r = met) :
    Next g m { m with
      store := met.store, waiting
      taken := m.taken ++ met.survivors.toList.map (·, met.store.unbuiltFrom m.store.size) }
  | closes {r : Ready} {made : List Nat} {waiting : List (Ready × List Nat)} (eof : Token)
      (last : Position) {met : Tally} (expanded : m.work = []) (first : m.waiting = (r, made) :: waiting)
      (h : (Tally.start m.store).close eof last r = met) :
    Next g m { m with store := met.store, waiting }
  | turns (expanded : m.work = []) (met : m.waiting = []) : Next g m ⟨m.store, m.taken, [], []⟩
  | compacts {s : Store} {place : Nat → Nat} (met : m.waiting = []) (turned : m.taken = [])
      (h : m.store.compact ((m.work.map Prod.fst).flatMap Thread.roots) = (s, place)) :
    Next g m { m with
      store := s, work := m.work.map fun x => (x.1.rename place, x.2.map place) }

inductive Reached (g : Grammar) : Moment → Prop where
  | setup (p : Parser) (pattern : Pattern) (start : Position) :
    Reached g ⟨(p.setup pattern start).store, (p.setup pattern start).threads.map (·, []), [], []⟩
  | next {m m' : Moment} (h : Reached g m) (step : m.Next g m') : Reached g m'

structure Each (holds : Store → Nat → List Nat → List Nat → Prop) (m : Moment) : Prop where
  work : ∀ x ∈ m.work, holds m.store x.1.step.node x.1.fresh x.2
  waiting : ∀ x ∈ m.waiting, holds m.store x.1.node x.1.fresh x.2
  taken : ∀ x ∈ m.taken, holds m.store x.1.step.node x.1.fresh x.2

structure Sound (m : Moment) : Prop where
  store : m.store.Sound
  owes : m.Each Store.Owes

end Moment

variable {g : Grammar} {s s' : Store} {made : List Nat}

def Expansion.Owes (s : Store) (made : List Nat) : Expansion → Prop
  | .ready r => s.Owes r.node r.fresh made
  | .moved t => s.Owes t.step.node t.fresh made
  | .split ts => ∀ t ∈ ts, s.Owes t.step.node t.fresh made
  | .unknown _ => True

theorem Thread.node_mem_roots (t : Thread) : t.step.node ∈ t.roots := by
  obtain ⟨step, guards, fresh⟩ := t
  cases step <;> exact List.mem_cons_self

theorem Thread.node_rename (t : Thread) (f : Nat → Nat) : (t.rename f).step.node = f t.step.node := by
  obtain ⟨step, guards, fresh⟩ := t
  cases step <;> rfl

theorem Thread.expand_owes (g : Grammar) (marker : Capture) (sound : s.Sound) {t : Thread}
    (owes : s.Owes t.step.node t.fresh made) :
    let r := t.expand g marker s
    s.Eases r.2 ∧ r.1.Owes r.2 (r.2.unbuiltFrom s.size ++ made) := by
  obtain ⟨step, guards, fresh⟩ := t
  have still : s.Owes step.node fresh (s.unbuiltFrom s.size ++ made) := by
    rw [Store.unbuiltFrom_size]
    exact owes
  cases step with
  | done node => exact ⟨.refl sound, still⟩
  | next m node =>
    cases m with
    | token spec gs => exact ⟨.refl sound, still⟩
    | nothing gs => exact Store.advance_owes sound owes marker
    | sequence name? parts build gs =>
      have lists := Store.lists_enter sound owes.inside owes.lists ⟨name?, parts, build⟩
      have eases := Store.enter_eases sound ⟨name?, parts, build⟩ fun p same =>
        (Option.some.inj same : node = p) ▸ owes.inside
      exact Store.settle_push_owes eases ⟨by rw [Store.size_push]; exact Nat.lt_succ_self _, lists,
        owes.fresh_eq⟩ rfl
    | branch options gs =>
      refine ⟨.refl sound, fun u mem => ?_⟩
      obtain ⟨option, -, rfl⟩ := List.mem_map.mp mem
      exact still
    | rule | list | tail =>
      simp only [expand]
      split
      · exact ⟨.refl sound, still⟩
      · exact ⟨.refl sound, trivial⟩

namespace Tally

/-- A thread that takes the token has its slots forced first, so it owes only what it defers then. -/
theorem meet_owes (sound : s.Sound) {r : Ready} (owes : s.Owes r.node r.fresh made) (token : Token)
    (last : Position) :
    let met := (start s).meet token last r
    s.Eases met.store ∧ ∀ t ∈ met.survivors.toList,
      met.store.Owes t.step.node t.fresh (met.store.unbuiltFrom s.size) := by
  have none : ∀ t ∈ (#[] : Array Thread).toList, s.Owes t.step.node t.fresh (s.unbuiltFrom s.size) :=
    List.forall_mem_nil _
  simp only [start, meet]
  cases r.goal with
  | accepted =>
    simp only
    split
    · split <;> exact ⟨.refl sound, none⟩
    · exact ⟨.refl sound, none⟩
  | token spec =>
    simp only
    split
    · split
      · exact ⟨.refl sound, none⟩
      · obtain ⟨forced, nothing⟩ := Store.forceAll_owes sound owes
        obtain ⟨advanced, owed⟩ :=
          Store.advance_owes forced.follows.sound nothing (.token token)
        rw [Store.size_forceAll, List.append_nil] at owed
        refine ⟨forced.trans advanced, fun t mem => ?_⟩
        rw [List.mem_singleton.mp mem]
        exact owed
    · exact ⟨.refl sound, none⟩

theorem store_close (eof : Token) (last : Position) (t : Tally) (r : Ready) :
    (t.close eof last r).store = t.store := by
  rw [close]
  cases r.goal with
  | accepted =>
    simp only
    split <;> rfl
  | token spec => rfl

theorem meet_eq (token : Token) (last : Position) (t : Tally) (r : Ready) :
    (t.meet token last r).store = ((start t.store).meet token last r).store ∧
      (t.meet token last r).survivors.toList =
        t.survivors.toList ++ ((start t.store).meet token last r).survivors.toList := by
  simp only [start, meet]
  cases r.goal with
  | accepted =>
    simp only
    split
    · split <;> exact ⟨rfl, (List.append_nil _).symm⟩
    · exact ⟨rfl, (List.append_nil _).symm⟩
  | token spec =>
    simp only
    split
    · split
      · exact ⟨rfl, (List.append_nil _).symm⟩
      · exact ⟨rfl, Array.toList_push⟩
    · exact ⟨rfl, (List.append_nil _).symm⟩

end Tally

namespace Moment

variable {m m' : Moment}

theorem Each.eased (h : m.Each Store.Owes) (eases : m.store.Eases s) :
    Each Store.Owes { m with store := s } :=
  ⟨fun x mem => eases.owes (h.work x mem), fun x mem => eases.owes (h.waiting x mem),
    fun x mem => eases.owes (h.taken x mem)⟩

/-- When the first thread has been expanded, the others owe what they did. -/
theorem Sound.expanded (h : m.Sound) {t : Thread} {work : List (Thread × List Nat)} {marker : Capture}
    {e : Expansion} (first : m.work = (t, made) :: work) (expands : t.expand g marker m.store = (e, s)) :
    s.Sound ∧ e.Owes s (s.unbuiltFrom m.store.size ++ made) ∧
      Each Store.Owes { m with store := s, work } := by
  obtain ⟨here, rest⟩ := List.forall_mem_cons.mp (first ▸ h.owes.work)
  have expanded := t.expand_owes g marker h.store here
  rw [expands] at expanded
  obtain ⟨eases, owed⟩ := expanded
  have all : Each Store.Owes { m with work } := ⟨rest, h.owes.waiting, h.owes.taken⟩
  exact ⟨eases.follows.sound, owed, all.eased eases⟩

theorem Next.sound (step : m.Next g m') (h : m.Sound) : m'.Sound := by
  cases step with
  | waits first expands =>
    obtain ⟨sound, owed, work, waiting, taken⟩ := h.expanded first expands
    exact ⟨sound, work, List.forall_mem_append.mpr ⟨waiting, List.forall_mem_singleton.mpr owed⟩, taken⟩
  | moves first expands =>
    obtain ⟨sound, owed, work, waiting, taken⟩ := h.expanded first expands
    exact ⟨sound, List.forall_mem_cons.mpr ⟨owed, work⟩, waiting, taken⟩
  | splits first expands =>
    obtain ⟨sound, owed, work, waiting, taken⟩ := h.expanded first expands
    exact ⟨sound, List.forall_mem_append.mpr ⟨List.forall_mem_map.mpr owed, work⟩, waiting, taken⟩
  | @meets r made waiting token last met expanded first meets =>
    -- The slots that are forced may be shared with the others, which then owe no more than before.
    subst meets
    obtain ⟨here, rest⟩ := List.forall_mem_cons.mp (first ▸ h.owes.waiting)
    obtain ⟨eases, owed⟩ := Tally.meet_owes h.store here token last
    have others : Each Store.Owes { m with waiting } := ⟨h.owes.work, rest, h.owes.taken⟩
    obtain ⟨work, waiting, taken⟩ := others.eased eases
    exact ⟨eases.follows.sound, work, waiting,
      List.forall_mem_append.mpr ⟨taken, List.forall_mem_map.mpr owed⟩⟩
  | closes eof last expanded first closes =>
    subst closes
    obtain ⟨-, rest⟩ := List.forall_mem_cons.mp (first ▸ h.owes.waiting)
    rw [Tally.store_close]
    exact ⟨h.store, h.owes.work, rest, h.owes.taken⟩
  | turns expanded met =>
    exact ⟨h.store, h.owes.taken, List.forall_mem_nil _, List.forall_mem_nil _⟩
  | compacts met turned compacts =>
    obtain ⟨rfl, rfl⟩ := Prod.ext_iff.mp compacts
    refine ⟨Store.compact_sound _ _ h.store, List.forall_mem_map.mpr fun x mem => ?_,
      met ▸ List.forall_mem_nil _, turned ▸ List.forall_mem_nil _⟩
    have root : x.1.step.node ∈ (m.work.map Prod.fst).flatMap Thread.roots :=
      List.mem_flatMap.mpr ⟨x.1, List.mem_map_of_mem mem, x.1.node_mem_roots⟩
    rw [Thread.node_rename]
    exact Store.compact_owes h.store (h.owes.work x mem) root

theorem Reached.sound (h : Reached g m) : m.Sound := by
  induction h with
  | setup p pattern start =>
    obtain ⟨⟨sound, within⟩, -⟩ := Parser.setup_sim p pattern start
    refine ⟨sound, List.forall_mem_map.mpr fun t mem => ⟨within t mem, ?_, ?_⟩,
      List.forall_mem_nil _, List.forall_mem_nil _⟩
    · -- The only node has no slot.
      intro id sees unbuilt
      rw [List.mem_singleton.mp mem] at sees
      obtain rfl : id = 0 := Nat.le_zero.mp (sees.le sound)
      cases unbuilt
    · rw [List.mem_singleton.mp mem]
  | next _ step ih => exact step.sound ih

end Moment

theorem Phase.resolve_reached (p : Phase) (budget : Nat) {work : List (Thread × List Nat)}
    {waiting : List (Ready × List Nat)} {ready ready' : Array Ready} (branches : Nat)
    (reached : Moment.Reached p.grammar ⟨s, work, waiting, []⟩) (same : waiting.map Prod.fst = ready.toList)
    (ok : (p.resolve budget (work.map Prod.fst) ready s branches).outcome = .ok ready') :
    ∃ waiting', waiting'.map Prod.fst = ready'.toList ∧ Moment.Reached p.grammar
      ⟨(p.resolve budget (work.map Prod.fst) ready s branches).store, [], waiting', []⟩ := by
  -- Each round is one step, and the steps carry along what the threads have deferred.
  induction budget generalizing work waiting ready s branches with
  | zero =>
    cases work with
    | nil =>
      cases ok
      exact ⟨waiting, same, reached⟩
    | cons x work => cases ok
  | succ budget ih =>
    cases work with
    | nil =>
      cases ok
      exact ⟨waiting, same, reached⟩
    | cons x work =>
      obtain ⟨t, made⟩ := x
      rw [List.map_cons, resolve] at ok ⊢
      cases expands : t.expand p.grammar p.marker s with
      | mk e s' =>
        rw [expands] at ok
        cases e with
        | ready r =>
          have waits := reached.next (.waits rfl expands)
          have pushed : (waiting ++ [(r, s'.unbuiltFrom s.size ++ made)]).map Prod.fst =
              (ready.push r).toList := by
            rw [List.map_append, same, Array.toList_push, List.map_singleton]
          cases goal : r.goal with
          | accepted =>
            simp only [goal] at ok ⊢
            exact ih branches waits pushed ok
          | token spec =>
            simp only [goal] at ok ⊢
            split at ok
            · next fits =>
              rw [if_pos fits]
              exact ih branches waits pushed ok
            · cases ok
        | moved u => exact ih branches (reached.next (.moves rfl expands)) same ok
        | split us =>
          have splits := reached.next (.splits rfl expands)
          have fronts : (us.map (·, s'.unbuiltFrom s.size ++ made) ++ work).map Prod.fst =
              us ++ work.map Prod.fst := by
            rw [List.map_append, List.map_map]
            exact congrArg (· ++ _) (List.map_id us)
          simp only [← fronts] at ok ⊢
          exact ih (branches + 1) splits same ok
        | unknown name => cases ok

/-- Letting threads meet a token goes from moment to moment, and what those that take it have
deferred since is newer than all nodes that were there before. -/
theorem Tally.foldl_reached (token : Token) (last : Position) {waiting : List (Ready × List Nat)}
    {taken : List (Thread × List Nat)} {t : Tally} {first : Nat}
    (reached : Moment.Reached g ⟨t.store, [], waiting, taken⟩)
    (same : taken.map Prod.fst = t.survivors.toList) (older : first ≤ t.store.size)
    (newer : ∀ x ∈ taken, ∀ id ∈ x.2, first ≤ id) :
    let t' := (waiting.map Prod.fst).foldl (meet token last) t
    ∃ taken', taken'.map Prod.fst = t'.survivors.toList ∧ Moment.Reached g ⟨t'.store, [], [], taken'⟩ ∧
      ∀ x ∈ taken', ∀ id ∈ x.2, first ≤ id := by
  induction waiting generalizing t taken with
  | nil => exact ⟨taken, same, reached, newer⟩
  | cons x waiting ih =>
    obtain ⟨r, made⟩ := x
    have owed := reached.sound.owes.waiting (r, made) List.mem_cons_self
    obtain ⟨eases, -⟩ := meet_owes reached.sound.store owed token last
    obtain ⟨store, survivors⟩ := meet_eq token last t r
    have meets := reached.next (.meets token last rfl rfl rfl)
    rw [← store] at eases meets
    have grown := Nat.le_trans older eases.follows.size_le
    refine ih meets ?_ grown (List.forall_mem_append.mpr ⟨newer, List.forall_mem_map.mpr ?_⟩)
    · rw [List.map_append, same, survivors, List.map_map]
      exact congrArg (_ ++ ·) (List.map_id _)
    · exact fun _ _ id mem => Nat.le_trans older (Store.mem_unbuiltFrom mem)

namespace Parser

/-- The parser stands at a moment that parses come to, all its threads being still to be expanded. -/
def AtMoment (g : Grammar) (p : Parser) : Prop :=
  ∃ work, work.map Prod.fst = p.threads ∧ Moment.Reached g ⟨p.store, work, [], []⟩

variable {p : Parser}

theorem AtMoment.resolve (h : p.AtMoment p.grammar) (token : Token) {ready : Array Ready}
    (ok : (p.resolve token).1 = .ok ready) :
    ∃ waiting, waiting.map Prod.fst = ready.toList ∧
      Moment.Reached p.grammar ⟨(p.resolve token).2.store, [], waiting, []⟩ := by
  obtain ⟨work, same, reached⟩ := h
  simp only [Parser.resolve, Phase.resolveCached_fst, ← same] at ok ⊢
  split at ok
  · cases ok
  · next outcome =>
    cases ok
    have none : ([] : List (Ready × List Nat)).map Prod.fst = (#[] : Array Ready).toList := rfl
    exact Phase.resolve_reached _ _ _ reached none outcome

theorem AtMoment.consume (h : p.AtMoment p.grammar) (token : Token) {survivors : Array Thread}
    {failed : Array Failed} (ok : (p.consume token).1 = .ok (survivors, failed)) :
    ∃ taken, taken.map Prod.fst = survivors.toList ∧
      Moment.Reached p.grammar ⟨(p.consume token).2.store, [], [], taken⟩ ∧
      ∀ x ∈ taken, ∀ id ∈ x.2, (p.resolve token).2.store.size ≤ id := by
  have resolved := @AtMoment.resolve p h token
  rw [Parser.consume] at ok ⊢
  generalize p.resolve token = r at resolved ok
  obtain ⟨outcome, q⟩ := r
  cases outcome with
  | error e => cases ok
  | ok ready =>
    obtain ⟨waiting, same, reached⟩ := resolved rfl
    have met := Tally.foldl_reached token q.last.endPoint (t := ⟨q.store, #[], #[], q.results⟩)
      reached rfl (Nat.le_refl _) (List.forall_mem_nil _)
    rw [same, Array.foldl_toList] at met
    cases ok
    exact met

theorem AtMoment.take (h : p.AtMoment p.grammar) (token : Token) (ok : (p.take token).1 = none) :
    ∃ work, work.map Prod.fst = (p.take token).2.threads ∧
      Moment.Reached p.grammar ⟨(p.take token).2.store, work, [], []⟩ ∧
      ∀ x ∈ work, ∀ id ∈ x.2, (p.resolve token).2.store.size ≤ id := by
  have consumed := @AtMoment.consume p h token
  rw [Parser.take] at ok ⊢
  generalize p.consume token = r at consumed ok ⊢
  obtain ⟨outcome, q⟩ := r
  cases outcome with
  | error e => cases ok
  | ok outcome =>
    obtain ⟨taken, same, reached, newer⟩ := consumed rfl
    have turned := reached.next (.turns rfl rfl)
    refine ⟨taken, ?_, ?_, newer⟩
    · simp only
      split <;> exact same
    · simp only
      split <;> exact turned

theorem take_error_stops {token : Token} {e : ParseError} (failed : (p.take token).1 = some e) :
    (p.take token).2.isRunning = false ∧ (p.take token).2.threads = [] := by
  rw [take] at failed ⊢
  generalize p.consume token = r at failed ⊢
  obtain ⟨outcome, q⟩ := r
  cases outcome with
  | error e => exact ⟨rfl, rfl⟩
  | ok outcome => cases failed

theorem AtMoment.compact {g : Grammar} (h : p.AtMoment g) : p.compact.AtMoment g := by
  obtain ⟨work, same, reached⟩ := h
  have moved := reached.next (.compacts rfl rfl rfl)
  rw [same] at moved
  refine ⟨_, ?_, moved⟩
  change _ = p.threads.map (Thread.rename (p.store.compact (p.threads.flatMap Thread.roots)).2)
  rw [← same, List.map_map, List.map_map]
  rfl

variable {g : Grammar} {limits : Limits}

/-- What calls keep: as long as the parser runs, it stands at a moment that parses come to. -/
structure Follows (g : Grammar) (limits : Limits) (p : Parser) : Prop where
  isFor : p.IsFor g limits
  moment : p.isRunning = true → p.AtMoment g

theorem follows_of_stopped (isFor : p.IsFor g limits) (stopped : p.isRunning = false) :
    p.Follows g limits :=
  ⟨isFor, fun runs => absurd (stopped.symm.trans runs) Bool.false_ne_true⟩

theorem Follows.setup (h : p.Follows g limits) (pattern : Pattern) (start : Position) :
    (p.setup pattern start).Follows g limits := by
  refine ⟨h.isFor, fun _ => ⟨_, ?_, .setup p pattern start⟩⟩
  rw [List.map_map]
  exact List.map_id _

theorem Follows.finish (h : p.Follows g limits) : p.finish.2.Follows g limits :=
  follows_of_stopped h.isFor.finish p.finish_stops

theorem Follows.feed (h : p.Follows g limits) (token : Token) : (p.feed token).2.Follows g limits := by
  refine ⟨h.isFor.feed token, ?_⟩
  obtain ⟨⟨rfl, -⟩, moment⟩ := h
  rw [Parser.feed]
  split
  · exact moment
  · next runs =>
    split
    · exact fun running => absurd ((p.finishAt_stops token).symm.trans running) Bool.false_ne_true
    · rw [Bool.not_eq_true', Bool.not_eq_false] at runs
      have taken := (moment runs).take token
      have stops := @take_error_stops p token
      generalize p.take token = r at taken stops
      obtain ⟨error?, q⟩ := r
      cases error? with
      | some e => exact fun running => absurd ((stops rfl).1.symm.trans running) Bool.false_ne_true
      | none =>
        obtain ⟨work, same, reached, -⟩ := taken rfl
        have moment : q.AtMoment p.grammar := ⟨work, same, reached⟩
        simp only
        split
        · exact fun _ => moment.compact
        · exact fun _ => moment

variable {allowed : Pattern → Prop} {clean : Bool}

theorem Reachable.follows (h : Reachable allowed g limits clean p) : p.Follows g limits := by
  induction h with
  | fresh => exact follows_of_stopped ⟨rfl, rfl⟩ rfl
  | setup _ _ start ih => exact ih.setup _ start
  | feed _ token ih => exact ih.feed token
  | finish _ ih => exact ih.finish
  | parse _ s ih =>
    exact @parse_keeps _ _ _ (Follows g limits) (fun _ token h => h.feed token) (fun _ h => h.finish)
      (fun _ h => follows_of_stopped h.isFor rfl) ih s

/-- At a moment that parses come to, the threads list all slots that they see and that are not built,
and such slots stand in one another no deeper than their lists are long. -/
theorem AtMoment.lists {g : Grammar} (h : p.AtMoment g) : ∀ t ∈ p.threads,
    p.store.Lists t.step.node t.fresh ∧
      ∀ ids, p.store.Nested t.step.node ids → ids.length ≤ t.fresh.length := by
  obtain ⟨work, same, reached⟩ := h
  obtain ⟨sound, owes⟩ := reached.sound
  intro t mem
  rw [← same] at mem
  obtain ⟨x, memX, rfl⟩ := List.mem_map.mp mem
  have owed := owes.work x memX
  refine ⟨owed.lists, fun ids nested => ?_⟩
  rw [owed.fresh_eq]
  exact owed.length_nested_le sound nested

/-- A thread that has taken a token sees no slot that was there before and is not built. -/
theorem AtMoment.built_before (h : p.AtMoment p.grammar) (token : Token) :
    ∀ t ∈ (p.take token).2.threads, ∀ id < (p.resolve token).2.store.size,
      (p.take token).2.store.Sees [t.step.node] id → (p.take token).2.store.isUnbuilt id = false := by
  intro t mem id before sees
  cases error : (p.take token).1 with
  | some e =>
    rw [(take_error_stops error).2] at mem
    cases mem
  | none =>
    obtain ⟨work, same, reached, newer⟩ := h.take token error
    rw [← same] at mem
    obtain ⟨x, memX, rfl⟩ := List.mem_map.mp mem
    have owed := reached.sound.owes.work x memX
    refine Bool.eq_false_iff.mpr fun unbuilt => ?_
    have listed := owed.fresh_eq ▸ owed.lists id sees unbuilt
    exact Nat.not_lt_of_le (newer x memX id listed) before

/-- In parsers that run, threads list all slots not built yet that they see; these stand in one
another no deeper than they are many, and when a thread takes a token, all that it saw before is
built. The parser stands at a moment that parses come to. At each such moment, be it between tokens,
amid expanding or amid meeting a token, each thread lists exactly what it has deferred since it last
took a token, and sees no other slot that is not built. -/
theorem no_slot_outlives_a_token (allowed : Pattern → Prop) (g : Grammar) (limits : Limits) :
    (∀ clean p, Reachable allowed g limits clean p → p.isRunning = true →
      p.AtMoment g ∧
      (∀ t ∈ p.threads, p.store.Lists t.step.node t.fresh ∧
        ∀ ids, p.store.Nested t.step.node ids → ids.length ≤ t.fresh.length) ∧
      ∀ token, ∀ t ∈ (p.take token).2.threads, ∀ id < (p.resolve token).2.store.size,
        (p.take token).2.store.Sees [t.step.node] id →
          (p.take token).2.store.isUnbuilt id = false) ∧
    ∀ m : Moment, m.Reached g →
      m.Each (fun s node fresh made => s.Lists node fresh ∧ fresh = made ∧
        ∀ ids, s.Nested node ids → ids.length ≤ made.length) ∧
      ∀ r made waiting, m.work = [] → m.waiting = (r, made) :: waiting → ∀ token last,
        let met := (Tally.start m.store).meet token last r
        ∀ t ∈ met.survivors.toList, ∀ id < m.store.size,
          met.store.Sees [t.step.node] id → met.store.isUnbuilt id = false := by
  refine ⟨fun clean p reachable runs => ?_, fun m reached => ?_⟩
  · obtain ⟨⟨rfl, -⟩, follows⟩ := reachable.follows
    have moment := follows runs
    exact ⟨moment, moment.lists, moment.built_before⟩
  · obtain ⟨sound, owes⟩ := reached.sound
    have each : ∀ {node : Nat} {fresh made : List Nat}, m.store.Owes node fresh made →
        m.store.Lists node fresh ∧ fresh = made ∧
          ∀ ids, m.store.Nested node ids → ids.length ≤ made.length := fun owed =>
      ⟨owed.lists, owed.fresh_eq, fun _ nested => owed.length_nested_le sound nested⟩
    refine ⟨⟨fun x mem => each (owes.work x mem), fun x mem => each (owes.waiting x mem),
      fun x mem => each (owes.taken x mem)⟩, ?_⟩
    intro r made waiting _ first token last met t mem id before sees
    have owed := owes.waiting (r, made) (first ▸ List.mem_cons_self)
    obtain ⟨-, taken⟩ := Tally.meet_owes sound owed token last
    obtain ⟨-, lists, fresh_eq⟩ := taken t mem
    refine Bool.eq_false_iff.mpr fun unbuilt => ?_
    have listed := fresh_eq ▸ lists id sees unbuilt
    exact Nat.not_lt_of_le (Store.mem_unbuiltFrom listed) before

open Builder (wordsGrammar wordPattern)

def pairThenWord : Pattern :=
  .sequence 0 none [.sequence 0 none [wordPattern, wordPattern] .listOf [], wordPattern] .listOf []

def afterPair : Parser :=
  ((((ofGrammar wordsGrammar {}).setup pairThenWord .detached).feed wordA).2.feed wordA).2

theorem pair_is_built_at_the_next_word :
    afterPair.threads.map Thread.fresh = [[5]] ∧ afterPair.store.isUnbuilt 5 = true ∧
      (∀ t ∈ afterPair.threads, afterPair.store.Lists t.step.node t.fresh) ∧
      (afterPair.take wordA).2.threads.length = 1 ∧
      ∀ t ∈ (afterPair.take wordA).2.threads, ∀ id < (afterPair.resolve wordA).2.store.size,
        (afterPair.take wordA).2.store.Sees [t.step.node] id →
          (afterPair.take wordA).2.store.isUnbuilt id = false := by
  have reachable : Reachable (fun _ => True) wordsGrammar {} _ afterPair :=
    .feed (.feed (.setup .fresh trivial .detached) wordA) wordA
  have runs : afterPair.isRunning = true := by decide +kernel
  obtain ⟨running, -⟩ := no_slot_outlives_a_token (fun _ => True) wordsGrammar {}
  obtain ⟨-, lists, taken⟩ := running _ afterPair reachable runs
  exact ⟨by decide +kernel, by decide +kernel, fun t mem => (lists t mem).1, by decide +kernel,
    taken wordA⟩

end Parser

end Lockstep
