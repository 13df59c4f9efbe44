import Lockstep.Proofs.Simulation.Threads
import Lockstep.Proofs.Store.Filling

set_option autoImplicit false

namespace Lockstep

section Alignment

variable (defined : String → Prop) (g : Grammar) (s : Store)

def Thread.Aligned (t : Thread) : Prop := t.step.Aligned defined g s

/-- The token that is waited for is what the part leads to that the node is at; an accepted
derivation is at a finished sequence, and so are all around it. -/
def Ready.Aligned (r : Ready) : Prop :=
  match r.goal with
  | .token spec => ∃ part guards, s.nextPart? r.node = some part ∧ g.Leads part (.token spec guards)
  | .accepted => r.node < s.size ∧ s.nextPart? r.node = none ∧ s.resume? r.node = none

def Expansion.Aligned : Expansion → Prop
  | .ready r => r.Aligned g s
  | .moved t => t.Aligned defined g s
  | .split ts => ∀ t ∈ ts, t.Aligned defined g s
  | .unknown _ => True

end Alignment

variable {defined : String → Prop} {g : Grammar} {log : List Application} {s s' : Store}

theorem Store.Keeps.ready (h : s.Keeps s') {r : Ready} (aligned : r.Aligned g s) :
    r.Aligned g s' := by
  obtain ⟨goal, node, guards, fresh⟩ := r
  cases goal with
  | token spec =>
    obtain ⟨part, guards, next, leads⟩ := aligned
    exact ⟨part, guards, h.next next, leads⟩
  | accepted =>
    obtain ⟨inside, finished, outermost⟩ := aligned
    exact ⟨Nat.lt_of_lt_of_le inside h.size_le, (h.next_eq node inside).trans finished,
      (h.resume_eq node inside).trans outermost⟩

theorem Thread.unfold_full (closed : g.Closed defined) (h : s.Full defined g log) {m : Matcher}
    {node : Nat} (aligned : (Step.next m node).Aligned defined g s) (defers : m.isDeferred = true)
    (guards : List Predicate) (fresh : List Nat) :
    let r : Expansion × Store := match g.unfold m with
      | .ok m' => (.moved ⟨.next m' node, guards, fresh⟩, s)
      | .error name => (.unknown name, s)
    r.2.Full defined g log ∧ s.Keeps r.2 ∧ r.1.Aligned defined g r.2 := by
  obtain ⟨proper, part, next, leads⟩ := aligned
  cases unfolds : g.unfold m with
  | ok m' =>
    exact ⟨h, .refl s, Matcher.proper_unfold closed proper unfolds, part, next,
      leads.unfold defers unfolds⟩
  | error name => exact ⟨h, .refl s, trivial⟩

theorem Thread.expand_full (closed : g.Closed defined) (h : s.Full defined g log) {t : Thread}
    (aligned : t.Aligned defined g s) (position : Position) :
    let r := t.expand g (.empty position) s
    r.2.Full defined g log ∧ s.Keeps r.2 ∧ r.1.Aligned defined g r.2 := by
  obtain ⟨step, guards, fresh⟩ := t
  cases step with
  | done node => exact ⟨h, .refl s, aligned⟩
  | next m node =>
    have waits : (Step.next m node).Aligned defined g s := aligned
    obtain ⟨proper, part, next, leads⟩ := waits
    cases m with
    | token spec gs => exact ⟨h, .refl s, part, gs, next, leads⟩
    | nothing gs => exact Store.advance_full h next (.nothing leads) fresh
    | sequence name? parts build gs =>
      cases proper with
      | sequence nonempty all =>
        have here : ∀ p, some node = some p → ∃ part guards, s.nextPart? p = some part ∧
            g.Leads part ((Sequence.mk name? parts build).matcher guards) := by
          intro p same
          cases same
          exact ⟨part, gs, next, leads⟩
        obtain ⟨entered, keeps⟩ := Store.enter_full h nonempty all here
        have childInside : s.size < (s.enter (some node) ⟨name?, parts, build⟩).2.size := by
          simp only [Store.enter, Store.push, Store.size, Array.size_push]
          omega
        obtain ⟨full, later, settled⟩ := Store.settle_full entered childInside fresh
        exact ⟨full, keeps.trans later, settled⟩
    | branch options gs =>
      cases proper with
      | branch _ all =>
        refine ⟨h, .refl s, ?_⟩
        intro t mem
        obtain ⟨option, here, rfl⟩ := List.mem_map.mp mem
        exact ⟨all option here, part, next, leads.option here⟩
    | rule => exact unfold_full closed h aligned rfl _ fresh
    | list => exact unfold_full closed h aligned rfl _ fresh
    | tail => exact unfold_full closed h aligned rfl _ fresh

theorem Phase.resolve_full {p : Phase} {position : Position} (marker : p.marker = .empty position)
    (closed : p.grammar.Closed defined) (budget : Nat) (work : List Thread) (ready : Array Ready)
    (s : Store) (branches : Nat) (h : s.Full defined p.grammar log)
    (workAligned : ∀ t ∈ work, t.Aligned defined p.grammar s)
    (readyAligned : ∀ r ∈ ready.toList, r.Aligned p.grammar s) :
    let r := p.resolve budget work ready s branches
    r.store.Full defined p.grammar log ∧ s.Keeps r.store ∧
      ∀ ready', r.outcome = .ok ready' → ∀ x ∈ ready'.toList, x.Aligned p.grammar r.store := by
  induction budget generalizing work ready s branches with
  | zero =>
    cases work with
    | nil =>
      refine ⟨h, .refl s, ?_⟩
      intro ready' same
      cases same
      exact readyAligned
    | cons t work =>
      refine ⟨h, .refl s, ?_⟩
      rintro ready' ⟨⟩
  | succ budget ih =>
    cases work with
    | nil =>
      refine ⟨h, .refl s, ?_⟩
      intro ready' same
      cases same
      exact readyAligned
    | cons t work =>
      obtain ⟨here, rest⟩ := List.forall_mem_cons.mp workAligned
      obtain ⟨full, keeps, aligned⟩ := t.expand_full closed h here position
      rw [← marker] at full keeps aligned
      rw [resolve]
      generalize t.expand p.grammar p.marker s = e at full keeps aligned
      obtain ⟨e, s'⟩ := e
      have restAligned : ∀ u ∈ work, u.Aligned defined p.grammar s' :=
        fun u mem => keeps.aligned (rest u mem)
      have waitingAligned : ∀ r ∈ ready.toList, r.Aligned p.grammar s' :=
        fun r mem => keeps.ready (readyAligned r mem)
      -- What is left to do starts from a store that keeps all that was in `s`.
      have onwards : ∀ work' ready' branches', (∀ t ∈ work', t.Aligned defined p.grammar s') →
          (∀ r ∈ ready'.toList, r.Aligned p.grammar s') →
          let r := p.resolve budget work' ready' s' branches'
          r.store.Full defined p.grammar log ∧ s.Keeps r.store ∧
            ∀ ready'', r.outcome = .ok ready'' →
              ∀ x ∈ ready''.toList, x.Aligned p.grammar r.store := by
        intro work' ready' branches' aligned' readyAligned'
        obtain ⟨full', keeps', waits⟩ := ih work' ready' s' branches' full aligned' readyAligned'
        exact ⟨full', keeps.trans keeps', waits⟩
      cases e with
      | ready r =>
        have pushedAligned : ∀ x ∈ (ready.push r).toList, x.Aligned p.grammar s' := by
          intro x mem
          rcases List.mem_append.mp (Array.toList_push ▸ mem) with old | new
          · exact waitingAligned x old
          · rw [List.mem_singleton.mp new]
            exact aligned
        have later := onwards work (ready.push r) branches restAligned pushedAligned
        cases goal : r.goal with
        | accepted => simpa only [goal] using later
        | token spec =>
          simp only [goal]
          split
          · exact later
          · refine ⟨full, keeps, ?_⟩
            rintro ready' ⟨⟩
      | moved u =>
        exact onwards (u :: work) ready branches (List.forall_mem_cons.mpr ⟨aligned, restAligned⟩)
          waitingAligned
      | split us =>
        exact onwards (us ++ work) ready (branches + 1)
          (List.forall_mem_append.mpr ⟨aligned, restAligned⟩) waitingAligned
      | unknown name =>
        refine ⟨full, keeps, ?_⟩
        rintro ready' ⟨⟩

namespace Tally

def meetLog (token : Token) (last : Position) (t : Tally) (r : Ready) : List Application :=
  match r.goal with
  | .accepted =>
    if token.isEof && (r.refusal? token last).isNone then t.store.chainLog r.node none [] else []
  | .token spec =>
    if spec.accepts token && (r.refusal? token last).isNone then t.store.forceAllLog r.fresh
    else []

def closeLog (eof : Token) (last : Position) (t : Tally) (r : Ready) : List Application :=
  match r.goal with
  | .accepted => if (r.refusal? eof last).isNone then t.store.chainLog r.node none [] else []
  | .token _ => []

def foldLog (meet : Tally → Ready → Tally) (log : Tally → Ready → List Application) :
    Tally → List Ready → List Application
  | _, [] => []
  | t, r :: rs => log t r ++ foldLog meet log (meet t r) rs

structure Full (defined : String → Prop) (g : Grammar) (log : List Application) (t : Tally) :
    Prop where
  store : t.store.Full defined g log
  survivors : ∀ x ∈ t.survivors.toList, x.Aligned defined g t.store
  results : ∀ c ∈ t.results.toList, ∃ a ∈ log, c = a.result
  log : g.Full log

/-- Meeting a thread by `meet` applies what `applied` says, and keeps the tally full. -/
def Fills (defined : String → Prop) (g : Grammar) (meet : Tally → Ready → Tally)
    (applied : Tally → Ready → List Application) : Prop :=
  ∀ (log : List Application) (t : Tally) (r : Ready), t.Full defined g log → r.Aligned g t.store →
    (meet t r).Full defined g (log ++ applied t r) ∧ t.store.Keeps (meet t r).store

theorem Full.same {t u : Tally} (h : t.Full defined g log) (store : u.store = t.store)
    (survivors : u.survivors = t.survivors) (results : u.results = t.results) :
    u.Full defined g (log ++ []) ∧ t.store.Keeps u.store := by
  obtain ⟨store', survivors', failed', results'⟩ := u
  cases store
  cases survivors
  cases results
  rw [List.append_nil]
  exact ⟨⟨h.store, h.survivors, h.results, h.log⟩, .refl t.store⟩

theorem Full.result {t u : Tally} (h : t.Full defined g log) {r : Ready} (goal : r.goal = .accepted)
    (aligned : r.Aligned g t.store) (store : u.store = t.store)
    (survivors : u.survivors = t.survivors)
    (results : u.results = t.results.push (t.store.chain r.node none)) :
    u.Full defined g (log ++ t.store.chainLog r.node none []) ∧ t.store.Keeps u.store := by
  obtain ⟨store', survivors', failed', results'⟩ := u
  cases store
  cases survivors
  cases results
  simp only [Ready.Aligned, goal] at aligned
  obtain ⟨inside, finished, outermost⟩ := aligned
  have sub := List.subset_append_left log (t.store.chainLog r.node none [])
  refine ⟨⟨h.store.mono sub, h.survivors, ?_,
    h.store.result h.log inside finished outermost⟩, .refl t.store⟩
  intro c mem
  rcases List.mem_append.mp (Array.toList_push ▸ mem) with old | new
  · obtain ⟨a, applied, same⟩ := h.results c old
    exact ⟨a, sub applied, same⟩
  · rw [List.mem_singleton.mp new]
    obtain ⟨a, applied, same⟩ := Store.chainOnto_eq_result h.store.sound inside none []
    exact ⟨a, List.mem_append_right log applied, same⟩

theorem meet_fills (token : Token) (last : Position) :
    Fills defined g (meet token last) (meetLog token last) := by
  intro log t r h aligned
  simp only [meet, meetLog]
  cases goal : r.goal with
  | accepted =>
    cases token.isEof with
    | false => exact h.same rfl rfl rfl
    | true =>
      cases r.refusal? token last with
      | some cause => exact h.same rfl rfl rfl
      | none => exact h.result goal aligned rfl rfl rfl
  | token spec =>
    cases accepts : spec.accepts token with
    | false =>
      simp only [accepts]
      exact h.same rfl rfl rfl
    | true =>
      simp only [accepts]
      cases r.refusal? token last with
      | some cause => exact h.same rfl rfl rfl
      | none =>
        simp only [Ready.Aligned, goal] at aligned
        obtain ⟨part, guards, next, leads⟩ := aligned
        -- The slots are forced before the token is added, so that is all that is applied.
        obtain ⟨forced, full, keeps⟩ := Store.forceAll_full h.store h.log r.fresh
        obtain ⟨advanced, later, step⟩ :=
          Store.advance_full forced (keeps.next next) (.token leads accepts) []
        have all := keeps.trans later
        refine ⟨⟨advanced, ?_, ?_, full⟩, all⟩
        · intro x mem
          rcases List.mem_append.mp (Array.toList_push ▸ mem) with old | new
          · exact all.aligned (h.survivors x old)
          · rw [List.mem_singleton.mp new]
            exact step
        · intro c mem
          obtain ⟨a, applied, same⟩ := h.results c mem
          exact ⟨a, List.mem_append_left _ applied, same⟩

theorem close_fills (eof : Token) (last : Position) :
    Fills defined g (close eof last) (closeLog eof last) := by
  intro log t r h aligned
  simp only [close, closeLog]
  cases goal : r.goal with
  | token spec => exact h.same rfl rfl rfl
  | accepted =>
    cases r.refusal? eof last with
    | some cause => exact h.same rfl rfl rfl
    | none => exact h.result goal aligned rfl rfl rfl

theorem Fills.foldl {meet : Tally → Ready → Tally} {applied : Tally → Ready → List Application}
    (fills : Fills defined g meet applied) (rs : List Ready) {t : Tally}
    (h : t.Full defined g log) (aligned : ∀ r ∈ rs, r.Aligned g t.store) :
    (rs.foldl meet t).Full defined g (log ++ foldLog meet applied t rs) := by
  induction rs generalizing t log with
  | nil =>
    rw [foldLog, List.append_nil]
    exact h
  | cons r rs ih =>
    obtain ⟨here, rest⟩ := List.forall_mem_cons.mp aligned
    obtain ⟨met, keeps⟩ := fills log t r h here
    rw [foldLog, ← List.append_assoc]
    exact ih met fun x mem => keeps.ready (rest x mem)

end Tally

end Lockstep
