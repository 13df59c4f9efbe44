import Lockstep.Proofs.Store.Growth
import Lockstep.Proofs.Weave

set_option autoImplicit false

/-!
Threads step as their strands do. The strand of a thread holds the frames at its node, and these
stay the same however the store grows. So expanding a thread, resolving all of them and letting
them meet a token give what the strands give, and make as many nodes as those count.
-/

namespace Lockstep

namespace Thread

def strand (s : Store) (t : Thread) : Strand := ⟨t.step.spot s, t.guards.reverse⟩

def Within (s : Store) (t : Thread) : Prop := t.step.node < s.size

end Thread

namespace Ready

def waiting (s : Store) (r : Ready) : Waiting := ⟨r.goal, s.frames r.node, r.guards.reverse⟩

def Within (s : Store) (r : Ready) : Prop := r.node < s.size

end Ready

namespace Failed

def failure (s : Store) (f : Failed) : Failure := ⟨s.trail f.node, f.cause⟩

def Within (s : Store) (f : Failed) : Prop := f.node < s.size

end Failed

namespace Expansion

def move (s : Store) : Expansion → Move
  | .ready r => .ready (r.waiting s)
  | .moved t => .moved (t.strand s)
  | .split ts => .split (ts.map (Thread.strand s))
  | .unknown name => .unknown name

def Within (s : Store) : Expansion → Prop
  | .ready r => r.Within s
  | .moved t => t.Within s
  | .split ts => ∀ t ∈ ts, t.Within s
  | .unknown _ => True

end Expansion

namespace Store.Follows

variable {s s' : Store} (h : s.Follows s')
include h

theorem strand_eq {t : Thread} (within : t.Within s) :
    t.Within s' ∧ t.strand s' = t.strand s := by
  refine ⟨Nat.lt_of_lt_of_le within h.size_le, ?_⟩
  obtain ⟨step, guards, fresh⟩ := t
  cases step with
  | next m node => simp only [Thread.strand, Step.spot, h.frames_eq node within]
  | done node => simp only [Thread.strand, Step.spot, h.frames_eq node within]

theorem strands_eq {ts : List Thread} (within : ∀ t ∈ ts, t.Within s) :
    (∀ t ∈ ts, t.Within s') ∧ ts.map (Thread.strand s') = ts.map (Thread.strand s) :=
  ⟨fun t mem => (h.strand_eq (within t mem)).1,
    List.map_congr_left fun t mem => (h.strand_eq (within t mem)).2⟩

theorem waiting_eq {r : Ready} (within : r.Within s) :
    r.Within s' ∧ r.waiting s' = r.waiting s := by
  refine ⟨Nat.lt_of_lt_of_le within h.size_le, ?_⟩
  simp only [Ready.waiting, h.frames_eq r.node within]

theorem waitings_eq {rs : List Ready} (within : ∀ r ∈ rs, r.Within s) :
    (∀ r ∈ rs, r.Within s') ∧ rs.map (Ready.waiting s') = rs.map (Ready.waiting s) :=
  ⟨fun r mem => (h.waiting_eq (within r mem)).1,
    List.map_congr_left fun r mem => (h.waiting_eq (within r mem)).2⟩

theorem failures_eq {fs : List Failed} (within : ∀ f ∈ fs, f.Within s) :
    (∀ f ∈ fs, f.Within s') ∧ fs.map (Failed.failure s') = fs.map (Failed.failure s) := by
  refine ⟨fun f mem => Nat.lt_of_lt_of_le (within f mem) h.size_le, ?_⟩
  apply List.map_congr_left
  intro f mem
  simp only [Failed.failure, trail_eq, h.frames_eq f.node (within f mem)]

end Store.Follows

theorem Thread.guards_eq (m : Matcher) (guards : List Predicate) :
    (m.guards.reverse ++ guards).reverse = guards.reverse ++ m.guards := by
  rw [List.reverse_append, List.reverse_reverse]

theorem Thread.unfold_sim {s : Store} (sound : s.Sound) {node : Nat} (within : node < s.size)
    {guards inOrder : List Predicate} (same : guards.reverse = inOrder) (fresh : List Nat)
    (unfolded : Except String Matcher) :
    let e : Expansion × Store := match unfolded with
      | .ok m => (.moved ⟨.next m node, guards, fresh⟩, s)
      | .error name => (.unknown name, s)
    let m : Move × Nat := match unfolded with
      | .ok m => (.moved ⟨.next m (s.frames node), inOrder⟩, 0)
      | .error name => (.unknown name, 0)
    s.Follows e.2 ∧ e.1.Within e.2 ∧ ∃ k, m = (e.1.move e.2, k) ∧ e.2.allocated = s.allocated + k := by
  subst same
  cases unfolded with
  | ok m => exact ⟨.refl sound, within, 0, rfl, rfl⟩
  | error name => exact ⟨.refl sound, trivial, 0, rfl, rfl⟩

theorem Thread.expand_sim (g : Grammar) (marker : Capture) {s : Store} (sound : s.Sound)
    {t : Thread} (within : t.Within s) :
    s.Follows (t.expand g marker s).2 ∧
      (t.expand g marker s).1.Within (t.expand g marker s).2 ∧
      ∃ k, (t.strand s).expand g marker =
          ((t.expand g marker s).1.move (t.expand g marker s).2, k) ∧
        (t.expand g marker s).2.allocated = s.allocated + k := by
  obtain ⟨step, guards, fresh⟩ := t
  cases step with
  | done node => exact ⟨.refl sound, within, 0, rfl, rfl⟩
  | next m node =>
    cases m with
    | token spec gs =>
      refine ⟨.refl sound, within, 0, ?_, rfl⟩
      simp only [Thread.strand, Step.spot, Strand.expand, Thread.expand, Expansion.move,
        Ready.waiting, guards_eq]
    | nothing gs =>
      obtain ⟨follows, inside, spot, count⟩ := Store.advance_spec sound within fresh marker
      refine ⟨follows, inside, Frame.advanced marker (s.frames node), ?_, count⟩
      simp only [Thread.strand, Step.spot, Strand.expand, Thread.expand, Expansion.move,
        guards_eq]
      exact congrArg (fun spot => (Move.moved ⟨spot, _⟩, _)) spot.symm
    | sequence name? parts build gs =>
      have parentInside : ∀ p, some node = some p → p < s.size := by
        intro p same
        cases same
        exact within
      have entered := Store.enter_follows sound ⟨name?, parts, build⟩ parentInside
      have childInside : s.size < (s.enter (some node) ⟨name?, parts, build⟩).2.size := by
        simp only [Store.enter, Store.push, Store.size, Array.size_push]
        omega
      obtain ⟨settled, inside, spot, count⟩ := Store.settle_spec entered.sound childInside fresh
      rw [Store.frames_enter sound ⟨name?, parts, build⟩ parentInside] at spot count
      refine ⟨entered.trans settled, inside, _, ?_, count.trans (Nat.add_assoc _ 1 _)⟩
      simp only [Thread.strand, Step.spot, Strand.expand, Thread.expand, Expansion.move,
        guards_eq]
      exact congrArg (fun spot => (Move.moved ⟨spot, _⟩, _)) spot.symm
    | branch options gs =>
      refine ⟨.refl sound, ?_, 0, ?_, rfl⟩
      · intro t mem
        obtain ⟨option, -, rfl⟩ := List.mem_map.mp mem
        exact within
      · simp only [Strand.expand, Thread.expand, Expansion.move, List.map_map, Function.comp_def,
          Thread.strand, Step.spot, guards_eq]
    | rule name gs =>
      exact unfold_sim sound within (guards_eq _ guards) fresh (g.unfold (.rule name gs))
    | list item separator? gs =>
      exact unfold_sim sound within (guards_eq _ guards) fresh (g.unfold (.list item separator? gs))
    | tail item separator? gs =>
      exact unfold_sim sound within (guards_eq _ guards) fresh (g.unfold (.tail item separator? gs))

structure Resolution.Sim (s : Store) (r : Resolution) (v : Resolved) : Prop where
  follows : s.Follows r.store
  within : ∀ ready, r.outcome = .ok ready → ∀ x ∈ ready.toList, x.Within r.store
  outcome : v.outcome = r.outcome.map fun ready => ready.toList.map (Ready.waiting r.store)
  branches : v.branches = r.branches
  made : v.made = r.store.allocated

theorem Resolution.Sim.of_follows {s s' : Store} {r : Resolution} {v : Resolved}
    (h : s.Follows s') (sim : r.Sim s' v) : r.Sim s v :=
  ⟨h.trans sim.follows, sim.within, sim.outcome, sim.branches, sim.made⟩

theorem Resolution.Sim.of_error {s s' : Store} (h : s.Follows s') (e : ParseError) (n : Nat) :
    Resolution.Sim s ⟨.error e, s', n⟩ ⟨.error e, n, s'.allocated⟩ :=
  ⟨h, fun _ absurd => (by cases absurd), rfl, rfl, rfl⟩

theorem Phase.resolve_sim (p : Phase) (budget : Nat) (work : List Thread) (ready : Array Ready)
    (s : Store) (branches : Nat) (sound : s.Sound) (workWithin : ∀ t ∈ work, t.Within s)
    (readyWithin : ∀ r ∈ ready.toList, r.Within s) :
    (p.resolve budget work ready s branches).Sim s
      (p.resolveStrands budget (work.map (Thread.strand s)) (ready.toList.map (Ready.waiting s))
        branches s.allocated) := by
  induction budget generalizing work ready s branches with
  | zero =>
    cases work with
    | nil =>
      refine ⟨.refl sound, ?_, rfl, rfl, rfl⟩
      intro ready same
      cases same
      exact readyWithin
    | cons t work => exact .of_error (.refl sound) _ _
  | succ budget ih =>
    cases work with
    | nil =>
      refine ⟨.refl sound, ?_, rfl, rfl, rfl⟩
      intro ready same
      cases same
      exact readyWithin
    | cons t work =>
      obtain ⟨follows, within, k, same, count⟩ :=
        t.expand_sim p.grammar p.marker sound (workWithin t List.mem_cons_self)
      have restWithin : ∀ u ∈ work, u.Within s := fun u mem =>
        workWithin u (List.mem_cons_of_mem t mem)
      obtain ⟨restWithin, rest⟩ := follows.strands_eq restWithin
      obtain ⟨readyWithin, readies⟩ := follows.waitings_eq readyWithin
      rw [List.map_cons, resolve, resolveStrands, same, ← rest, ← readies]
      generalize t.expand p.grammar p.marker s = e at *
      obtain ⟨e, s'⟩ := e
      simp only at follows within count restWithin readyWithin
      cases e with
      | ready r =>
        have pushed : (ready.push r).toList.map (Ready.waiting s') =
            ready.toList.map (Ready.waiting s') ++ [r.waiting s'] := by
          rw [Array.toList_push, List.map_append, List.map_singleton]
        have pushedWithin : ∀ x ∈ (ready.push r).toList, x.Within s' := by
          intro x mem
          rcases List.mem_append.mp (Array.toList_push ▸ mem) with old | new
          · exact readyWithin x old
          · rw [List.mem_singleton.mp new]
            exact within
        have next := ih work (ready.push r) s' branches follows.sound restWithin pushedWithin
        rw [pushed] at next
        simp only [Expansion.move, ← count, List.length_map, Array.length_toList]
        have goal : (r.waiting s').goal = r.goal := rfl
        rw [goal]
        cases r.goal with
        | accepted => exact .of_follows follows next
        | token spec =>
          simp only
          split
          · exact .of_follows follows next
          · exact .of_error follows _ _
      | moved u =>
        simp only [Expansion.move, ← count]
        refine .of_follows follows (ih (u :: work) ready s' branches follows.sound ?_ readyWithin)
        intro x mem
        rcases List.mem_cons.mp mem with same | later
        · exact same ▸ within
        · exact restWithin x later
      | split us =>
        simp only [Expansion.move, ← count, ← List.map_append]
        refine .of_follows follows (ih (us ++ work) ready s' (branches + 1) follows.sound ?_
          readyWithin)
        intro x mem
        rcases List.mem_append.mp mem with new | later
        · exact within x new
        · exact restWithin x later
      | unknown name =>
        simp only [Expansion.move, ← count]
        exact .of_error follows _ _

/-- The tally is the one of the strands: the survivors, the failures, the results and the count of
nodes are those given. -/
structure Tally.Sim (t : Tally) (survivors : List Strand) (failures : List Failure)
    (results : List Capture) (made : Nat) : Prop where
  sound : t.store.Sound
  survivorsWithin : ∀ x ∈ t.survivors.toList, x.Within t.store
  failedWithin : ∀ f ∈ t.failed.toList, f.Within t.store
  survivors_eq : t.survivors.toList.map (Thread.strand t.store) = survivors
  failures_eq : t.failed.toList.map (Failed.failure t.store) = failures
  results_eq : t.results.toList = results
  made_eq : t.store.allocated = made

def Tally.Meets (meet : Tally → Ready → Tally) (fate : Waiting → Fate) : Prop :=
  ∀ (t : Tally) (survivors : List Strand) (failures : List Failure) (results : List Capture)
    (made : Nat) (r : Ready), t.Sim survivors failures results made → r.Within t.store →
    t.store.Follows (meet t r).store ∧
      (meet t r).Sim (survivors ++ (fate (r.waiting t.store)).survivors)
        (failures ++ (fate (r.waiting t.store)).failures)
        (results ++ (fate (r.waiting t.store)).results) (made + (fate (r.waiting t.store)).made)

namespace Tally

variable {t : Tally} {survivors : List Strand} {failures : List Failure} {results : List Capture}
  {made : Nat}

theorem Sim.fail (h : t.Sim survivors failures results made) {node : Nat}
    (inside : node < t.store.size) {failed : Array Failed} {causes : List Cause}
    (same : failed.toList = t.failed.toList ++ causes.map (Failed.mk node)) :
    Sim { t with failed }
      survivors (failures ++ causes.map fun cause => ⟨Frame.trail (t.store.frames node), cause⟩)
      results made := by
  refine ⟨h.sound, h.survivorsWithin, ?_, h.survivors_eq, ?_, h.results_eq, h.made_eq⟩
  · intro f mem
    rw [same] at mem
    rcases List.mem_append.mp mem with old | new
    · exact h.failedWithin f old
    · obtain ⟨cause, -, rfl⟩ := List.mem_map.mp new
      exact inside
  · simp only [same, List.map_append, List.map_map, h.failures_eq]
    congr 2
    funext cause
    simp only [Function.comp_def, Failed.failure, Store.trail_eq]

theorem Sim.yield (h : t.Sim survivors failures results made) (c : Capture) :
    Sim { t with results := t.results.push c } survivors failures (results ++ [c]) made := by
  refine ⟨h.sound, h.survivorsWithin, h.failedWithin, h.survivors_eq, h.failures_eq, ?_, h.made_eq⟩
  rw [Array.toList_push, h.results_eq]

theorem Sim.survive (h : t.Sim survivors failures results made) {s' : Store} {k : Nat}
    {step : Step} {spot : Spot} (follows : t.store.Follows s') (inside : step.node < s'.size)
    (same : step.spot s' = spot) (count : s'.allocated = t.store.allocated + k)
    (fresh : List Nat) :
    Sim { t with store := s', survivors := t.survivors.push ⟨step, [], fresh⟩ }
      (survivors ++ [⟨spot, []⟩]) failures results (made + k) := by
  obtain ⟨oldWithin, old⟩ := follows.strands_eq h.survivorsWithin
  obtain ⟨failedWithin, failed⟩ := follows.failures_eq h.failedWithin
  refine ⟨follows.sound, ?_, failedWithin, ?_, failed.trans h.failures_eq, h.results_eq, ?_⟩
  · intro x mem
    simp only [Array.toList_push] at mem
    rcases List.mem_append.mp mem with before | new
    · exact oldWithin x before
    · rw [List.mem_singleton.mp new]
      exact inside
  · simp only [Array.toList_push, List.map_append, old, h.survivors_eq, List.map_singleton,
      Thread.strand, same, List.reverse_nil]
  · rw [count, h.made_eq]

theorem refusal?_eq (s : Store) (r : Ready) (token : Token) (last : Position) :
    (r.waiting s).refusal? token last = r.refusal? token last := rfl

theorem toList_refuse (node : Nat) (refusal? : Option Cause) (failed : Array Failed) :
    (refuse node refusal? failed).toList =
      failed.toList ++ refusal?.toList.map (Failed.mk node) := by
  cases refusal? with
  | none => simp only [refuse, Option.toList_none, List.map_nil, List.append_nil]
  | some cause => simp only [refuse, Array.toList_push, Option.toList_some, List.map_singleton]

theorem toList_refuse_push (node : Nat) (refusal? : Option Cause) (cause : Cause)
    (failed : Array Failed) :
    ((refuse node refusal? failed).push ⟨node, cause⟩).toList =
      failed.toList ++ (refusal?.toList ++ [cause]).map (Failed.mk node) := by
  rw [Array.toList_push, toList_refuse, List.map_append, List.append_assoc, List.map_singleton]

theorem meet_meets (token : Token) (last : Position) :
    Meets (meet token last) (Waiting.meet token last) := by
  intro t survivors failures results made r h inside
  have refused := h.fail inside (toList_refuse r.node (r.refusal? token last) t.failed)
  have mismatched := fun cause =>
    h.fail inside (toList_refuse_push r.node (r.refusal? token last) cause t.failed)
  have refusals := refusal?_eq t.store r token last
  have goal : (r.waiting t.store).goal = r.goal := rfl
  have frames : (r.waiting t.store).frames = t.store.frames r.node := rfl
  simp only [meet, Waiting.meet, Waiting.failures, Waiting.mismatch?, Waiting.takes,
    Waiting.isComplete, Waiting.advance, refusals, goal, frames]
  cases r.goal with
  | accepted =>
    by_cases ended : token.isEof = true
    · cases refusal : r.refusal? token last with
      | some cause =>
        rw [refusal] at refused
        simp only [ended, Option.isSome_some, Option.isNone_some, Bool.and_false,
          Bool.false_eq_true, ↓reduceIte, Option.toList_none, List.append_nil, Nat.add_zero]
        exact ⟨.refl h.sound, refused⟩
      | none =>
        rw [refusal] at refused
        simp only [ended, Option.isSome_none, Option.isNone_none, Bool.and_self,
          Bool.false_eq_true, ↓reduceIte, Option.toList_none, List.append_nil, Nat.add_zero,
          Store.chain_none t.store h.sound]
        exact ⟨.refl h.sound, refused.yield _⟩
    · simp only [ended, Bool.false_and, Bool.false_eq_true, ↓reduceIte, List.append_nil,
        Nat.add_zero, Option.toList_some]
      exact ⟨.refl h.sound, mismatched endOfInput⟩
  | token spec =>
    by_cases accepts : spec.accepts token = true
    · cases refusal : r.refusal? token last with
      | some cause =>
        rw [refusal] at refused
        simp only [accepts, Option.isSome_some, Option.isNone_some, Bool.and_false,
          Bool.false_eq_true, ↓reduceIte, Option.toList_none, List.append_nil, Nat.add_zero]
        exact ⟨.refl h.sound, refused⟩
      | none =>
        rw [refusal] at refused
        simp only [accepts, Option.isSome_none, Option.isNone_none, Bool.and_self, Bool.and_false,
          Bool.false_eq_true, ↓reduceIte, Option.toList_none, List.append_nil]
        obtain ⟨forced, unchanged⟩ := Store.forceAll_follows h.sound r.fresh
        have insideForced := Nat.lt_of_lt_of_le inside forced.size_le
        obtain ⟨advanced, stepInside, spot, count⟩ :=
          Store.advance_spec forced.sound insideForced [] (.token token)
        rw [forced.frames_eq r.node inside] at spot count
        rw [unchanged] at count
        exact ⟨forced.trans advanced,
          refused.survive (forced.trans advanced) stepInside spot count _⟩
    · simp only [accepts, Bool.false_and, Bool.and_false, Bool.false_eq_true, ↓reduceIte,
        List.append_nil, Nat.add_zero, Option.toList_some]
      exact ⟨.refl h.sound, mismatched (.expected spec.render)⟩

theorem close_meets (eof : Token) (last : Position) :
    Meets (close eof last) (Waiting.close eof last) := by
  intro t survivors failures results made r h inside
  have refused := h.fail inside (toList_refuse r.node (r.refusal? eof last) t.failed)
  have refusals := refusal?_eq t.store r eof last
  have goal : (r.waiting t.store).goal = r.goal := rfl
  have frames : (r.waiting t.store).frames = t.store.frames r.node := rfl
  simp only [close, Waiting.close, Waiting.closingFailures, Waiting.shortfall?,
    Waiting.isComplete, refusals, goal, frames, List.append_nil, Nat.add_zero]
  cases r.goal with
  | accepted =>
    cases refusal : r.refusal? eof last with
    | some cause =>
      rw [refusal] at refused
      simp only [Option.isSome_some, Option.isNone_some, Bool.false_eq_true, ↓reduceIte,
        Option.toList_none, List.append_nil]
      exact ⟨.refl h.sound, refused⟩
    | none =>
      rw [refusal] at refused
      simp only [Option.isSome_none, Option.isNone_none, Bool.false_eq_true, ↓reduceIte,
        Option.toList_none, List.append_nil, Store.chain_none t.store h.sound]
      exact ⟨.refl h.sound, refused.yield _⟩
  | token spec =>
    simp only [Bool.false_eq_true, ↓reduceIte, List.append_nil, Option.toList_some]
    exact ⟨.refl h.sound,
      h.fail inside (toList_refuse_push r.node (r.refusal? eof last) (.expected spec.render) t.failed)⟩

theorem Meets.foldl {meet : Tally → Ready → Tally} {fate : Waiting → Fate}
    (meets : Meets meet fate) (rs : List Ready) (h : t.Sim survivors failures results made)
    (within : ∀ r ∈ rs, r.Within t.store) :
    t.store.Follows (rs.foldl meet t).store ∧
      (rs.foldl meet t).Sim
        (survivors ++ ((rs.map (Ready.waiting t.store)).map fate).flatMap Fate.survivors)
        (failures ++ ((rs.map (Ready.waiting t.store)).map fate).flatMap Fate.failures)
        (results ++ ((rs.map (Ready.waiting t.store)).map fate).flatMap Fate.results)
        (made + Fate.madeBy ((rs.map (Ready.waiting t.store)).map fate)) := by
  induction rs generalizing t survivors failures results made with
  | nil => exact ⟨.refl h.sound, by simpa [Fate.madeBy] using h⟩
  | cons r rs ih =>
    obtain ⟨follows, met⟩ := meets t _ _ _ _ r h (within r List.mem_cons_self)
    obtain ⟨restWithin, rest⟩ :=
      follows.waitings_eq fun x mem => within x (List.mem_cons_of_mem r mem)
    obtain ⟨later, sim⟩ := ih met restWithin
    rw [rest] at sim
    refine ⟨follows.trans later, ?_⟩
    simpa only [List.foldl_cons, List.map_cons, List.flatMap_cons, Fate.madeBy, List.foldr_cons,
      List.append_assoc, Nat.add_assoc] using sim

end Tally

end Lockstep
