import Lockstep.Proofs.Reachable
import Lockstep.Proofs.Store.Completing
import Lockstep.Proofs.Store.Visible
import Mathlib.Logic.Relation

set_option autoImplicit false

namespace Lockstep

namespace Store

/-- What is done to a store in one go. -/
inductive Change (s : Store) : Store → Prop where
  | enter (parent? : Option Nat) (sequence : Sequence)
      (inside : ∀ p, parent? = some p → p < s.size) : Change s (s.enter parent? sequence).2
  | addCapture (id : Nat) (capture : Capture) : Change s (s.addCapture id capture).2
  | addFinished (id : Nat) {inner : Nat} (inside : inner < s.size) :
    Change s (s.addFinished id inner).2
  | force (id : Nat) : Change s (s.force id)
  | compact (roots : List Nat) : Change s (s.compact roots).1

def Leads : Store → Store → Prop := Relation.ReflTransGen Change

def Arises (s : Store) : Prop := empty.Leads s

variable {s s' : Store}

theorem extend_sound (sound : s.Sound) (id : Nat) (slot : Slot) (slotSound : SlotSound s.size slot) :
    (s.extend id slot).2.Sound := by
  cases found : s.nodes[id]? with
  | none =>
    rw [extend, found]
    exact sound
  | some n => exact (extend_follows sound found slot slotSound).sound

theorem Change.sound (h : s.Change s') (sound : s.Sound) : s'.Sound := by
  cases h with
  | enter parent? sequence inside => exact (enter_follows sound sequence inside).sound
  | addCapture id capture => exact extend_sound sound id (.built capture) trivial
  | @addFinished id inner inside => exact extend_sound sound id (.deferred inner) inside
  | force id => exact (force_follows sound id).sound
  | compact roots => exact compact_sound s roots sound

theorem Arises.sound (h : s.Arises) : s.Sound := by
  have leads : empty.Leads s := h
  induction leads with
  | refl => exact empty_sound
  | tail before change ih => exact change.sound (ih before)

theorem Change.leads (h : s.Change s') : s.Leads s' := .single h

theorem Leads.refl (s : Store) : s.Leads s := Relation.ReflTransGen.refl

theorem Leads.trans {t : Store} (h : s.Leads s') (k : s'.Leads t) : s.Leads t :=
  Relation.ReflTransGen.trans h k

theorem Arises.of_leads (h : s.Arises) (k : s.Leads s') : s'.Arises := Leads.trans h k

theorem settle_leads (s : Store) (node : Nat) (fresh : List Nat) :
    s.Leads (s.settle node fresh).2.2 := by
  rw [settle]
  split
  · exact .refl s
  · split
    · exact .refl s
    · next resumes =>
      obtain ⟨n, found, -⟩ := Option.bind_eq_some_iff.mp resumes
      exact (Change.addFinished _ (lt_size found)).leads

theorem advance_leads (s : Store) (node : Nat) (capture : Capture) (fresh : List Nat) :
    s.Leads (s.advance node capture fresh).2.2 :=
  (Change.addCapture node capture).leads.trans (settle_leads _ _ fresh)

theorem forceAll_leads (s : Store) (ids : List Nat) : s.Leads (s.forceAll ids) := by
  induction ids with
  | nil => exact .refl s
  | cons id ids ih => exact ih.trans (Change.force id).leads

end Store

theorem Thread.expand_leads (g : Grammar) (marker : Capture) {s : Store} {t : Thread}
    (within : t.Within s) : s.Leads (t.expand g marker s).2 := by
  obtain ⟨step, guards, fresh⟩ := t
  cases step with
  | done node => exact .refl s
  | next m node =>
    cases m with
    | token | branch => exact .refl s
    | nothing => exact Store.advance_leads s node marker fresh
    | sequence name? parts build gs =>
      refine (Store.Change.enter (some node) ⟨name?, parts, build⟩ ?_).leads.trans
        (Store.settle_leads _ _ fresh)
      intro p same
      cases same
      exact within
    | rule | list | tail =>
      simp only [Thread.expand]
      split <;> exact .refl s

theorem Phase.resolve_leads (p : Phase) (budget : Nat) (work : List Thread) (ready : Array Ready)
    {s : Store} (branches : Nat) (sound : s.Sound) (within : ∀ t ∈ work, t.Within s) :
    s.Leads (p.resolve budget work ready s branches).store := by
  induction budget generalizing work ready s branches with
  | zero => cases work <;> exact .refl s
  | succ budget ih =>
    cases work with
    | nil => exact .refl s
    | cons t work =>
      have leads := t.expand_leads p.grammar p.marker (within t List.mem_cons_self)
      obtain ⟨follows, moved, -⟩ := t.expand_sim p.grammar p.marker sound (within t List.mem_cons_self)
      obtain ⟨rest, -⟩ := follows.strands_eq fun u mem => within u (List.mem_cons_of_mem t mem)
      rw [resolve]
      generalize t.expand p.grammar p.marker s = e at *
      obtain ⟨e, s'⟩ := e
      simp only at leads follows moved rest
      cases e with
      | ready r =>
        simp only
        split
        · exact leads.trans (ih work (ready.push r) branches follows.sound rest)
        · split
          · exact leads.trans (ih work (ready.push r) branches follows.sound rest)
          · exact leads
      | moved u =>
        refine leads.trans (ih (u :: work) ready branches follows.sound ?_)
        exact List.forall_mem_cons.mpr ⟨moved, rest⟩
      | split us =>
        refine leads.trans (ih (us ++ work) ready (branches + 1) follows.sound ?_)
        exact List.forall_mem_append.mpr ⟨moved, rest⟩
      | unknown name => exact leads

namespace Tally

theorem meet_leads (token : Token) (last : Position) (t : Tally) (r : Ready) :
    t.store.Leads (meet token last t r).store := by
  rw [meet]
  cases r.goal with
  | accepted =>
    simp only
    split
    · split <;> exact .refl t.store
    · exact .refl t.store
  | token spec =>
    simp only
    split
    · split
      · exact .refl t.store
      · exact (t.store.forceAll_leads r.fresh).trans (Store.advance_leads _ _ _ _)
    · exact .refl t.store

theorem close_leads (eof : Token) (last : Position) (t : Tally) (r : Ready) :
    t.store.Leads (close eof last t r).store := by
  rw [close]
  cases r.goal with
  | accepted =>
    simp only
    split <;> exact .refl t.store
  | token spec => exact .refl t.store

end Tally

namespace Parser

theorem meetAll_leads {meet : Tally → Ready → Tally}
    (leads : ∀ (t : Tally) (r : Ready), t.store.Leads (meet t r).store) (p : Parser) (ready : Array Ready)
    (failed : Array Failed) : p.store.Leads (p.meetAll meet ready failed).2.2.store := by
  have all : ∀ (rs : List Ready) (t : Tally), t.store.Leads (rs.foldl meet t).store := by
    intro rs
    induction rs with
    | nil => exact fun t => .refl t.store
    | cons r rs ih => exact fun t => (leads t r).trans (ih (meet t r))
  rw [meetAll, ← Array.foldl_toList]
  exact all ready.toList ⟨p.store, #[], failed, p.results⟩

variable {p : Parser}

theorem resolve_leads (h : p.Sound) (token : Token) :
    p.store.Leads (p.resolve token).2.store := by
  have leads := Phase.resolve_leads ⟨p.grammar, p.limits, .empty p.last.endPoint, token.position⟩
    p.limits.maxExpansions p.threads #[] p.metrics.branches h.1 h.2
  simp only [resolve, Phase.resolveCached_fst]
  generalize Phase.resolve _ _ _ _ _ _ = r at leads
  split <;> exact leads

theorem consume_leads (h : p.Sound) (token : Token) :
    p.store.Leads (p.consume token).2.store := by
  have leads := resolve_leads h token
  rw [consume]
  generalize p.resolve token = r at leads
  obtain ⟨outcome, q⟩ := r
  cases outcome with
  | error e => exact leads
  | ok ready =>
    exact leads.trans (q.meetAll_leads (Tally.meet_leads token q.last.endPoint) ready #[])

theorem complete_leads (h : p.Sound) (eof : Token) (failed : Array Failed) :
    p.store.Leads (p.complete eof failed).2.store := by
  have leads := resolve_leads h eof
  rw [complete]
  split
  · exact .refl p.store
  · generalize p.resolve eof = r at leads
    obtain ⟨outcome, q⟩ := r
    cases outcome with
    | error e => exact leads
    | ok ready =>
      exact leads.trans (q.meetAll_leads (Tally.close_leads eof q.last.endPoint) ready failed)

theorem take_leads (h : p.Sound) (token : Token) : p.store.Leads (p.take token).2.store := by
  have leads := consume_leads h token
  rw [take]
  generalize p.consume token = r at leads
  obtain ⟨outcome, q⟩ := r
  cases outcome with
  | error e => exact leads
  | ok outcome =>
    simp only
    split <;> exact leads

theorem finishAt_leads (h : p.Sound) (eof : Token) : p.store.Leads (p.finishAt eof).2.store := by
  have leads := consume_leads h eof
  obtain ⟨sound, -, within, -⟩ := consume_sim h eof
  rw [finishAt]
  generalize p.consume eof = r at *
  obtain ⟨outcome, q⟩ := r
  cases outcome with
  | error e => exact leads
  | ok outcome =>
    obtain ⟨survivors, failed⟩ := outcome
    have completed := complete_leads (p := { q with threads := survivors.toList })
      ⟨sound, (within survivors failed rfl).1⟩ eof failed
    simp only
    generalize Parser.complete _ eof failed = r at completed
    obtain ⟨outcome, q'⟩ := r
    cases outcome with
    | error e => exact leads.trans completed
    | ok failed =>
      simp only
      split <;> exact leads.trans completed

theorem finish_leads (h : p.Sound) : p.store.Leads p.finish.2.store := by
  rw [finish]
  split
  · exact finishAt_leads h _
  · exact .refl p.store

theorem feed_leads (h : p.Sound) (token : Token) : p.store.Leads (p.feed token).2.store := by
  rw [feed]
  split
  · exact .refl p.store
  · split
    · exact finishAt_leads h token
    · have leads := take_leads h token
      generalize p.take token = r at leads
      obtain ⟨error?, q⟩ := r
      cases error? with
      | some e => exact leads
      | none =>
        simp only
        split
        · exact leads.trans (Store.Change.compact _).leads
        · exact leads

theorem Reachable.arises {allowed : Pattern → Prop} {g : Grammar} {limits : Limits} {clean : Bool}
    (h : Reachable allowed g limits clean p) : p.Sound ∧ p.store.Arises := by
  have feed : ∀ (p : Parser) (token : Token), p.Sound ∧ p.store.Arises →
      (p.feed token).2.Sound ∧ (p.feed token).2.store.Arises := fun p token ⟨sound, arises⟩ =>
    ⟨(feed_sim sound token).1, arises.of_leads (feed_leads sound token)⟩
  have finish : ∀ p : Parser, p.Sound ∧ p.store.Arises → p.finish.2.Sound ∧ p.finish.2.store.Arises :=
    fun p ⟨sound, arises⟩ => ⟨(finish_sim sound).1, arises.of_leads (finish_leads sound)⟩
  induction h with
  | fresh =>
    exact ⟨⟨Store.empty_sound, fun _ mem => absurd mem List.not_mem_nil⟩, Store.Leads.refl _⟩
  | @setup _ p pattern _ _ start ih =>
    exact ⟨(setup_sim p pattern start).1, (Store.Change.enter none _ nofun).leads⟩
  | feed _ token ih => exact feed _ token ih
  | finish _ ih => exact finish _ ih
  | parse _ s ih =>
    exact @parse_keeps _ _ _ (fun p => p.Sound ∧ p.store.Arises) feed finish
      (fun p h => ⟨(halt_sim h.1.1).1, h.2⟩) ih s

/-- The stores of all parsers arise by changes one after the other, and calls go on from them by
changes. In every store that arises so, completing a sequence and those around that it finishes step
by step ends at the same node and with the same capture as completing them at once, and that node has
parts left. -/
theorem stores_complete_alike (allowed : Pattern → Prop) (g : Grammar) (limits : Limits) :
    (∀ clean p, Reachable allowed g limits clean p →
      p.store.Arises ∧ (∀ token, p.store.Leads (p.feed token).2.store) ∧
        p.store.Leads p.finish.2.store) ∧
      ∀ s : Store, s.Arises → ∀ id < s.size, s.CompletesAlike id := by
  refine ⟨?_, fun s arises id inside => Store.completesAlike arises.sound inside⟩
  intro clean p reachable
  obtain ⟨sound, arises⟩ := reachable.arises
  exact ⟨arises, feed_leads sound, finish_leads sound⟩

theorem forked_arises : Store.forked.Arises :=
  have entered := (Store.Change.enter none (Store.blanks 2) nofun).leads
  have parted := entered.trans (Store.Change.addCapture 0 (.empty .detached)).leads
  have inner := parted.trans (Store.Change.enter (some 0) (Store.blanks 1) (by decide)).leads
  have innermost := inner.trans (Store.Change.enter (some 2) (Store.blanks 1) (by decide)).leads
  have finished := innermost.trans (Store.Change.addCapture 3 (.empty .detached)).leads
  finished.trans (Store.Change.addFinished 0 (by decide : 4 < 5)).leads

theorem forked_completes_alike :
    fedWords.2.store.Arises ∧ Store.forked.resume? 4 = some 0 ∧
      Store.forked.completeUp 5 4 = some (some 0, Store.forked.chain 4 (some 0)) := by
  obtain ⟨arises, alike⟩ := stores_complete_alike Pattern.Made Builder.wordsGrammar {}
  have made : Builder.wordsPattern.Made := ⟨_, _, Builder.wordsBuilder_built, List.mem_cons_self⟩
  have fed : Reachable Pattern.Made Builder.wordsGrammar {} (true && fedWords.1.isNone) fedWords.2 :=
    .feed (.setup .fresh made .detached) wordA
  have resumes : Store.forked.resume? 4 = some 0 := rfl
  have inside : 4 < Store.forked.size := by decide
  exact ⟨(arises _ _ fed).1, resumes,
    (alike _ forked_arises 4 inside).resumed 0 resumes 5 (Nat.lt_succ_self 4)⟩

end Parser

end Lockstep
