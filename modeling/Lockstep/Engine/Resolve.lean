import Lockstep.Engine.Limits
import Lockstep.Engine.Thread
import Lockstep.ParseError

set_option autoImplicit false

namespace Lockstep

structure Resolution where
  outcome : Except ParseError (Array Ready)
  store : Store
  branches : Nat

structure Phase where
  grammar : Grammar
  limits : Limits
  marker : Capture
  position : Position

namespace Phase

/-- Expands the threads of `work`; `ready` holds those that wait already. -/
def resolve (p : Phase) : (budget : Nat) → (work : List Thread) → (ready : Array Ready) →
    (store : Store) → (branches : Nat) → Resolution
  | _, [], ready, store, branches => ⟨.ok ready, store, branches⟩
  | 0, _ :: _, _, store, branches =>
    ⟨.error (.expansionLimit p.limits.maxExpansions p.position), store, branches⟩
  | budget + 1, t :: work, ready, store, branches =>
    match t.expand p.grammar p.marker store with
    | (.ready r, store) =>
      match r.goal with
      | .accepted => p.resolve budget work (ready.push r) store branches
      | .token _ =>
        if ready.size < p.limits.maxThreads then
          p.resolve budget work (ready.push r) store branches
        else ⟨.error (.threadLimit p.limits.maxThreads p.position), store, branches⟩
    | (.moved u, store) => p.resolve budget (u :: work) ready store branches
    | (.split us, store) => p.resolve budget (us ++ work) ready store (branches + 1)
    | (.unknown name, store) => ⟨.error (.unknownPattern name), store, branches⟩

def resolveCached (p : Phase) : (cache : RuleCache p.grammar) → (budget : Nat) →
    (work : List Thread) → (ready : Array Ready) → (store : Store) → (branches : Nat) →
    Resolution × RuleCache p.grammar
  | cache, _, [], ready, store, branches => (⟨.ok ready, store, branches⟩, cache)
  | cache, 0, _ :: _, _, store, branches =>
    (⟨.error (.expansionLimit p.limits.maxExpansions p.position), store, branches⟩, cache)
  | cache, budget + 1, t :: work, ready, store, branches =>
    match t.expandCached cache p.marker store with
    | ((.ready r, store), cache) =>
      match r.goal with
      | .accepted => p.resolveCached cache budget work (ready.push r) store branches
      | .token _ =>
        if ready.size < p.limits.maxThreads then
          p.resolveCached cache budget work (ready.push r) store branches
        else (⟨.error (.threadLimit p.limits.maxThreads p.position), store, branches⟩, cache)
    | ((.moved u, store), cache) => p.resolveCached cache budget (u :: work) ready store branches
    | ((.split us, store), cache) =>
      p.resolveCached cache budget (us ++ work) ready store (branches + 1)
    | ((.unknown name, store), cache) =>
      (⟨.error (.unknownPattern name), store, branches⟩, cache)

theorem resolveCached_fst (p : Phase) (cache : RuleCache p.grammar) (budget : Nat)
    (work : List Thread) (ready : Array Ready) (store : Store) (branches : Nat) :
    (p.resolveCached cache budget work ready store branches).1 =
      p.resolve budget work ready store branches := by
  induction budget generalizing cache work ready store branches with
  | zero => cases work <;> rfl
  | succ budget ih =>
    cases work with
    | nil => rfl
    | cons t work =>
      have same := t.expandCached_fst cache p.marker store
      rw [resolveCached, resolve, ← same]
      generalize t.expandCached cache p.marker store = r
      obtain ⟨⟨e, store'⟩, cache'⟩ := r
      cases e with
      | ready r =>
        cases goal : r.goal with
        | accepted => simpa only [goal] using ih cache' work (ready.push r) store' branches
        | token spec =>
          simp only [goal]
          split
          · exact ih cache' work (ready.push r) store' branches
          · rfl
      | moved u => exact ih cache' (u :: work) ready store' branches
      | split us => exact ih cache' (us ++ work) ready store' (branches + 1)
      | unknown name => rfl

end Phase

end Lockstep
