import Lockstep.Matcher.Basic

set_option autoImplicit false

namespace Lockstep

structure RuleCache (g : Grammar) where
  entries : List (String × Matcher)
  /-- Each is what lowering the rule of that name would give again. -/
  faithful : ∀ name m, entries.lookup name = some m → (g.lookup? name).map .lower = some m

namespace RuleCache

variable {g : Grammar}

def empty : RuleCache g := ⟨[], nofun⟩

def add (c : RuleCache g) {name : String} {pattern : Pattern}
    (found : g.lookup? name = some pattern) : RuleCache g where
  entries := (name, .lower pattern) :: c.entries
  faithful := by
    intro name' m cached
    rw [List.lookup_cons] at cached
    split at cached
    · next same =>
      cases cached
      rw [LawfulBEq.eq_of_beq same, found]
      rfl
    · exact c.faithful name' m cached

def find (c : RuleCache g) (name : String) : Option Matcher × RuleCache g :=
  match c.entries.lookup name with
  | some m => (some m, c)
  | none =>
    match found : g.lookup? name with
    | some pattern => (some (.lower pattern), c.add found)
    | none => (none, c)

theorem find_fst (c : RuleCache g) (name : String) :
    (c.find name).1 = (g.lookup? name).map .lower := by
  unfold find
  split
  · next m cached => exact (c.faithful name m cached).symm
  · split
    · next found => exact (congrArg (Option.map Matcher.lower) found).symm
    · next missing => exact (congrArg (Option.map Matcher.lower) missing).symm

end RuleCache

end Lockstep
