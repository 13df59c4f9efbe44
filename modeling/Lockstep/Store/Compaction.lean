import Lockstep.Store.Basic

set_option autoImplicit false

namespace Lockstep

namespace Progress

def links : Progress → List Nat
  | .entered => []
  | .extended previous (.built _) => [previous]
  | .extended previous (.deferred inner) => [previous, inner]

def rename (f : Nat → Nat) : Progress → Progress
  | .entered => .entered
  | .extended previous (.built capture) => .extended (f previous) (.built capture)
  | .extended previous (.deferred inner) => .extended (f previous) (.deferred (f inner))

end Progress

namespace Node

def links (n : Node) : List Nat := n.parent?.toList ++ n.resume?.toList ++ n.progress.links

def rename (f : Nat → Nat) (n : Node) : Node :=
  { n with parent? := n.parent?.map f, resume? := n.resume?.map f, progress := n.progress.rename f }

end Node

namespace Store

def linksAt (s : Store) (id : Nat) : List Nat := (s.nodes[id]?.map Node.links).getD []

theorem count_setIfInBounds_lt {live : Array Bool} {id : Nat} (h : live[id]? = some false) :
    (live.setIfInBounds id true).count false < live.count false := by
  obtain ⟨lt, eq⟩ := Array.getElem?_eq_some_iff.mp h
  have pos : 0 < live.count false := Array.count_pos_iff.mpr (eq ▸ Array.getElem_mem lt)
  rw [Array.setIfInBounds, dif_pos lt, Array.count_set lt, eq]
  change live.count false - 1 + 0 < live.count false
  omega

/-- Marks all that is seen from `todo` without passing a marked node. -/
def spread (s : Store) (live : Array Bool) : (todo : List Nat) → Array Bool
  | [] => live
  | id :: todo =>
    if _unmarked : live[id]? = some false then
      s.spread (live.setIfInBounds id true) (s.linksAt id ++ todo)
    else s.spread live todo
termination_by todo => (live.count false, todo.length)
decreasing_by
  · exact Prod.Lex.left _ _ (count_setIfInBounds_lt _unmarked)
  · exact Prod.Lex.right _ (Nat.lt_succ_self _)

def liveFrom (s : Store) (roots : List Nat) : Array Bool :=
  s.spread (Array.replicate s.size false) roots

def isIntact (s : Store) (roots : List Nat) : Bool :=
  s.liveFrom roots |>.zipIdx.all fun (alive, id) => !alive || (s.linksAt id).all (· < s.size)

/-- For each entry, how many entries before it are set. -/
def ranks (live : Array Bool) : Array Nat :=
  (live.foldl (fun (ranks, n) alive => (ranks.push n, if alive then n + 1 else n)) (#[], 0)).1

/-- The store without the nodes that `roots` cannot see, and the new places of the others. A slot
that went to a node not older than its own goes to the first node afterwards. -/
def compact (s : Store) (roots : List Nat) : Store × (Nat → Nat) :=
  let live := s.liveFrom roots
  let moved := ranks live
  let place := fun id => moved.getD id 0
  let nodes := s.nodes.zipIdx.filterMap fun (n, id) =>
    if live.getD id false then some (n.rename fun link => if link < id then place link else 0)
    else none
  ({ s with nodes }, place)

end Store

end Lockstep
