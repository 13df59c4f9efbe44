import Lockstep.Proofs.Store.Checked

set_option autoImplicit false

namespace Lockstep

def lookUp (moved : Array Nat) (id : Nat) : Except Fault Nat :=
  match moved[id]? with
  | some place => .ok place
  | none => .error (.outside id)

def Progress.relocate (moved : Array Nat) : Progress → Except Fault Progress
  | .entered => .ok .entered
  | .extended previous (.built capture) => do
    let previous ← lookUp moved previous
    .ok (.extended previous (.built capture))
  | .extended previous (.deferred inner) => do
    let previous ← lookUp moved previous
    let inner ← lookUp moved inner
    .ok (.extended previous (.deferred inner))

def Node.relocate (moved : Array Nat) (n : Node) : Except Fault Node := do
  let parent? ← n.parent?.mapM (lookUp moved)
  let progress ← n.progress.relocate moved
  let resume? ← n.resume?.mapM (lookUp moved)
  .ok { n with parent?, progress, resume? }

namespace Store

def markFrom (s : Store) (live : Array Bool) : (todo : List Nat) → Except Fault (Array Bool)
  | [] => .ok live
  | id :: todo =>
    if _unmarked : live[id]? = some false then do
      let n ← s.node id
      s.markFrom (live.setIfInBounds id true) (n.links ++ todo)
    else if live[id]? = none then .error (.outside id)
    else s.markFrom live todo
termination_by todo => (live.count false, todo.length)
decreasing_by
  · exact Prod.Lex.left _ _ (count_setIfInBounds_lt _unmarked)
  · exact Prod.Lex.right _ (Nat.lt_succ_self _)

end Store

structure Moving where
  moved : Array Nat
  cells : Array (Node × Option Nat) := #[]

namespace Moving

/-- Moves the node `n` at `id`, whose slot was made with `inner?`, if it is marked. -/
def step (live : Array Bool) (m : Moving) (id : Nat) (n : Node) (inner? : Option Nat) :
    Except Fault Moving :=
  match live[id]? with
  | none => .error (.outside id)
  | some false => .ok m
  | some true => do
    let n ← n.relocate m.moved
    let inner? ← inner?.mapM (lookUp m.moved)
    if id < m.moved.size then
      .ok ⟨m.moved.setIfInBounds id m.cells.size, m.cells.push (n, inner?)⟩
    else .error (.outside id)

def run (live : Array Bool) (m : Moving) (id : Nat) : List (Node × Option Nat) → Except Fault Moving
  | [] => .ok m
  | (n, inner?) :: rest => do
    let m ← m.step live id n inner?
    m.run live (id + 1) rest

end Moving

open Store (rank kept)

theorem mapM_eq_ok {α β : Type} {f : α → Except Fault β} {g : α → β} {xs : List α}
    (each : ∀ x ∈ xs, f x = .ok (g x)) : xs.mapM f = .ok (xs.map g) := by
  induction xs with
  | nil => rfl
  | cons x xs ih =>
    have later := ih fun y mem => each y (List.mem_cons_of_mem x mem)
    rw [List.mapM_cons, each x List.mem_cons_self, later]
    rfl

theorem lookUp_eq {moved : Array Nat} {id : Nat} (inside : id < moved.size) :
    lookUp moved id = .ok (moved.getD id 0) := by
  rw [lookUp, Array.getD_eq_getD_getElem?, Array.getElem?_eq_getElem inside]
  rfl

theorem mapM_lookUp_eq {moved : Array Nat} {id? : Option Nat}
    (inside : ∀ id, id? = some id → id < moved.size) :
    id?.mapM (lookUp moved) = .ok (id?.map fun id => moved.getD id 0) := by
  cases id? with
  | none => rfl
  | some id =>
    rw [Option.mapM_some, lookUp_eq (inside id rfl)]
    rfl

theorem Progress.relocate_eq {moved : Array Nat} {p : Progress}
    (inside : ∀ l ∈ p.links, l < moved.size) :
    p.relocate moved = .ok (p.rename fun l => moved.getD l 0) := by
  cases p with
  | entered => rfl
  | extended previous slot =>
    cases slot with
    | built capture =>
      rw [relocate, lookUp_eq (inside previous List.mem_cons_self)]
      rfl
    | deferred inner =>
      rw [relocate, lookUp_eq (inside previous List.mem_cons_self),
        lookUp_eq (inside inner (List.mem_cons_of_mem _ List.mem_cons_self))]
      rfl

theorem Node.relocate_eq {moved : Array Nat} {n : Node} (inside : ∀ l ∈ n.links, l < moved.size) :
    n.relocate moved = .ok (n.rename fun l => moved.getD l 0) := by
  have parent : ∀ p, n.parent? = some p → p < moved.size := fun p same =>
    inside p (by simp [links, same])
  have resume : ∀ r, n.resume? = some r → r < moved.size := fun r same =>
    inside r (by simp [links, same])
  have progress : ∀ l ∈ n.progress.links, l < moved.size := fun l mem =>
    inside l (List.mem_append_right _ mem)
  rw [relocate, mapM_lookUp_eq parent, Progress.relocate_eq progress, mapM_lookUp_eq resume]
  rfl

theorem Progress.eq_of_rename_entered {f : Nat → Nat} {p : Progress} (h : p.rename f = .entered) :
    p = .entered := by
  cases p with
  | entered => rfl
  | extended previous slot => cases slot <;> cases h

theorem Progress.of_rename_deferred {f : Nat → Nat} {p : Progress} {previous inner : Nat}
    (h : p.rename f = .extended previous (.deferred inner)) :
    ∃ previous' inner', p = .extended previous' (.deferred inner') ∧ f inner' = inner := by
  cases p with
  | entered => cases h
  | extended previous' slot =>
    cases slot with
    | built capture => cases h
    | deferred inner' =>
      cases h
      exact ⟨previous', inner', rfl, rfl⟩

theorem Node.rename_congr {f g : Nat → Nat} {n : Node} (same : ∀ l ∈ n.links, f l = g l) :
    n.rename f = n.rename g := by
  have parent : n.parent?.map f = n.parent?.map g :=
    Option.map_congr fun p eq => same p (by simp [links, eq])
  have resume : n.resume?.map f = n.resume?.map g :=
    Option.map_congr fun r eq => same r (by simp [links, eq])
  have progress : n.progress.rename f = n.progress.rename g := by
    have same : ∀ l ∈ n.progress.links, f l = g l := fun l mem =>
      same l (List.mem_append_right _ mem)
    cases p : n.progress with
    | entered => rfl
    | extended previous slot =>
      rw [p] at same
      cases slot with
      | built capture => rw [Progress.rename, Progress.rename, same previous List.mem_cons_self]
      | deferred inner =>
        rw [Progress.rename, Progress.rename, same previous List.mem_cons_self,
          same inner (List.mem_cons_of_mem _ List.mem_cons_self)]
  rw [rename, rename, parent, resume, progress]

theorem Store.markFrom_eq {s : Store}
    (inside : ∀ (id : Nat) (n : Node), s.nodes[id]? = some n → ∀ l ∈ n.links, l < s.size)
    {live : Array Bool} (size : live.size = s.size) {todo : List Nat}
    (due : ∀ id ∈ todo, id < s.size) : s.markFrom live todo = .ok (s.spread live todo) := by
  fun_induction Store.spread s live todo with
  | case1 live => rw [markFrom]
  | case2 live id todo unmarked ih =>
    obtain ⟨n, found⟩ := exists_node (due id List.mem_cons_self)
    have links : s.linksAt id = n.links := by
      simp only [linksAt, found, Option.map_some, Option.getD_some]
    rw [links] at ih
    rw [markFrom, dif_pos unmarked, node_eq found]
    refine (ih ?_ ?_).trans (by rw [links])
    · rw [Array.size_setIfInBounds, size]
    · intro l mem
      rcases List.mem_append.mp mem with link | later
      · exact inside id n found l link
      · exact due l (List.mem_cons_of_mem id later)
  | case3 live id todo marked ih =>
    have here : live[id]? ≠ none := by
      have := due id List.mem_cons_self
      rw [Array.getElem?_eq_getElem (by omega)]
      exact Option.some_ne_none _
    rw [markFrom, dif_neg marked, if_neg here]
    exact ih size fun l mem => due l (List.mem_cons_of_mem id mem)

namespace Moving

/-- Where a link of the node at `id` goes: the nodes before it have been moved, the others not. -/
def placeBefore (live : Array Bool) (id l : Nat) : Nat :=
  if l < id ∧ live.getD l false = true then rank live l else 0

structure At (live : Array Bool) (m : Moving) (id : Nat) : Prop where
  size_eq : m.moved.size = live.size
  moved_eq : ∀ l, l < live.size → m.moved.getD l 0 = placeBefore live id l
  cells_size : m.cells.size = rank live id

def relinked (live : Array Bool) (cell : Node × Option Nat) (id : Nat) : Node × Option Nat :=
  (cell.1.rename (placeBefore live id), cell.2.map (placeBefore live id))

theorem placeBefore_succ {live : Array Bool} {id : Nat} (l : Nat) :
    placeBefore live (id + 1) l =
      if l = id ∧ live.getD id false = true then rank live id else placeBefore live id l := by
  unfold placeBefore
  by_cases here : l = id
  · subst here
    simp
  · have same : l < id + 1 ↔ l < id := by omega
    simp only [same, here, false_and, ↓reduceIte]

theorem At.moves {live : Array Bool} {m : Moving} {id : Nat} (h : m.At live id)
    (bound : id < live.size) {cell : Node × Option Nat} (links : ∀ l ∈ cell.1.links, l < live.size)
    (inner : ∀ inner, cell.2 = some inner → inner < live.size) :
    ∃ m', m.step live id cell.1 cell.2 = .ok m' ∧ m'.At live (id + 1) ∧
      m'.cells.toList = m.cells.toList ++
        if live.getD id false then [relinked live cell id] else [] := by
  obtain ⟨size_eq, moved_eq, cells_size⟩ := h
  have rank_eq := Store.rank_succ live id
  cases marked : live[id]? with
  | none =>
    rw [Array.getElem?_eq_getElem bound] at marked
    cases marked
  | some alive =>
    have mark : live.getD id false = alive := by
      rw [Array.getD_eq_getD_getElem?, marked]
      rfl
    rw [mark] at rank_eq ⊢
    cases alive with
    | false =>
      refine ⟨m, ?_, ⟨size_eq, ?_, ?_⟩, ?_⟩
      · simp only [step, marked]
      · intro l inside
        rw [placeBefore_succ, mark, moved_eq l inside]
        simp
      · rw [cells_size, rank_eq]
        rfl
      · simp
    | true =>
      have node : cell.1.relocate m.moved = .ok (cell.1.rename (placeBefore live id)) := by
        rw [Node.relocate_eq fun l mem => size_eq ▸ links l mem]
        exact congrArg _ (Node.rename_congr fun l mem => moved_eq l (links l mem))
      have slot : cell.2.mapM (lookUp m.moved) = .ok (cell.2.map (placeBefore live id)) := by
        rw [mapM_lookUp_eq fun l same => size_eq ▸ inner l same]
        exact congrArg _ (Option.map_congr fun l same => moved_eq l (inner l same))
      refine ⟨⟨m.moved.setIfInBounds id m.cells.size, m.cells.push (relinked live cell id)⟩, ?_,
        ⟨?_, ?_, ?_⟩, ?_⟩
      · simp only [step, marked, node, slot, bind, Except.bind, size_eq, bound, ↓reduceIte]
        rfl
      · rw [Array.size_setIfInBounds, size_eq]
      · intro l inside
        rw [placeBefore_succ, mark, cells_size]
        by_cases here : l = id
        · subst here
          simp [Array.getD_eq_getD_getElem?, size_eq, bound]
        · rw [if_neg fun both => here both.1, ← moved_eq l inside, Array.getD_eq_getD_getElem?,
            Array.getElem?_setIfInBounds_ne fun same => here same.symm, Array.getD_eq_getD_getElem?]
      · rw [Array.size_push, cells_size, rank_eq]
        rfl
      · simp

theorem run_eq {live : Array Bool} {rest : List (Node × Option Nat)} {m : Moving} {id : Nat}
    (h : m.At live id) (bound : id + rest.length ≤ live.size)
    (inside : ∀ cell ∈ rest, (∀ l ∈ cell.1.links, l < live.size) ∧
      ∀ inner, cell.2 = some inner → inner < live.size) :
    ∃ m', m.run live id rest = .ok m' ∧ m'.At live (id + rest.length) ∧
      m'.cells.toList =
        m.cells.toList ++ kept (fun i => live.getD i false) (relinked live) rest id := by
  induction rest generalizing m id with
  | nil => exact ⟨m, rfl, h, (List.append_nil _).symm⟩
  | cons cell rest ih =>
    rw [List.length_cons] at bound
    obtain ⟨links, inner⟩ := inside cell List.mem_cons_self
    obtain ⟨m', done, h', cells⟩ := h.moves (by omega) links inner
    obtain ⟨m'', later, h'', cells'⟩ := ih h' (by omega) fun cell mem =>
      inside cell (List.mem_cons_of_mem _ mem)
    refine ⟨m'', ?_, ?_, ?_⟩
    · rw [run, done]
      exact later
    · rw [List.length_cons, Nat.add_comm rest.length, ← Nat.add_assoc]
      exact h''
    · rw [cells', cells, Store.kept_cons, List.append_assoc]
      split <;> rfl

end Moving

theorem Store.map_kept {α β γ δ : Type} {keep : Nat → Bool} {f : α × β → Nat → γ} {g : α → Nat → δ}
    {h : γ → δ} (ps : List (α × β)) (k : Nat)
    (same : ∀ i p, ps[i]? = some p → keep (k + i) = true → h (f p (k + i)) = g p.1 (k + i)) :
    (kept keep f ps k).map h = kept keep g (ps.map Prod.fst) k := by
  induction ps generalizing k with
  | nil => rfl
  | cons p ps ih =>
    have later := ih (k + 1) fun i q found keeps => by
      rw [Nat.add_right_comm] at keeps ⊢
      exact same (i + 1) q found keeps
    rw [kept_cons, List.map_cons, kept_cons, apply_ite (List.map h), List.map_cons, later]
    by_cases here : keep k = true
    · rw [if_pos here, if_pos here]
      exact congrArg (· :: _) (same 0 p rfl here)
    · rw [if_neg here, if_neg here]

end Lockstep
