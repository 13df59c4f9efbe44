import Lockstep.Proofs.Store.Growth
import Lockstep.Store.Compaction

set_option autoImplicit false

namespace Lockstep.Store

section Marking

variable (s : Store)

theorem size_spread (live : Array Bool) (todo : List Nat) :
    (s.spread live todo).size = live.size := by
  fun_induction spread s live todo with
  | case1 live => rfl
  | case2 live id todo unmarked ih => rw [ih, Array.size_setIfInBounds]
  | case3 live id todo marked ih => exact ih

/-- What was marked stays marked, and all that was to be marked is. -/
theorem spread_marks (live : Array Bool) (todo : List Nat) {i : Nat}
    (h : live[i]? = some true ∨ i ∈ todo ∧ i < live.size) :
    (s.spread live todo)[i]? = some true := by
  fun_induction spread s live todo with
  | case1 live =>
    rcases h with marked | ⟨absent, -⟩
    · exact marked
    · cases absent
  | case2 live id todo unmarked ih =>
    apply ih
    by_cases same : i = id
    · subst same
      have inside := (Array.getElem?_eq_some_iff.mp unmarked).choose
      exact .inl (Array.getElem?_setIfInBounds_self_of_lt inside)
    · rcases h with marked | ⟨mem, inside⟩
      · exact .inl (by rw [Array.getElem?_setIfInBounds_ne (fun eq => same eq.symm), marked])
      · refine .inr ⟨?_, by rwa [Array.size_setIfInBounds]⟩
        exact List.mem_append_right _ ((List.mem_cons.mp mem).resolve_left same)
  | case3 live id todo marked ih =>
    apply ih
    rcases h with marked | ⟨mem, inside⟩
    · exact .inl marked
    · rcases List.mem_cons.mp mem with same | later
      · subst same
        rw [Array.getElem?_eq_getElem inside] at marked ⊢
        exact .inl (by simpa using marked)
      · exact .inr ⟨later, inside⟩

/-- Marks that are closed under links but for what is still to be marked become closed. -/
theorem spread_closed (live : Array Bool) (todo : List Nat)
    (closed : ∀ i, live[i]? = some true → ∀ l ∈ s.linksAt i, l < live.size →
      live[l]? = some true ∨ l ∈ todo) :
    ∀ i, (s.spread live todo)[i]? = some true → ∀ l ∈ s.linksAt i, l < live.size →
      (s.spread live todo)[l]? = some true := by
  fun_induction spread s live todo with
  | case1 live =>
    intro i marked l link inside
    exact (closed i marked l link inside).resolve_right (List.not_mem_nil)
  | case2 live id todo unmarked ih =>
    have idInside := (Array.getElem?_eq_some_iff.mp unmarked).choose
    rw [Array.size_setIfInBounds] at ih
    apply ih
    intro i marked l link inside
    by_cases same : i = id
    · subst same
      exact .inr (List.mem_append_left _ link)
    · rw [Array.getElem?_setIfInBounds_ne (fun eq => same eq.symm)] at marked
      by_cases sameLink : l = id
      · subst sameLink
        exact .inl (Array.getElem?_setIfInBounds_self_of_lt idInside)
      · rw [Array.getElem?_setIfInBounds_ne (fun eq => sameLink eq.symm)]
        rcases closed i marked l link inside with already | later
        · exact .inl already
        · exact .inr (List.mem_append_right _ ((List.mem_cons.mp later).resolve_left sameLink))
  | case3 live id todo marked ih =>
    apply ih
    intro i markedI l link inside
    rcases closed i markedI l link inside with already | later
    · exact .inl already
    · rcases List.mem_cons.mp later with same | later
      · subst same
        rw [Array.getElem?_eq_getElem inside] at marked ⊢
        exact .inl (by simpa using marked)
      · exact .inr later

def Live (roots : List Nat) (id : Nat) : Prop := (s.liveFrom roots)[id]? = some true

theorem size_liveFrom (roots : List Nat) : (s.liveFrom roots).size = s.size := by
  rw [liveFrom, size_spread, Array.size_replicate]

theorem Live.lt_size {s : Store} {roots : List Nat} {id : Nat} (alive : s.Live roots id) :
    id < s.size := by
  rw [← size_liveFrom s roots]
  exact (Array.getElem?_eq_some_iff.mp alive).choose

theorem live_iff_getD {roots : List Nat} {id : Nat} :
    s.Live roots id ↔ (s.liveFrom roots).getD id false = true := by
  rw [Live, Array.getD_eq_getD_getElem?]
  cases (s.liveFrom roots)[id]? <;> simp

theorem live_root {roots : List Nat} {id : Nat} (root : id ∈ roots) (inside : id < s.size) :
    s.Live roots id := by
  exact spread_marks s _ roots (.inr ⟨root, by rwa [Array.size_replicate]⟩)

theorem live_link {roots : List Nat} {id l : Nat} {n : Node} (alive : s.Live roots id)
    (found : s.nodes[id]? = some n) (link : l ∈ n.links) (inside : l < s.size) :
    s.Live roots l := by
  have unmarked : ∀ i : Nat, (Array.replicate s.size false)[i]? = some true → False := by
    intro i marked
    simp only [Array.getElem?_replicate] at marked
    split at marked <;> cases marked
  have links : s.linksAt id = n.links := by
    simp only [linksAt, found, Option.map_some, Option.getD_some]
  apply spread_closed s _ roots _ id alive l (links ▸ link)
  · rwa [Array.size_replicate]
  · intro i marked
    exact (unmarked i marked).elim

end Marking

section Places

def rank (live : Array Bool) (i : Nat) : Nat :=
  (List.range' 0 i).countP fun j => live.getD j false

theorem rank_succ (live : Array Bool) (i : Nat) :
    rank live (i + 1) = rank live i + if live.getD i false then 1 else 0 := by
  rw [rank, List.range'_concat, List.countP_append, List.countP_singleton, rank]
  simp only [Nat.zero_add, Nat.one_mul]

/-- `r` holds the ranks of the first `k` nodes and counts the marks of them that are set. -/
def RanksUpTo (live : Array Bool) (k : Nat) (r : Array Nat × Nat) : Prop :=
  r.1.size = k ∧ r.2 = rank live k ∧ ∀ j < k, r.1[j]? = some (rank live j)

theorem ranks_eq (live : Array Bool) {i : Nat} (inside : i < live.size) :
    (ranks live)[i]? = some (rank live i) := by
  rw [ranks]
  refine (Array.foldl_induction (RanksUpTo live) ?_ ?_).2.2 i inside
  · exact ⟨rfl, rfl, fun j lt => absurd lt (Nat.not_lt_zero j)⟩
  · rintro k ⟨r, n⟩ ⟨size, total, earlier⟩
    simp only at size total earlier
    have bit : live.getD k.val false = live[k] := by
      simp only [Array.getD_eq_getD_getElem?, Array.getElem?_eq_getElem k.isLt,
        Option.getD_some, Fin.getElem_fin]
    refine ⟨by simp only [Array.size_push, size], ?_, ?_⟩
    · rw [rank_succ, ← total, bit]
      simp only
      split <;> rfl
    · intro j lt
      by_cases last : j = k.val
      · subst last
        rw [← total, ← size, Array.getElem?_push_size]
      · have old : j < k.val := by omega
        rw [Array.getElem?_push_lt (by omega), ← earlier j old, Array.getElem?_eq_getElem]

theorem rank_lt {live : Array Bool} {a b : Nat} (alive : live[a]? = some true) (lt : a < b) :
    rank live a < rank live b := by
  have grows : ∀ k, rank live (a + 1) ≤ rank live (a + 1 + k) := by
    intro k
    induction k with
    | zero => exact Nat.le_refl _
    | succ k ih =>
      have next := rank_succ live (a + 1 + k)
      rw [← Nat.add_assoc]
      omega
  have here := rank_succ live a
  rw [Array.getD_eq_getD_getElem?, alive, Option.getD_some, if_pos rfl] at here
  have later := grows (b - (a + 1))
  rw [Nat.add_sub_cancel' lt] at later
  omega

variable {α β : Type} (keep : Nat → Bool) (f : α → Nat → β)

def kept (xs : List α) (k : Nat) : List β :=
  (xs.zipIdx k).filterMap fun p => if keep p.2 then some (f p.1 p.2) else none

theorem kept_cons (x : α) (xs : List α) (k : Nat) :
    kept keep f (x :: xs) k =
      if keep k then f x k :: kept keep f xs (k + 1) else kept keep f xs (k + 1) := by
  rw [kept, List.zipIdx_cons, List.filterMap_cons, kept]
  split <;> simp_all

theorem kept_getElem? (xs : List α) (k : Nat) {i : Nat} {x : α} (found : xs[i]? = some x)
    (keeps : keep (k + i) = true) :
    (kept keep f xs k)[(List.range' k i).countP keep]? = some (f x (k + i)) := by
  induction xs generalizing k i with
  | nil => cases found
  | cons y ys ih =>
    rw [kept_cons]
    cases i with
    | zero =>
      cases found
      rw [Nat.add_zero] at keeps
      simp [keeps]
    | succ i =>
      have later := ih (k + 1) found (by rwa [Nat.add_right_comm])
      rw [Nat.add_right_comm k 1 i] at later
      rw [List.range'_succ, List.countP_cons]
      by_cases here : keep k = true
      · rw [if_pos here, if_pos here, List.getElem?_cons_succ]
        exact later
      · rw [if_neg here, if_neg here]
        exact later

theorem exists_of_kept (xs : List α) (k : Nat) {j : Nat} {y : β}
    (found : (kept keep f xs k)[j]? = some y) :
    ∃ i x, xs[i]? = some x ∧ keep (k + i) = true ∧ y = f x (k + i) ∧
      j = (List.range' k i).countP keep := by
  induction xs generalizing k j with
  | nil => cases found
  | cons x xs ih =>
    rw [kept_cons] at found
    by_cases here : keep k = true
    · rw [if_pos here] at found
      cases j with
      | zero =>
        cases found
        exact ⟨0, x, rfl, here, rfl, rfl⟩
      | succ j =>
        obtain ⟨i, z, foundZ, keeps, same, count⟩ := ih (k + 1) found
        refine ⟨i + 1, z, foundZ, by rwa [Nat.add_right_comm] at keeps, ?_, ?_⟩
        · rw [same, Nat.add_right_comm]
          rfl
        · rw [List.range'_succ, List.countP_cons, if_pos here, count]
    · rw [if_neg here] at found
      obtain ⟨i, z, foundZ, keeps, same, count⟩ := ih (k + 1) found
      refine ⟨i + 1, z, foundZ, by rwa [Nat.add_right_comm] at keeps, ?_, ?_⟩
      · rw [same, Nat.add_right_comm]
        rfl
      · rw [List.range'_succ, List.countP_cons, if_neg here, count]
        rfl

end Places

section Compact

variable (s : Store) (roots : List Nat)

def relink (id link : Nat) : Nat := if link < id then (s.compact roots).2 link else 0

theorem toList_compact :
    (s.compact roots).1.nodes.toList =
      kept (fun i => (s.liveFrom roots).getD i false) (fun n id => n.rename (s.relink roots id))
        s.nodes.toList 0 := by
  rw [compact, kept, Array.toList_filterMap, Array.toList_zipIdx]
  rfl

theorem place_eq {s : Store} {roots : List Nat} {id : Nat} (alive : s.Live roots id) :
    (s.compact roots).2 id = rank (s.liveFrom roots) id := by
  have inside : id < (s.liveFrom roots).size := (Array.getElem?_eq_some_iff.mp alive).choose
  simp only [compact, Array.getD_eq_getD_getElem?, ranks_eq _ inside, Option.getD_some]

theorem map_relink {id : Nat} {link? : Option Nat} (older : ∀ l, link? = some l → l < id) :
    link?.map (s.relink roots id) = link?.map (s.compact roots).2 := by
  cases link? with
  | none => rfl
  | some l => simp only [Option.map_some, relink, older l rfl, ↓reduceIte]

theorem rename_carried (sound : s.Sound) {id : Nat} {n : Node} (alive : s.Live roots id)
    (found : s.nodes[id]? = some n) :
    n.Carried s (s.Live roots) (s.compact roots).2 (n.rename (s.relink roots id)) := by
  have nodeSound := sound id n found
  have inside := lt_size found
  have aliveLink : ∀ l, l ∈ n.links → l < id → s.Live roots l := fun l link older =>
    live_link s alive found link (Nat.lt_trans older inside)
  refine ⟨?_, map_relink s roots nodeSound.parent_lt, ?_, rfl, rfl, ?_⟩
  · intro p same
    exact aliveLink p (by simp [Node.links, same]) (nodeSound.parent_lt p same)
  · exact map_relink s roots fun r same => resume_lt sound found same
  · have progress := nodeSound.progress
    have links : ∀ l, l ∈ n.progress.links → l ∈ n.links := fun l link =>
      List.mem_append_right _ link
    cases h : n.progress with
    | entered =>
      simp only [Node.rename, h, Progress.rename]
      exact .entered
    | extended previous slot =>
      rw [h] at progress links
      obtain ⟨older, slotSound, -⟩ := progress
      simp only [Node.rename, h]
      cases slot with
      | built capture =>
        simp only [Progress.rename, relink, older, ↓reduceIte]
        exact .extended (aliveLink previous (links previous (by simp [Progress.links])) older)
          (.built capture)
      | deferred inner =>
        have olderInner : inner < id := slotSound
        simp only [Progress.rename, relink, older, olderInner, ↓reduceIte]
        exact .extended (aliveLink previous (links previous (by simp [Progress.links])) older)
          (.deferred (aliveLink inner (links inner (by simp [Progress.links])) olderInner))

theorem compact_carried (sound : s.Sound) :
    s.Carried (s.Live roots) (s.compact roots).2 (s.compact roots).1 := by
  refine ⟨?_, ?_⟩
  · intro a b aliveA aliveB lt
    rw [place_eq aliveA, place_eq aliveB]
    exact rank_lt aliveA lt
  · intro id alive
    obtain ⟨n, found⟩ := exists_node alive.lt_size
    refine ⟨n, n.rename (s.relink roots id), found, ?_, rename_carried s roots sound alive found⟩
    have keeps : (s.liveFrom roots).getD (0 + id) false = true := by
      rw [Nat.zero_add]
      exact s.live_iff_getD.mp alive
    have there := kept_getElem? (fun i => (s.liveFrom roots).getD i false)
      (fun n id => n.rename (s.relink roots id)) s.nodes.toList 0
      (by rw [Array.getElem?_toList]; exact found) keeps
    rw [← toList_compact, Array.getElem?_toList, Nat.zero_add] at there
    rw [place_eq alive]
    exact there

/-- Every node of the new store is the image of a live one. -/
theorem exists_live_of_compact {j : Nat} {n' : Node}
    (found' : (s.compact roots).1.nodes[j]? = some n') :
    ∃ id n, s.Live roots id ∧ s.nodes[id]? = some n ∧ n' = n.rename (s.relink roots id) ∧
      j = (s.compact roots).2 id := by
  rw [← Array.getElem?_toList, toList_compact] at found'
  obtain ⟨id, n, found, keeps, same, place⟩ := exists_of_kept _ _ _ _ found'
  rw [Array.getElem?_toList] at found
  rw [Nat.zero_add] at keeps same
  have alive : s.Live roots id := s.live_iff_getD.mpr keeps
  exact ⟨id, n, alive, found, same, place.trans (place_eq alive).symm⟩

theorem compact_sound (sound : s.Sound) : (s.compact roots).1.Sound := by
  intro j n' found'
  obtain ⟨id, n, alive, found, rfl, rfl⟩ := exists_live_of_compact s roots found'
  exact (compact_carried s roots sound).nodeSound sound alive found
    (rename_carried s roots sound alive found)

/-- The frames at a root are found at its new place. -/
theorem frames_compact (sound : s.Sound) {id : Nat} (root : id ∈ roots) (inside : id < s.size) :
    (s.compact roots).1.frames ((s.compact roots).2 id) = s.frames id :=
  (compact_carried s roots sound).frames_eq sound (live_root s root inside)

end Compact

end Lockstep.Store
