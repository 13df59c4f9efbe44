import Lockstep.Proofs.Grouping
import Mathlib.Data.List.DropRight
import Mathlib.Data.Nat.PSub
import Mathlib.Order.Bounds.Basic

set_option autoImplicit false

namespace Lockstep

namespace Trail

/-- All trails end with the same `n` names, each after another name. -/
structure Share (ts : List Trail) (n : Nat) : Prop where
  longer : ∀ t ∈ ts, n < t.length
  alike : ∀ t ∈ ts, ∀ u ∈ ts, t.rtake n = u.rtake n

def around? (t : Trail) (n : Nat) : Option String := do
  let last ← t.length.psub 1
  let place ← last.psub n
  t[place]?

/-- Counts on from `n` as long as all trails have the name that `first` has. It fails when there is
no name at a place that is read. -/
def countFrom? (ts : List Trail) (first : Trail) (shortest n : Nat) : Option Nat :=
  if n + 1 < shortest then do
    let name ← first.around? n
    let same ← ts.allM fun t => (· == name) <$> t.around? n
    if same then countFrom? ts first shortest (n + 1) else some n
  else some n
termination_by shortest - n

/-- Counts how many outermost names all trails share, as far as the shortest trail allows. -/
def count? (ts : List Trail) : Option Nat :=
  match (ts.map List.length).min? with
  | none => some 0
  | some shortest => do
    let first ← ts[0]?
    countFrom? ts first shortest 0

section Greatest

variable {ts us : List Trail} {t : Trail} {n k : Nat}

theorem rtake_eq_iff {t u : Trail} : t.rtake n = u.rtake n ↔ t.reverse.take n = u.reverse.take n := by
  rw [List.rtake_eq_reverse_take_reverse, List.rtake_eq_reverse_take_reverse, List.reverse_inj]

theorem Share.mono (h : Share ts n) (le : k ≤ n) : Share ts k := by
  refine ⟨fun t mem => Nat.lt_of_le_of_lt le (h.longer t mem), fun t memT u memU => ?_⟩
  have longer := rtake_eq_iff.mp (h.alike t memT u memU)
  have fewer := congrArg (List.take k) longer
  rw [List.take_take, List.take_take, Nat.min_eq_left le] at fewer
  exact rtake_eq_iff.mpr fewer

theorem share_shared (named : [] ∉ ts) : Share ts (shared ts) := by
  refine ⟨fun t mem => ?_, fun t memT u memU => rtake_eq_iff.mpr (takes_alike memT memU)⟩
  have le := shared_le mem
  have pos : 0 < t.length := List.length_pos_iff.mpr fun empty => named (empty ▸ mem)
  omega

theorem Share.le_shared (h : Share ts n) (mem : t ∈ ts) : n ≤ shared ts := by
  have length : (t.rtake n).length = n := by
    have longer := h.longer t mem
    rw [List.rtake, List.length_drop]
    omega
  have within : (t.rtake n).length ≤ shared ts := by
    refine length_le_shared mem fun u memU => ⟨?_, fun same => ?_⟩
    · rw [h.alike t mem u memU]
      exact List.drop_suffix _ u
    · have longer := h.longer u memU
      rw [← same, length] at longer
      exact Nat.lt_irrefl n longer
  rwa [length] at within

theorem isGreatest_shared (some : t ∈ ts) (named : [] ∉ ts) : IsGreatest {n | Share ts n} (shared ts) :=
  ⟨share_shared named, fun _ h => h.le_shared some⟩

theorem shared_eq_zero (h : ts = [] ∨ [] ∈ ts) : shared ts = 0 := by
  rcases h with rfl | empty
  · rfl
  · exact Nat.le_zero.mp (shared_le empty)

theorem Share.of_subset (h : Share ts n) (sub : us ⊆ ts) : Share us n :=
  ⟨fun t mem => h.longer t (sub mem), fun t memT u memU => h.alike t (sub memT) u (sub memU)⟩

/-- With fewer trails no fewer names are shared. -/
theorem shared_le_of_subset (sub : us ⊆ ts) (some : t ∈ us) : shared ts ≤ shared us := by
  by_cases empty : [] ∈ ts
  · rw [shared_eq_zero (.inr empty)]
    exact Nat.zero_le _
  · exact ((share_shared empty).of_subset sub).le_shared some

theorem shared_congr (same : ∀ t, t ∈ us ↔ t ∈ ts) : shared us = shared ts := by
  cases us with
  | nil =>
    have none : ts = [] := List.eq_nil_iff_forall_not_mem.mpr fun t mem => nomatch (same t).mpr mem
    rw [none]
  | cons u us =>
    have mem : u ∈ ts := (same u).mp List.mem_cons_self
    exact Nat.le_antisymm (shared_le_of_subset (fun t => (same t).mpr) mem)
      (shared_le_of_subset (fun t => (same t).mp) List.mem_cons_self)

theorem head?_dropOuter (mem : t ∈ ts) : (t.dropOuter (shared ts)).head? = t.head? := by
  have le := shared_le mem
  cases t with
  | nil => exact congrArg List.head? List.take_nil
  | cons name outer =>
    have keeps : (name :: outer).length - shared ts = outer.length - shared ts + 1 := by
      rw [List.length_cons] at le ⊢
      omega
    rw [dropOuter, keeps, List.take_succ_cons]
    rfl

end Greatest

section Count

variable {ts : List Trail} {t first : Trail} {n shortest : Nat} {name : String}

theorem exists_around (longer : n < t.length) :
    ∃ name, t.around? n = some name ∧ t.rtake (n + 1) = name :: t.rtake n := by
  have last : t.length.psub 1 = some (t.length - 1) := Nat.psub_eq_sub (by omega)
  have place : (t.length - 1).psub n = some (t.length - 1 - n) := Nat.psub_eq_sub (by omega)
  have inside : t.length - 1 - n < t.length := by omega
  refine ⟨t[t.length - 1 - n], ?_, ?_⟩
  · simp only [around?, last, place, Option.bind_eq_bind, Option.bind_some]
    exact List.getElem?_eq_getElem inside
  · have next : t.length - 1 - n + 1 = t.length - n := by omega
    rw [List.rtake, List.rtake, ← next, ← List.drop_eq_getElem_cons inside]
    congr 1
    omega

/-- One more name is shared if all trails have the same one there. -/
theorem share_succ_iff (h : Share ts n) (mem : first ∈ ts) (found : first.around? n = some name)
    (longer : ∀ t ∈ ts, n + 1 < t.length) :
    Share ts (n + 1) ↔ ∀ t ∈ ts, t.around? n = some name := by
  have next : ∀ t ∈ ts, ∃ name, t.around? n = some name ∧ t.rtake (n + 1) = name :: t.rtake n :=
    fun t memT => exists_around (h.longer t memT)
  constructor
  · intro more t memT
    obtain ⟨_, found', ends⟩ := next first mem
    obtain rfl := Option.some.inj (found.symm.trans found')
    obtain ⟨other, there, ends'⟩ := next t memT
    have same := more.alike t memT first mem
    rw [ends, ends'] at same
    rw [there, (List.cons.inj same).1]
  · intro same
    have ends : ∀ t ∈ ts, t.rtake (n + 1) = name :: t.rtake n := by
      intro t memT
      obtain ⟨other, there, ends⟩ := next t memT
      obtain rfl := Option.some.inj ((same t memT).symm.trans there)
      exact ends
    refine ⟨longer, fun t memT u memU => ?_⟩
    rw [ends t memT, ends u memU, h.alike t memT u memU]

theorem allM_around (longer : ∀ t ∈ ts, n < t.length) :
    (ts.allM fun t => (· == name) <$> t.around? n) =
      some (decide (∀ t ∈ ts, t.around? n = some name)) := by
  induction ts with
  | nil => rfl
  | cons t ts ih =>
    obtain ⟨here, later⟩ := List.forall_mem_cons.mp longer
    obtain ⟨other, there, -⟩ := exists_around here
    rw [List.allM, there, Option.map_eq_map, Option.map_some, Option.bind_eq_bind, Option.bind_some]
    by_cases same : other = name
    · have all_iff : (∀ u ∈ t :: ts, u.around? n = some name) ↔ ∀ u ∈ ts, u.around? n = some name := by
        rw [List.forall_mem_cons, there, same]
        exact and_iff_right rfl
      rw [same, beq_self_eq_true, decide_eq_decide.mpr all_iff]
      exact ih later
    · have differs : ¬∀ u ∈ t :: ts, u.around? n = some name := fun all =>
        same (Option.some.inj (there.symm.trans (all t List.mem_cons_self)))
      rw [beq_false_of_ne same, decide_eq_false differs]
      rfl

theorem countFrom?_eq (mem : first ∈ ts) (least : ∀ t ∈ ts, shortest ≤ t.length)
    (attained : ∃ t ∈ ts, t.length = shortest) (le : n ≤ shared ts) :
    countFrom? ts first shortest n = some (shared ts) := by
  -- By the rounds of the loop; what is counted never exceeds what is shared.
  fun_induction countFrom? ts first shortest n with
  | case1 n more ih =>
    have longer : ∀ t ∈ ts, n + 1 < t.length := fun t memT => Nat.lt_of_lt_of_le more (least t memT)
    have named : [] ∉ ts := fun empty => Nat.not_lt_zero _ (longer [] empty)
    have shares := (share_shared named).mono le
    have step_iff : ∀ {name}, first.around? n = some name →
        (Share ts (n + 1) ↔ ∀ t ∈ ts, t.around? n = some name) :=
      fun found => share_succ_iff shares mem found longer
    obtain ⟨name, found, -⟩ := exists_around (shares.longer first mem)
    rw [found, Option.bind_eq_bind, Option.bind_some, allM_around shares.longer,
      Option.bind_eq_bind, Option.bind_some]
    by_cases same : ∀ t ∈ ts, t.around? n = some name
    · rw [if_pos (decide_eq_true same)]
      exact ih (((step_iff found).mpr same).le_shared mem)
    · have stops : ¬n + 1 ≤ shared ts := fun more =>
        same ((step_iff found).mp ((share_shared named).mono more))
      rw [decide_eq_false same, Nat.le_antisymm le (Nat.le_of_not_lt stops)]
      rfl
  | case2 n more =>
    obtain ⟨t, memT, rfl⟩ := attained
    have bound := shared_le memT
    have same : n = shared ts := by omega
    rw [same]

theorem count?_eq (ts : List Trail) : count? ts = some (shared ts) := by
  rw [count?]
  split
  · next none =>
    rw [List.map_eq_nil_iff.mp (List.min?_eq_none_iff.mp none)]
    rfl
  · next shortest least =>
    obtain ⟨attained, least⟩ := List.min?_eq_some_iff.mp least
    obtain ⟨t, memT, length⟩ := List.mem_map.mp attained
    cases ts with
    | nil => cases memT
    | cons first rest =>
      exact countFrom?_eq List.mem_cons_self (List.forall_mem_map.mp least) ⟨t, memT, length⟩
        (Nat.zero_le _)

end Count

/-- If each trail has a name, the shared outer names are as many as all trails end with alike, each
after another name, and no more; else there are none. Their number depends only on which trails there
are, and counting them reads no trail past its ends. Without them the trails are still different from
one another and each keeps its innermost name. -/
theorem shared_is_greatest (ts : List Trail) :
    (ts ≠ [] → [] ∉ ts → IsGreatest {n | Share ts n} (shared ts)) ∧
    (ts = [] ∨ [] ∈ ts → shared ts = 0) ∧
    (∀ us : List Trail, (∀ t, t ∈ us ↔ t ∈ ts) → shared us = shared ts) ∧
    count? ts = some (shared ts) ∧
    (∀ t ∈ ts, (t.length.psub (shared ts)).map (fun n => t.take n) =
      some (t.dropOuter (shared ts))) ∧
    (∀ t ∈ ts, ∀ u ∈ ts, t.dropOuter (shared ts) = u.dropOuter (shared ts) → t = u) ∧
    ∀ t ∈ ts, (t.dropOuter (shared ts)).head? = t.head? := by
  refine ⟨fun some named => ?_, shared_eq_zero, fun _ => shared_congr, count?_eq ts, fun t mem => ?_,
    fun _ memT _ memU => dropOuter_inj memT memU, fun _ => head?_dropOuter⟩
  · obtain ⟨t, mem⟩ := List.exists_mem_of_ne_nil ts some
    exact isGreatest_shared mem named
  · have le : shared ts ≤ t.length := Nat.le_trans (shared_le mem) (Nat.sub_le _ 1)
    rw [Nat.psub_eq_sub le]
    rfl

theorem item_and_list_share_program :
    let ts : List Trail := [["item", "list", "program"], ["list", "program"]]
    IsGreatest {n | Share ts n} 1 ∧ count? ts = some 1 ∧
      shared (["list", "program"] :: ts.reverse) = 1 := by
  intro ts
  obtain ⟨greatest, -, alike, counted, -⟩ := shared_is_greatest ts
  have one : shared ts = 1 := by decide
  have again : ["list", "program"] ∈ ts := by decide
  rw [one] at greatest alike counted
  refine ⟨greatest (by decide) (by decide), counted, alike _ fun t => ?_⟩
  rw [List.mem_cons, List.mem_reverse]
  exact or_iff_right_of_imp fun same => same ▸ again

end Trail

end Lockstep
