import Lockstep.Proofs.Outcome
import Mathlib.Data.List.Basic
import Mathlib.Data.List.Induction

set_option autoImplicit false

namespace Lockstep

/-- The second list has the members of the first, each at the place where it is first met. -/
inductive FirstSeen {α : Type} : List α → List α → Prop where
  | nil : FirstSeen [] []
  | new {xs ys : List α} {a : α} (h : FirstSeen xs ys) (unseen : a ∉ xs) :
    FirstSeen (xs ++ [a]) (ys ++ [a])
  | again {xs ys : List α} {a : α} (h : FirstSeen xs ys) (seen : a ∈ xs) : FirstSeen (xs ++ [a]) ys

section FirstSeen

variable {α β : Type} [BEq α] [LawfulBEq α] [BEq β] [LawfulBEq β]

theorem eraseDups_append_cons {xs ys : List α} {a : α} (seen : a ∈ xs) :
    (xs ++ a :: ys).eraseDups = (xs ++ ys).eraseDups := by
  rw [List.eraseDups_append, List.eraseDups_append, List.cons_removeAll, if_neg (by simp [seen])]

theorem eraseDups_concat {xs : List α} {a : α} (unseen : a ∉ xs) :
    (xs ++ [a]).eraseDups = xs.eraseDups ++ [a] := by
  rw [List.eraseDups_append, List.cons_removeAll, if_pos (by simp [unseen])]
  rfl

theorem firstSeen_eraseDups (xs : List α) : FirstSeen xs xs.eraseDups := by
  induction xs using List.reverseRecOn with
  | nil => exact .nil
  | append_singleton xs a ih =>
    by_cases seen : a ∈ xs
    · rw [eraseDups_append_cons seen, List.append_nil]
      exact ih.again seen
    · rw [eraseDups_concat seen]
      exact ih.new seen

theorem eraseDups_map {f : α → β} {xs : List α} (inj : ∀ a ∈ xs, ∀ b ∈ xs, f a = f b → a = b) :
    (xs.map f).eraseDups = xs.eraseDups.map f := by
  induction xs using List.reverseRecOn with
  | nil => rfl
  | append_singleton xs a ih =>
    have earlier := ih fun b memB c memC =>
      inj b (List.mem_append_left _ memB) c (List.mem_append_left _ memC)
    rw [List.map_append, List.map_singleton]
    by_cases seen : a ∈ xs
    · rw [eraseDups_append_cons seen, eraseDups_append_cons (List.mem_map_of_mem seen),
        List.append_nil, List.append_nil, earlier]
    · have unseen : f a ∉ xs.map f := by
        intro mem
        obtain ⟨b, memB, same⟩ := List.mem_map.mp mem
        have eq := inj b (List.mem_append_left _ memB) a (by simp) same
        exact seen (eq ▸ memB)
      rw [eraseDups_concat seen, eraseDups_concat unseen, earlier, List.map_append,
        List.map_singleton]

end FirstSeen

namespace Trail

theorem take_eq_of_le_commonFront {n : Nat} {xs ys : List String} (le : n ≤ commonFront xs ys) :
    xs.take n = ys.take n := by
  induction n generalizing xs ys with
  | zero => rfl
  | succ n ih =>
    match xs, ys with
    | [], ys => exact absurd le (Nat.not_succ_le_zero n)
    | _ :: _, [] => exact absurd le (Nat.not_succ_le_zero n)
    | x :: xs, y :: ys =>
      rw [commonFront] at le
      split at le
      · next same =>
        rw [List.take_succ_cons, List.take_succ_cons, same, ih (Nat.le_of_succ_le_succ le)]
      · cases le

theorem length_le_commonFront {front xs ys : List String} (left : front <+: xs)
    (right : front <+: ys) : front.length ≤ commonFront xs ys := by
  induction front generalizing xs ys with
  | nil => exact Nat.zero_le _
  | cons x front ih =>
    obtain ⟨xs, rfl⟩ := left
    obtain ⟨ys, rfl⟩ := right
    rw [List.cons_append, List.cons_append, commonFront, if_pos rfl, List.length_cons]
    exact Nat.succ_le_succ (ih (List.prefix_append front xs) (List.prefix_append front ys))

theorem commonFront_self (xs : List String) : commonFront xs xs = xs.length := by
  induction xs with
  | nil => rfl
  | cons x xs ih => rw [commonFront, if_pos rfl, ih, List.length_cons]

theorem sharedWith_self (t : Trail) : t.sharedWith t = t.length - 1 := by
  rw [sharedWith, commonFront_self, List.length_reverse, Nat.min_self]
  omega

section Fold

variable (t : Trail)

/-- How many outermost names `t` shares with all of `us`, at most `n`. -/
def sharedUpTo (n : Nat) (us : List Trail) : Nat := us.foldl (fun n u => min n (t.sharedWith u)) n

theorem sharedUpTo_le (n : Nat) (us : List Trail) : t.sharedUpTo n us ≤ n := by
  induction us generalizing n with
  | nil => exact Nat.le_refl n
  | cons u us ih => exact Nat.le_trans (ih _) (Nat.min_le_left _ _)

theorem sharedUpTo_le_sharedWith (n : Nat) {us : List Trail} {u : Trail} (mem : u ∈ us) :
    t.sharedUpTo n us ≤ t.sharedWith u := by
  induction us generalizing n with
  | nil => cases mem
  | cons v us ih =>
    rcases List.mem_cons.mp mem with rfl | later
    · exact Nat.le_trans (t.sharedUpTo_le _ us) (Nat.min_le_right _ _)
    · exact ih _ later

theorem le_sharedUpTo {k n : Nat} {us : List Trail} (start : k ≤ n)
    (each : ∀ u ∈ us, k ≤ t.sharedWith u) : k ≤ t.sharedUpTo n us := by
  induction us generalizing n with
  | nil => exact start
  | cons u us ih =>
    refine ih (Nat.le_min.mpr ⟨start, each u List.mem_cons_self⟩) ?_
    exact fun v mem => each v (List.mem_cons_of_mem u mem)

end Fold

theorem shared_append_cons {ts us : List Trail} {u : Trail} (mem : u ∈ ts) :
    shared (ts ++ u :: us) = shared (ts ++ us) := by
  cases ts with
  | nil => cases mem
  | cons t ts =>
    have enough : t.sharedUpTo (t.length - 1) ts ≤ t.sharedWith u := by
      rcases List.mem_cons.mp mem with rfl | later
      · rw [sharedWith_self]
        exact sharedUpTo_le u _ ts
      · exact t.sharedUpTo_le_sharedWith _ later
    have same : min (t.sharedUpTo (t.length - 1) ts) (t.sharedWith u) =
        t.sharedUpTo (t.length - 1) ts := Nat.min_eq_left enough
    simp only [shared, List.cons_append, List.foldl_append, List.foldl_cons]
    exact congrArg (fun n => t.sharedUpTo n us) same

section Shared

variable {ts : List Trail} {t u : Trail}

theorem shared_le (mem : t ∈ ts) : shared ts ≤ t.length - 1 := by
  cases ts with
  | nil => cases mem
  | cons first ts =>
    rcases List.mem_cons.mp mem with rfl | later
    · exact sharedUpTo_le t _ ts
    · have le : shared (first :: ts) ≤ first.sharedWith t := first.sharedUpTo_le_sharedWith _ later
      simp only [sharedWith] at le
      omega

/-- The outermost names that are left out are the same in all trails. -/
theorem takes_alike (memT : t ∈ ts) (memU : u ∈ ts) :
    t.reverse.take (shared ts) = u.reverse.take (shared ts) := by
  cases ts with
  | nil => cases memT
  | cons first ts =>
    have alike : ∀ v ∈ first :: ts, first.reverse.take (shared (first :: ts)) =
        v.reverse.take (shared (first :: ts)) := by
      intro v mem
      rcases List.mem_cons.mp mem with rfl | later
      · rfl
      · have le : shared (first :: ts) ≤ first.sharedWith v := first.sharedUpTo_le_sharedWith _ later
        exact take_eq_of_le_commonFront (Nat.le_trans le (Nat.min_le_left _ _))
    exact (alike t memT).symm.trans (alike u memU)

/-- An end of all trails, each of which has a name before it, is not longer than what is left out. -/
theorem length_le_shared {common : Trail} (mem : t ∈ ts)
    (proper : ∀ u ∈ ts, common <:+ u ∧ common ≠ u) : common.length ≤ shared ts := by
  have shorter : ∀ u ∈ ts, common.length < u.length := by
    intro u memU
    obtain ⟨suffix, differs⟩ := proper u memU
    exact Nat.lt_of_le_of_ne suffix.length_le fun same => differs (suffix.eq_of_length same)
  cases ts with
  | nil => cases mem
  | cons first ts =>
    have shorterFirst := shorter first List.mem_cons_self
    refine first.le_sharedUpTo (Nat.le_sub_one_of_lt shorterFirst) fun u later => ?_
    have memU := List.mem_cons_of_mem first later
    have fronts := length_le_commonFront
      (List.reverse_prefix.mpr (proper first List.mem_cons_self).1)
      (List.reverse_prefix.mpr (proper u memU).1)
    have shorterU := shorter u memU
    rw [List.length_reverse] at fronts
    rw [sharedWith]
    omega

/-- All trails end with the same names, and what they have before is what tells them apart. -/
theorem exists_outer (ts : List Trail) :
    ∃ outer : Trail, ∀ t ∈ ts, outer.length = shared ts ∧
      t = t.dropOuter (shared ts) ++ outer ∧ (t.dropOuter (shared ts) = [] → outer = []) := by
  cases ts with
  | nil => exact ⟨[], fun _ mem => absurd mem List.not_mem_nil⟩
  | cons first rest =>
    refine ⟨(first.reverse.take (shared (first :: rest))).reverse, fun t mem => ?_⟩
    have le := shared_le mem
    rw [takes_alike List.mem_cons_self mem, List.take_reverse, List.reverse_reverse, dropOuter]
    refine ⟨?_, (List.take_append_drop _ t).symm, ?_⟩
    · rw [List.length_drop]
      omega
    · -- A trail with names keeps one of them, so only the empty one has nothing left.
      intro empty
      have length := congrArg List.length empty
      rw [List.length_take, List.length_nil] at length
      rw [List.drop_eq_nil_iff]
      omega

theorem dropOuter_inj (memT : t ∈ ts) (memU : u ∈ ts)
    (same : t.dropOuter (shared ts) = u.dropOuter (shared ts)) : t = u := by
  obtain ⟨outer, split⟩ := exists_outer ts
  rw [(split t memT).2.1, (split u memU).2.1, same]

end Shared

end Trail

namespace Failure

section Spec

variable (failures : List Failure) (token : Token)

def trails : List Trail := (failures.map trail).eraseDups

def picked (select : Cause → Option String) (t : Trail) : List String :=
  failures.filterMap fun f => if f.trail = t then select f.cause else none

/-- What is said of the trail `t`: one message for all that was expected there, and then one for each
refusal. -/
def messagesOn (t : Trail) : List String :=
  (match (picked failures Cause.expected? t).eraseDups with
    | [] => []
    | [what] => ["Expected " ++ what ++ ", got " ++ token.render]
    | whats => ["Expected one of \x7b" ++ ", ".intercalate whats ++ "\x7d, got " ++ token.render]) ++
    (picked failures Cause.refused? t).eraseDups

/-- The names of the trail `t` that not all trails share, outermost first, if there are several
trails. -/
def annotation (t : Trail) : String :=
  let inner := t.dropOuter (Trail.shared (failures.map trail))
  if 2 ≤ (trails failures).length ∧ inner ≠ [] then
    " (in parse as " ++ ".".intercalate inner.reverse ++ ")"
  else ""

end Spec

variable {failures : List Failure} {token : Token}

/-- Grouping by what is left of the trails is grouping by the trails. -/
theorem group_eq_picked {t : Trail} (mem : t ∈ failures.map trail) (select : Cause → Option String) :
    let outer := Trail.shared (failures.map trail)
    (((failures.map fun f => (f.trail.dropOuter outer, f.cause)).filter
        fun c => c.1 == t.dropOuter outer).map Prod.snd).filterMap select =
      picked failures select t := by
  intro outer
  rw [List.filter_map, List.map_map, List.filterMap_map, List.filterMap_filter, picked]
  refine List.filterMap_congr fun f memF => ?_
  have same_iff : f.trail.dropOuter outer = t.dropOuter outer ↔ f.trail = t :=
    ⟨Trail.dropOuter_inj (List.mem_map_of_mem memF) mem, fun same => same ▸ rfl⟩
  simp [same_iff]

theorem messagesOn_eq {causes : List Cause} {t : Trail}
    (picks : ∀ select, causes.filterMap select = picked failures select t) :
    groupMessages token causes = messagesOn failures token t := by
  rw [groupMessages, picks, picks, messagesOn]
  rcases (picked failures Cause.expected? t).eraseDups with _ | ⟨what, _ | ⟨other, whats⟩⟩
  · rfl
  · rfl
  · rfl

theorem context_eq (failures : List Failure) (t : Trail) :
    context ((trails failures).length > 1) (t.dropOuter (Trail.shared (failures.map trail))) =
      annotation failures t := by
  have tells_iff : (decide ((trails failures).length > 1) &&
      !(t.dropOuter (Trail.shared (failures.map trail))).isEmpty) = true ↔
        2 ≤ (trails failures).length ∧ t.dropOuter (Trail.shared (failures.map trail)) ≠ [] := by
    rw [Bool.and_eq_true, decide_eq_true_iff, Bool.not_eq_true', List.isEmpty_eq_false_iff]
    rfl
  unfold context annotation
  exact if_congr tells_iff rfl rfl

theorem report_eq_groups (failures : List Failure) (token : Token) :
    report failures token = (trails failures).flatMap fun t =>
      (messagesOn failures token t).map fun message =>
        ⟨token.position, message ++ annotation failures t⟩ := by
  let outer := Trail.shared (failures.map trail)
  have groups : ((failures.map fun f => (f.trail.dropOuter outer, f.cause)).map Prod.fst).eraseDups =
      (trails failures).map (Trail.dropOuter outer) := by
    rw [List.map_map, trails, ← eraseDups_map, List.map_map]
    · rfl
    · exact fun t memT u memU => Trail.dropOuter_inj memT memU
  simp only [report, outer] at groups ⊢
  rw [groups, List.flatMap_map, List.length_map]
  refine List.flatMap_congr fun t mem => ?_
  rw [messagesOn_eq (group_eq_picked (List.mem_eraseDups.mp mem)), context_eq]

theorem report_eq_nil_iff : report failures token = [] ↔ failures = [] := by
  constructor
  · intro silent
    by_contra failed
    exact report_ne_nil token failed silent
  · rintro rfl
    rfl

theorem eraseDups_picked_append_cons {before after : List Failure} {f : Failure}
    (seen : f ∈ before) (select : Cause → Option String) (t : Trail) :
    (picked (before ++ f :: after) select t).eraseDups =
      (picked (before ++ after) select t).eraseDups := by
  simp only [picked, List.filterMap_append, List.filterMap_cons]
  generalize here : (if f.trail = t then select f.cause else none) = what?
  cases what? with
  | none => rfl
  | some what => exact eraseDups_append_cons (List.mem_filterMap.mpr ⟨f, seen, here⟩)

theorem report_append_cons {before after : List Failure} {f : Failure} (seen : f ∈ before) :
    report (before ++ f :: after) token = report (before ++ after) token := by
  have seenTrail : f.trail ∈ before.map trail := List.mem_map_of_mem seen
  have sameTrails : trails (before ++ f :: after) = trails (before ++ after) := by
    simp only [trails, List.map_append, List.map_cons, eraseDups_append_cons seenTrail]
  have sameOuter : Trail.shared ((before ++ f :: after).map trail) =
      Trail.shared ((before ++ after).map trail) := by
    simp only [List.map_append, List.map_cons, Trail.shared_append_cons seenTrail]
  simp only [report_eq_groups, messagesOn, annotation, sameTrails, sameOuter,
    eraseDups_picked_append_cons seen]

/-- The report goes through the distinct trails in the order of first sight. On each trail it names
once all that was expected there, then each refusal once, at the place of the token; where there are
several trails, each message ends with the names of its trail but for the outermost ones, as many as
all trails share while each keeps another name. So nothing is reported only of no failure, and a
failure that repeats an earlier one makes no difference. -/
theorem failures_are_reported_once (failures : List Failure) (token : Token) :
    FirstSeen (failures.map trail) (trails failures) ∧
    (∀ select t, FirstSeen (picked failures select t) (picked failures select t).eraseDups) ∧
    (∃ outer : Trail, ∀ t ∈ trails failures, outer.length = Trail.shared (failures.map trail) ∧
      t = t.dropOuter outer.length ++ outer ∧ (t.dropOuter outer.length = [] → outer = []) ∧
      ∀ common : Trail, (∀ u ∈ trails failures, common <:+ u ∧ common ≠ u) →
        common.length ≤ outer.length) ∧
    (report failures token = (trails failures).flatMap fun t =>
      (messagesOn failures token t).map fun message =>
        ⟨token.position, message ++ annotation failures t⟩) ∧
    (report failures token = [] ↔ failures = []) ∧
    ∀ before f after, failures = before ++ f :: after → f ∈ before →
      report failures token = report (before ++ after) token := by
  refine ⟨firstSeen_eraseDups _, fun _ _ => firstSeen_eraseDups _, ?_,
    report_eq_groups failures token, report_eq_nil_iff, ?_⟩
  · obtain ⟨outer, split⟩ := Trail.exists_outer (failures.map trail)
    refine ⟨outer, fun t mem => ?_⟩
    have there := List.mem_eraseDups.mp mem
    obtain ⟨length, split, keeps⟩ := split t there
    rw [length]
    refine ⟨rfl, split, keeps, fun common proper => Trail.length_le_shared there ?_⟩
    exact fun u memU => proper u (List.mem_eraseDups.mpr memU)
  · rintro before f after rfl seen
    exact report_append_cons seen

def ofTwoTrails : List Failure :=
  [⟨["call", "program"], .expected "Word"⟩, ⟨["pair", "list", "program"], .refused "no space"⟩,
    ⟨["call", "program"], .expected "Word"⟩]

theorem ofTwoTrails_reported :
    (report ofTwoTrails (.eof .detached)).map Diagnostic.message =
        ["Expected Word, got <EOF> (in parse as call)", "no space (in parse as list.pair)"] ∧
      report ofTwoTrails (.eof .detached) = report (ofTwoTrails.take 2) (.eof .detached) := by
  obtain ⟨-, -, -, groups, -, repeated⟩ := failures_are_reported_once ofTwoTrails (.eof .detached)
  refine ⟨?_, repeated (ofTwoTrails.take 2) _ [] rfl List.mem_cons_self⟩
  rw [groups]
  decide +kernel

end Failure

end Lockstep
