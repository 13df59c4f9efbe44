import Lockstep.Proofs.Walk

set_option autoImplicit false

namespace Lockstep

namespace Choices

/-- The two part at some branch, and there `u` takes the earlier option. -/
def Before : Choices → Choices → Prop
  | i :: u, j :: v => i < j ∨ (i = j ∧ Before u v)
  | _, _ => False

theorem Before.extend {u v : Choices} (h : Before u v) (u' v' : Choices) :
    Before (u ++ u') (v ++ v') := by
  induction u generalizing v with
  | nil => exact h.elim
  | cons i u ih =>
    cases v with
    | nil => exact h.elim
    | cons j v =>
      rcases h with earlier | ⟨same, later⟩
      · exact .inl earlier
      · exact .inr ⟨same, ih later⟩

theorem Before.after (p : Choices) {u v : Choices} (h : Before u v) : Before (p ++ u) (p ++ v) := by
  induction p with
  | nil => exact h
  | cons i p ih => exact .inr ⟨rfl, ih⟩

theorem not_before_append (u v : Choices) : ¬ Before u (u ++ v) ∧ ¬ Before (u ++ v) u := by
  induction u with
  | nil => cases v <;> exact ⟨id, id⟩
  | cons i u ih =>
    refine ⟨?_, ?_⟩
    · rintro (earlier | ⟨-, later⟩)
      · exact Nat.lt_irrefl i earlier
      · exact ih.1 later
    · rintro (earlier | ⟨-, later⟩)
      · exact Nat.lt_irrefl i earlier
      · exact ih.2 later

end Choices

open Choices (Before)

def Ordered {α : Type} (xs : List (Choices × α)) : Prop := xs.Pairwise fun a b => Before a.1 b.1

/-- `xs` lists all choices for which `P` holds, each once and in order. -/
structure Enumerates {α : Type} (xs : List (Choices × α)) (P : Choices → α → Prop) : Prop where
  ordered : Ordered xs
  mem_iff : ∀ w x, (w, x) ∈ xs ↔ P w x

theorem Enumerates.congr {α : Type} {xs : List (Choices × α)} {P Q : Choices → α → Prop}
    (h : Enumerates xs P) (same : ∀ w x, P w x ↔ Q w x) : Enumerates xs Q :=
  ⟨h.ordered, fun w x => (h.mem_iff w x).trans (same w x)⟩

theorem Ordered.eq_of_append {α : Type} {xs : List (Choices × α)} (h : Ordered xs) {u v : Choices}
    {x y : α} (mem : (u, x) ∈ xs) (mem' : (u ++ v, y) ∈ xs) : (u, x) = (u ++ v, y) := by
  induction xs with
  | nil => cases mem
  | cons a xs ih =>
    obtain ⟨first, rest⟩ := List.pairwise_cons.mp h
    rcases List.mem_cons.mp mem with same | mem <;> rcases List.mem_cons.mp mem' with same' | mem'
    · exact same.trans same'.symm
    · rw [← same] at first
      exact absurd (first _ mem') (Choices.not_before_append u v).1
    · rw [← same'] at first
      exact absurd (first _ mem) (Choices.not_before_append u v).2
    · exact ih rest mem mem'

theorem Ordered.nodup {α : Type} {xs : List (Choices × α)} (h : Ordered xs) :
    (xs.map Prod.fst).Nodup := by
  refine List.pairwise_map.mpr (List.Pairwise.imp ?_ h)
  intro a b before same
  have irrefl := (Choices.not_before_append b.1 []).1
  rw [List.append_nil] at irrefl
  rw [same] at before
  exact irrefl before

def Reached (g : Grammar) (last : Position) (ts : List (Choices × Strand)) (w : Choices)
    (x : Waiting) : Prop :=
  ∃ u t v, (u, t) ∈ ts ∧ w = u ++ v ∧ t.Reaches g last v x

namespace Grammar

variable {g : Grammar} {s s' : Spot} {c c' : Cursor} {w : Choices}

theorem Stride.waiting?_eq_none (stride : g.Stride s c w s' c') (empty : c.rest = []) :
    s.waiting? c.pending = none := by
  cases stride with
  | token next =>
    rw [empty] at next
    cases next
  | nothing => rfl
  | sequence => rfl
  | branch => rfl
  | @deferred m _ _ _ defers =>
    cases m with
    | token => cases defers
    | _ => rfl

end Grammar

namespace Strand

variable {g : Grammar} {last : Position} {t u : Strand} {us : List Strand} {w : Choices}
  {x y : Waiting}

def Expands (g : Grammar) (last : Position) (t : Strand) : Move → Prop
  | .ready x => t.spot.waiting? t.guards = some x
  | .moved u =>
    t.spot.waiting? t.guards = none ∧
      ∀ w s c, g.Stride t.spot ⟨last, t.guards, []⟩ w s c ↔
        w = [] ∧ s = u.spot ∧ c = ⟨last, u.guards, []⟩
  | .split us =>
    t.spot.waiting? t.guards = none ∧
      ∀ w s c, g.Stride t.spot ⟨last, t.guards, []⟩ w s c ↔
        ∃ i u, us[i]? = some u ∧ w = [i] ∧ s = u.spot ∧ c = ⟨last, u.guards, []⟩
  | .unknown _ => True

theorem expand_of_unfold_ok {m m' : Matcher} {frames : List Frame} {guards : List Predicate}
    {marker : Capture} (defers : m.isDeferred = true) (unfolds : g.unfold m = .ok m') :
    expand g marker ⟨.next m frames, guards⟩ =
      (.moved ⟨.next m' frames, guards ++ m.guards⟩, 0) := by
  cases m with
  | rule => simp only [expand, unfolds]
  | list => simp only [expand, unfolds]
  | tail => simp only [expand, unfolds]
  | _ => cases defers

theorem expand_of_unfold_error {m : Matcher} {frames : List Frame} {guards : List Predicate}
    {marker : Capture} {name : String} (defers : m.isDeferred = true)
    (unfolds : g.unfold m = .error name) :
    expand g marker ⟨.next m frames, guards⟩ = (.unknown name, 0) := by
  cases m with
  | rule => simp only [expand, unfolds]
  | list => simp only [expand, unfolds]
  | tail => simp only [expand, unfolds]
  | _ => cases defers

theorem expands_deferred {m : Matcher} {frames : List Frame} {guards : List Predicate}
    (defers : m.isDeferred = true) :
    Expands g last ⟨.next m frames, guards⟩
      (expand g (.empty last.endPoint) ⟨.next m frames, guards⟩).1 := by
  cases unfolds : g.unfold m with
  | error name =>
    rw [expand_of_unfold_error defers unfolds]
    trivial
  | ok m' =>
    rw [expand_of_unfold_ok defers unfolds]
    have stride : ∀ c, g.Stride (.next m frames) c [] (.next m' frames) (c.visit m.guards) :=
      fun c => .deferred defers unfolds
    refine ⟨(stride ⟨last, guards, []⟩).waiting?_eq_none rfl, ?_⟩
    intro w s c
    constructor
    · intro stride
      cases stride with
      | deferred _ unfolds' =>
        rw [unfolds] at unfolds'
        cases unfolds'
        exact ⟨rfl, rfl, rfl⟩
      | token => cases defers
      | nothing => cases defers
      | sequence => cases defers
      | branch => cases defers
    · rintro ⟨rfl, rfl, rfl⟩
      exact stride ⟨last, guards, []⟩

theorem expand_expands (g : Grammar) (last : Position) (t : Strand) :
    t.Expands g last (t.expand g (.empty last.endPoint)).1 := by
  obtain ⟨spot, guards⟩ := t
  cases spot with
  | done frames => rfl
  | next m frames =>
    cases m with
    | token spec guards' => rfl
    | nothing guards' =>
      refine ⟨rfl, ?_⟩
      intro w s c
      constructor
      · intro stride
        cases stride with
        | nothing => exact ⟨rfl, rfl, rfl⟩
        | deferred defers => cases defers
      · rintro ⟨rfl, rfl, rfl⟩
        exact .nothing
    | sequence name? parts build guards' =>
      refine ⟨rfl, ?_⟩
      intro w s c
      constructor
      · intro stride
        cases stride with
        | sequence => exact ⟨rfl, rfl, rfl⟩
        | deferred defers => cases defers
      · rintro ⟨rfl, rfl, rfl⟩
        exact .sequence
    | branch options guards' =>
      refine ⟨rfl, ?_⟩
      intro w s c
      constructor
      · intro stride
        cases stride with
        | @branch _ _ _ _ i m option =>
          refine ⟨i, ⟨.next m frames, guards ++ guards'⟩, ?_, rfl, rfl, rfl⟩
          rw [List.getElem?_map, option]
          rfl
        | deferred defers => cases defers
      · rintro ⟨i, u, mapped, rfl, rfl, rfl⟩
        rw [List.getElem?_map] at mapped
        obtain ⟨m, option, rfl⟩ := Option.map_eq_some_iff.mp mapped
        exact .branch option
    | rule => exact expands_deferred rfl
    | list => exact expands_deferred rfl
    | tail => exact expands_deferred rfl

theorem reaches_iff_of_ready (h : t.Expands g last (.ready x)) :
    t.Reaches g last w y ↔ w = [] ∧ y = x := by
  constructor
  · rintro ⟨s, c, walk, waits⟩
    cases walk with
    | stay =>
      have same := waits.symm.trans h
      cases same
      exact ⟨rfl, rfl⟩
    | stride first =>
      have none := first.waiting?_eq_none rfl
      have both := h.symm.trans none
      cases both
  · rintro ⟨rfl, rfl⟩
    exact ⟨t.spot, _, .stay, h⟩

theorem reaches_iff_of_not_waiting (h : t.spot.waiting? t.guards = none) :
    t.Reaches g last w y ↔
      ∃ p v s c, g.Stride t.spot ⟨last, t.guards, []⟩ p s c ∧ w = p ++ v ∧
        ∃ s' c', g.Walk s c v s' c' ∧ s'.waiting? c'.pending = some y := by
  constructor
  · rintro ⟨s, c, walk, waits⟩
    cases walk with
    | stay =>
      have both := h.symm.trans waits
      cases both
    | stride first more => exact ⟨_, _, _, _, first, rfl, s, c, more, waits⟩
  · rintro ⟨p, v, s, c, first, rfl, s', c', more, waits⟩
    exact ⟨s', c', .stride first more, waits⟩

theorem reaches_iff_of_moved (h : t.Expands g last (.moved u)) :
    t.Reaches g last w y ↔ u.Reaches g last w y := by
  obtain ⟨notWaiting, strides⟩ := h
  rw [reaches_iff_of_not_waiting notWaiting]
  constructor
  · rintro ⟨p, v, s, c, first, rfl, rest⟩
    obtain ⟨rfl, rfl, rfl⟩ := (strides _ _ _).mp first
    exact rest
  · intro rest
    exact ⟨[], w, u.spot, ⟨last, u.guards, []⟩, (strides _ _ _).mpr ⟨rfl, rfl, rfl⟩, rfl, rest⟩

theorem reaches_iff_of_split (h : t.Expands g last (.split us)) :
    t.Reaches g last w y ↔
      ∃ i u v, us[i]? = some u ∧ w = [i] ++ v ∧ u.Reaches g last v y := by
  obtain ⟨notWaiting, strides⟩ := h
  rw [reaches_iff_of_not_waiting notWaiting]
  constructor
  · rintro ⟨p, v, s, c, first, rfl, rest⟩
    obtain ⟨i, u, option, rfl, rfl, rfl⟩ := (strides _ _ _).mp first
    exact ⟨i, u, v, option, rfl, rest⟩
  · rintro ⟨i, u, v, option, rfl, rest⟩
    exact ⟨[i], v, u.spot, ⟨last, u.guards, []⟩, (strides _ _ _).mpr ⟨i, u, option, rfl, rfl, rfl⟩,
      rfl, rest⟩

end Strand

def forks (u : Choices) (us : List Strand) : List (Choices × Strand) :=
  us.zipIdx.map fun (t, i) => (u ++ [i], t)

theorem map_snd_forks (u : Choices) (us : List Strand) : (forks u us).map Prod.snd = us := by
  rw [forks, List.map_map]
  exact List.zipIdx_map_fst 0 us

theorem mem_forks_iff {u w : Choices} {us : List Strand} {t : Strand} :
    (w, t) ∈ forks u us ↔ ∃ i, us[i]? = some t ∧ w = u ++ [i] := by
  rw [forks, List.mem_map]
  constructor
  · rintro ⟨⟨t', i⟩, mem, same⟩
    cases same
    exact ⟨i, List.mk_mem_zipIdx_iff_getElem?.mp mem, rfl⟩
  · rintro ⟨i, option, rfl⟩
    exact ⟨(t, i), List.mk_mem_zipIdx_iff_getElem?.mpr option, rfl⟩

theorem ordered_forks (u : Choices) (us : List Strand) : Ordered (forks u us) := by
  have increasing : us.zipIdx.Pairwise fun a b => a.2 < b.2 := by
    rw [← List.pairwise_map, List.zipIdx_map_snd]
    exact List.pairwise_lt_range'
  refine List.pairwise_map.mpr (List.Pairwise.imp ?_ increasing)
  intro a b earlier
  exact Before.after u (.inl earlier)

theorem ordered_append_forks {u : Choices} {t : Strand} {ts : List (Choices × Strand)}
    (h : Ordered ((u, t) :: ts)) (us : List Strand) : Ordered (forks u us ++ ts) := by
  obtain ⟨first, rest⟩ := List.pairwise_cons.mp h
  refine List.pairwise_append.mpr ⟨ordered_forks u us, rest, ?_⟩
  rintro ⟨w, t'⟩ mem b mem'
  obtain ⟨i, -, rfl⟩ := mem_forks_iff.mp mem
  have before := (first b mem').extend [i] []
  rw [List.append_nil] at before
  exact before

section

variable {g : Grammar} {last : Position} {u w : Choices} {t : Strand} {x : Waiting}
  {ts : List (Choices × Strand)}

theorem reached_cons_iff :
    Reached g last ((u, t) :: ts) w x ↔
      (∃ v, w = u ++ v ∧ t.Reaches g last v x) ∨ Reached g last ts w x := by
  constructor
  · rintro ⟨u', t', v, mem, rfl, reaches⟩
    rcases List.mem_cons.mp mem with same | mem
    · cases same
      exact .inl ⟨v, rfl, reaches⟩
    · exact .inr ⟨u', t', v, mem, rfl, reaches⟩
  · rintro (⟨v, rfl, reaches⟩ | ⟨u', t', v, mem, rfl, reaches⟩)
    · exact ⟨u, t, v, List.mem_cons_self, rfl, reaches⟩
    · exact ⟨u', t', v, List.mem_cons_of_mem _ mem, rfl, reaches⟩

theorem reached_moved_iff {t' : Strand} (h : t.Expands g last (.moved t')) :
    Reached g last ((u, t) :: ts) w x ↔ Reached g last ((u, t') :: ts) w x := by
  simp only [reached_cons_iff, Strand.reaches_iff_of_moved h]

theorem reached_split_iff {us : List Strand} (h : t.Expands g last (.split us)) :
    Reached g last ((u, t) :: ts) w x ↔ Reached g last (forks u us ++ ts) w x := by
  rw [reached_cons_iff]
  constructor
  · rintro (⟨v, rfl, reaches⟩ | ⟨u', t', v, mem, rfl, reaches⟩)
    · obtain ⟨i, t', v, option, rfl, later⟩ := (Strand.reaches_iff_of_split h).mp reaches
      exact ⟨u ++ [i], t', v, List.mem_append_left _ (mem_forks_iff.mpr ⟨i, option, rfl⟩),
        (List.append_assoc u [i] v).symm, later⟩
    · exact ⟨u', t', v, List.mem_append_right _ mem, rfl, reaches⟩
  · rintro ⟨u', t', v, mem, rfl, reaches⟩
    rcases List.mem_append.mp mem with mem | mem
    · obtain ⟨i, option, rfl⟩ := mem_forks_iff.mp mem
      exact .inl ⟨[i] ++ v, List.append_assoc u [i] v,
        (Strand.reaches_iff_of_split h).mpr ⟨i, t', v, option, rfl, reaches⟩⟩
    · exact .inr ⟨u', t', v, mem, rfl, reaches⟩

theorem Enumerates.nil : Enumerates [] (Reached g last []) := by
  refine ⟨.nil, ?_⟩
  intro w x
  constructor
  · intro mem
    cases mem
  · rintro ⟨u, t, v, mem, -⟩
    cases mem

theorem Enumerates.ready {ds : List (Choices × Waiting)} (h : t.Expands g last (.ready x))
    (ordered : Ordered ((u, t) :: ts)) (rest : Enumerates ds (Reached g last ts)) :
    Enumerates ((u, x) :: ds) (Reached g last ((u, t) :: ts)) := by
  refine ⟨List.pairwise_cons.mpr ⟨?_, rest.ordered⟩, ?_⟩
  · rintro ⟨w, y⟩ mem
    obtain ⟨u', t', v, mem', rfl, -⟩ := (rest.mem_iff w y).mp mem
    have before := ((List.pairwise_cons.mp ordered).1 _ mem').extend [] v
    rw [List.append_nil] at before
    exact before
  · intro w y
    rw [List.mem_cons, reached_cons_iff, rest.mem_iff]
    refine or_congr_left ?_
    constructor
    · intro same
      cases same
      exact ⟨[], (List.append_nil u).symm, (Strand.reaches_iff_of_ready h).mpr ⟨rfl, rfl⟩⟩
    · rintro ⟨v, rfl, reaches⟩
      obtain ⟨rfl, rfl⟩ := (Strand.reaches_iff_of_ready h).mp reaches
      rw [List.append_nil]

end

/-- When resolving ends well, the waiting derivations are all that the strands reach, in order. -/
theorem Phase.resolveStrands_enumerates {p : Phase} {last : Position}
    (marker : p.marker = .empty last.endPoint) {budget : Nat} {work : List Strand}
    {ready ready' : List Waiting} {branches made : Nat} {ts : List (Choices × Strand)}
    (ok : (p.resolveStrands budget work ready branches made).outcome = .ok ready')
    (tagged : ts.map Prod.snd = work) (ordered : Ordered ts) :
    ∃ ds, ready' = ready ++ ds.map Prod.snd ∧ Enumerates ds (Reached p.grammar last ts) := by
  induction budget generalizing work ready branches made ts with
  | zero =>
    cases work with
    | nil =>
      cases ok
      rw [List.map_eq_nil_iff.mp tagged]
      exact ⟨[], (List.append_nil ready').symm, .nil⟩
    | cons t work => cases ok
  | succ budget ih =>
    cases work with
    | nil =>
      cases ok
      rw [List.map_eq_nil_iff.mp tagged]
      exact ⟨[], (List.append_nil ready').symm, .nil⟩
    | cons t work =>
      obtain ⟨⟨u, t'⟩, ts, rfl, rfl, others⟩ := List.map_eq_cons_iff.mp tagged
      have expands := Strand.expand_expands p.grammar last t'
      rw [← marker] at expands
      simp only [resolveStrands] at ok
      generalize t'.expand p.grammar p.marker = expansion at ok expands
      obtain ⟨move, k⟩ := expansion
      cases move with
      | ready x =>
        have later : ∃ branches made,
            (p.resolveStrands budget work (ready ++ [x]) branches made).outcome = .ok ready' := by
          cases goal : x.goal with
          | accepted =>
            simp only [goal] at ok
            exact ⟨_, _, ok⟩
          | token spec =>
            simp only [goal] at ok
            split at ok
            · exact ⟨_, _, ok⟩
            · cases ok
        obtain ⟨branches, made, ok⟩ := later
        obtain ⟨ds, rfl, rest⟩ := ih ok others (List.pairwise_cons.mp ordered).2
        exact ⟨(u, x) :: ds, by rw [List.append_assoc]; rfl, .ready expands ordered rest⟩
      | moved t =>
        have tagged' : ((u, t) :: ts).map Prod.snd = t :: work := congrArg (t :: ·) others
        have ordered' : Ordered ((u, t) :: ts) :=
          List.pairwise_cons.mpr (List.pairwise_cons.mp ordered)
        obtain ⟨ds, same, all⟩ := ih ok tagged' ordered'
        exact ⟨ds, same, all.congr fun w x => (reached_moved_iff expands).symm⟩
      | split us =>
        have tagged' : (forks u us ++ ts).map Prod.snd = us ++ work := by
          rw [List.map_append, map_snd_forks, others]
        obtain ⟨ds, same, all⟩ := ih ok tagged' (ordered_append_forks ordered us)
        exact ⟨ds, same, all.congr fun w x => (reached_split_iff expands).symm⟩
      | unknown name => cases ok

end Lockstep
