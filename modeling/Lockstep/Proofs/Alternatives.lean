import Lockstep.Proofs.Halting

set_option autoImplicit false

namespace Lockstep

namespace Frame

def root (m : Matcher) (captured : List Capture) : Frame := ⟨⟨none, [m], .nth 0⟩, captured⟩

def reroot (m : Matcher) (frames : List Frame) : List Frame :=
  frames.dropLast ++ (frames.getLast?.map fun f => root m f.captured).toList

theorem reroot_append (m m' : Matcher) (inner : List Frame) (captured : List Capture) :
    reroot m' (inner ++ [root m captured]) = inner ++ [root m' captured] := by
  simp only [reroot, List.dropLast_concat, List.getLast?_concat, Option.map_some,
    Option.toList_some]
  rfl

end Frame

structure Stand where
  next? : Option Matcher
  inner : List Frame
  captured : List Capture

namespace Stand

def frames (a : Stand) (m : Matcher) : List Frame := a.inner ++ [Frame.root m a.captured]

def spot (a : Stand) (m : Matcher) : Spot :=
  match a.next? with
  | some next => .next next (a.frames m)
  | none => .done (a.frames m)

end Stand

namespace Frame

theorem climb_root (c : Capture) (inner : List Frame) (captured : List Capture) :
    (∀ m, climb c (inner ++ [root m captured]) = none) ∨
      ∃ next inner', ∀ m, climb c (inner ++ [root m captured]) =
        some (.next next (inner' ++ [root m captured])) := by
  induction inner generalizing c with
  | nil =>
    refine .inl fun m => ?_
    have last : ((root m captured).add c).next? = none := by
      simp [next?_add_eq_none_iff, root]
    rw [List.nil_append, climb_of_finished [] last]
    rfl
  | cons f inner ih =>
    cases next : (f.add c).next? with
    | some x => exact .inr ⟨x, f.add c :: inner, fun m => climb_of_next _ next⟩
    | none =>
      rcases ih (f.add c).capture with stops | ⟨x, inner', goes⟩
      · exact .inl fun m => (climb_of_finished _ next).trans (stops m)
      · exact .inr ⟨x, inner', fun m => (climb_of_finished _ next).trans (goes m)⟩

theorem settle_root (f : Frame) (inner : List Frame) (captured : List Capture) :
    ∃ a : Stand, ∀ m, settle (f :: (inner ++ [root m captured])) = a.spot m := by
  cases next : f.next? with
  | some x => exact ⟨⟨some x, f :: inner, captured⟩, fun m => by simp only [settle, next]; rfl⟩
  | none =>
    rcases climb_root f.capture inner captured with stops | ⟨x, inner', goes⟩
    · exact ⟨⟨none, f :: inner, captured⟩, fun m => by simp only [settle, next, stops]; rfl⟩
    · exact ⟨⟨some x, inner', captured⟩, fun m => by simp only [settle, next, goes]; rfl⟩

theorem advance_root (c : Capture) (inner : List Frame) (captured : List Capture) :
    ∃ a : Stand, ∀ m, advance c (inner ++ [root m captured]) = a.spot m := by
  cases inner with
  | cons f inner => exact settle_root (f.add c) inner captured
  | nil =>
    refine ⟨⟨none, [], captured ++ [c]⟩, fun m => ?_⟩
    have last : ((root m captured).add c).next? = none := by
      simp [next?_add_eq_none_iff, root]
    simp only [List.nil_append, advance, settle, last, climb]
    rfl

end Frame

namespace Grammar

variable {g : Grammar} {c c' : Cursor} {w : Choices} {s : Spot}

/-- A stride does not depend on what the root is for. -/
theorem Stride.stand {a : Stand} {m : Matcher} (stride : g.Stride (a.spot m) c w s c') :
    ∃ a' : Stand, s = a'.spot m ∧ ∀ m', g.Stride (a.spot m') c w (a'.spot m') c' := by
  obtain ⟨next?, inner, captured⟩ := a
  cases next? with
  | none => cases stride
  | some next =>
    change g.Stride (.next next (inner ++ [Frame.root m captured])) c w s c' at stride
    cases stride with
    | token next accepts admitted =>
      obtain ⟨a', same⟩ := Frame.advance_root (.token _) inner captured
      refine ⟨a', same m, fun m' => ?_⟩
      rw [← same m']
      exact .token next accepts admitted
    | nothing =>
      obtain ⟨a', same⟩ := Frame.advance_root c.marker inner captured
      refine ⟨a', same m, fun m' => ?_⟩
      rw [← same m']
      exact .nothing
    | sequence =>
      obtain ⟨a', same⟩ := Frame.settle_root ⟨⟨_, _, _⟩, []⟩ inner captured
      refine ⟨a', same m, fun m' => ?_⟩
      rw [← same m']
      exact .sequence
    | @branch _ _ _ _ i next option =>
      exact ⟨⟨some next, inner, captured⟩, rfl, fun _ => .branch option⟩
    | @deferred _ next _ _ defers unfolds =>
      exact ⟨⟨some next, inner, captured⟩, rfl, fun _ => .deferred defers unfolds⟩

theorem Walk.stand {a : Stand} {m : Matcher} (walk : g.Walk (a.spot m) c w s c') :
    ∃ a' : Stand, s = a'.spot m ∧ ∀ m', g.Walk (a.spot m') c w (a'.spot m') c' := by
  generalize start : a.spot m = s₀ at walk
  induction walk generalizing a with
  | stay => exact ⟨a, start.symm, fun _ => .stay⟩
  | stride first more ih =>
    subst start
    obtain ⟨a₁, rfl, strides⟩ := first.stand
    obtain ⟨a', same, walks⟩ := ih rfl
    exact ⟨a', same, fun m' => .stride (strides m') (walks m')⟩

end Grammar

namespace Waiting

def reroot (m : Matcher) (x : Waiting) : Waiting := { x with frames := Frame.reroot m x.frames }

def Rooted (x : Waiting) : Prop :=
  ∃ m inner captured, x.frames = inner ++ [Frame.root m captured]

end Waiting

namespace Stand

variable {a : Stand} {m : Matcher} {pending : List Predicate} {x : Waiting}

theorem waiting?_eq (waits : (a.spot m).waiting? pending = some x) :
    x.frames = a.frames m ∧ ∀ m', (a.spot m').waiting? pending = some (x.reroot m') := by
  obtain ⟨next?, inner, captured⟩ := a
  have moved : ∀ m', Frame.reroot m' (inner ++ [Frame.root m captured]) =
      inner ++ [Frame.root m' captured] := fun m' => Frame.reroot_append m m' inner captured
  cases next? with
  | none =>
    cases waits
    exact ⟨rfl, fun m' => by simp only [Waiting.reroot, frames, moved]; rfl⟩
  | some next =>
    cases next with
    | token spec guards =>
      cases waits
      exact ⟨rfl, fun m' => by simp only [Waiting.reroot, frames, moved]; rfl⟩
    | _ => cases waits

end Stand

namespace Waiting

variable {x : Waiting} {m : Matcher} {token : Token} {last : Position}

theorem Rooted.trail_reroot (h : x.Rooted) :
    Frame.trail (x.reroot m).frames = Frame.trail x.frames := by
  obtain ⟨m', inner, captured, frames⟩ := h
  simp only [reroot, frames, Frame.reroot_append, Frame.trail, List.flatMap_append]
  rfl

theorem Rooted.outermost_reroot (h : x.Rooted) :
    Frame.outermost (x.reroot m).frames = Frame.outermost x.frames := by
  obtain ⟨m', inner, captured, frames⟩ := h
  simp only [reroot, frames, Frame.reroot_append]
  cases inner with
  | nil => rfl
  | cons f inner =>
    simp only [List.cons_append, Frame.outermost, Frame.enclose, List.foldl_append]
    rfl

theorem Rooted.failures_reroot (h : x.Rooted) :
    (x.reroot m).failures token last = x.failures token last := by
  simp only [failures, h.trail_reroot]
  rfl

theorem Rooted.closingFailures_reroot (h : x.Rooted) :
    (x.reroot m).closingFailures token last = x.closingFailures token last := by
  simp only [closingFailures, h.trail_reroot]
  rfl

end Waiting

namespace Grammar

variable {g : Grammar} {pattern : Pattern} {options : List Pattern} {start : Position}
  {tokens : List Token} {token : Token} {w : Choices} {x : Waiting}

theorem Partial.rooted (h : g.Partial pattern start tokens w x) : x.Rooted := by
  obtain ⟨s, c, walk, -, waits⟩ := h
  obtain ⟨a, rfl, -⟩ := Walk.stand (a := ⟨some (.lower pattern), [], []⟩) walk
  exact ⟨.lower pattern, a.inner, a.captured, (Stand.waiting?_eq waits).1⟩

theorem partial_branch_iff :
    g.Partial (.branch options []) start tokens w x ↔
      ∃ i option v y, options[i]? = some option ∧ w = i :: v ∧
        g.Partial option start tokens v y ∧ x = y.reroot (.lower (.branch options [])) := by
  have choice : Spot.ofPattern (.branch options []) = .next (.branch (options.map .lower) [])
      [Frame.root (.lower (.branch options [])) []] := by
    refine congrArg (Spot.next · _) ?_
    rw [Matcher.lower, Matcher.lowerAll_eq_map]
  constructor
  · rintro ⟨s, c, walk, ended, waits⟩
    rw [choice] at walk
    cases walk with
    | stay => cases waits
    | stride first more =>
      obtain ⟨i, m, lowered, rfl, rfl, rfl⟩ := stride_branch_iff.mp first
      rw [visit_nil] at more
      rw [List.getElem?_map] at lowered
      obtain ⟨option, found, rfl⟩ := Option.map_eq_some_iff.mp lowered
      obtain ⟨a, rfl, walks⟩ := Walk.stand (a := ⟨some (.lower option), [], []⟩) more
      obtain ⟨frames, waits'⟩ := Stand.waiting?_eq waits
      refine ⟨i, option, _, x.reroot (.lower option), found, rfl,
        ⟨a.spot (.lower option), c, walks (.lower option), ended, waits' _⟩, ?_⟩
      have back : Frame.reroot (.lower (.branch options []))
          (Frame.reroot (.lower option) x.frames) = x.frames := by
        rw [frames, Stand.frames, Frame.reroot_append, Frame.reroot_append]
      simp only [Waiting.reroot, back]
  · rintro ⟨i, option, v, y, found, rfl, ⟨s, c, walk, ended, waits⟩, rfl⟩
    obtain ⟨a, rfl, walks⟩ := Walk.stand (a := ⟨some (.lower option), [], []⟩) walk
    refine ⟨a.spot _, c, ?_, ended, (Stand.waiting?_eq waits).2 _⟩
    rw [choice]
    refine .stride (u := [i]) (stride_branch_iff.mpr ⟨i, .lower option, ?_, rfl, rfl, rfl⟩) ?_
    · rw [List.getElem?_map, found]
      rfl
    · rw [visit_nil]
      exact walks _

theorem consumes_branch_iff (some : options ≠ []) :
    g.Consumes (.branch options []) start tokens ↔
      ∃ option ∈ options, g.Consumes option start tokens := by
  rcases List.eq_nil_or_concat tokens with rfl | ⟨front, token, rfl⟩
  · obtain ⟨option, mem⟩ := List.exists_mem_of_ne_nil options some
    exact iff_of_true (consumes_nil _ _ _) ⟨option, mem, consumes_nil _ _ _⟩
  · rw [List.concat_eq_append, consumes_concat_iff]
    constructor
    · rintro ⟨w, x, waits, takes⟩
      obtain ⟨i, option, v, y, found, rfl, waits', rfl⟩ := partial_branch_iff.mp waits
      exact ⟨option, List.mem_of_getElem? found, consumes_concat_iff.mpr ⟨v, y, waits', takes⟩⟩
    · rintro ⟨option, mem, consumes⟩
      obtain ⟨v, y, waits, takes⟩ := consumes_concat_iff.mp consumes
      obtain ⟨i, found⟩ := List.mem_iff_getElem?.mp mem
      exact ⟨i :: v, _, partial_branch_iff.mpr ⟨i, option, v, y, found, rfl, waits, rfl⟩, takes⟩

theorem completes_branch_iff {eof : Token} {marked : Bool} {capture : Capture} :
    g.Completes (.branch options []) start tokens eof marked w capture ↔
      ∃ i option v, options[i]? = some option ∧ w = i :: v ∧
        g.Completes option start tokens eof marked v capture := by
  have lowered : Matcher.lower (.branch options []) = .branch (options.map .lower) [] := by
    rw [Matcher.lower, Matcher.lowerAll_eq_map]
  simp only [Completes, lowered, derives_branch_iff, visit_nil, List.getElem?_map,
    Option.map_eq_some_iff]
  constructor
  · rintro ⟨c, ⟨i, m, v, ⟨option, found, rfl⟩, rfl, derives⟩, ended⟩
    exact ⟨i, option, v, found, rfl, c, derives, ended⟩
  · rintro ⟨i, option, v, found, rfl, c, derives, ended⟩
    exact ⟨c, ⟨i, _, v, ⟨option, found, rfl⟩, rfl, derives⟩, ended⟩

end Grammar

/-- The waiting derivations of an option, as those of a choice that is lowered to `m` and takes the
option with number `i`. -/
def chosen (m : Matcher) (i : Nat) (ds : List (Choices × Waiting)) : List (Choices × Waiting) :=
  ds.map fun (w, x) => (i :: w, x.reroot m)

def merge (p q : Pattern) (ds es : List (Choices × Waiting)) : List (Choices × Waiting) :=
  chosen (.lower (.branch [p, q] [])) 0 ds ++ chosen (.lower (.branch [p, q] [])) 1 es

section

variable {m : Matcher} {i : Nat} {ds es : List (Choices × Waiting)} {token eof : Token}
  {last : Position}

theorem mem_chosen_iff {w : Choices} {x : Waiting} :
    (w, x) ∈ chosen m i ds ↔ ∃ v y, (v, y) ∈ ds ∧ w = i :: v ∧ x = y.reroot m := by
  simp only [chosen, List.mem_map, Prod.exists, Prod.mk.injEq]
  constructor
  · rintro ⟨v, y, mem, rfl, rfl⟩
    exact ⟨v, y, mem, rfl, rfl⟩
  · rintro ⟨v, y, mem, rfl, rfl⟩
    exact ⟨v, y, mem, rfl, rfl⟩

theorem ordered_chosen {j : Nat} (ordered : Ordered ds) (ordered' : Ordered es) (lt : i < j) :
    Ordered (chosen m i ds ++ chosen m j es) := by
  have kept : ∀ {k : Nat} {ds : List (Choices × Waiting)},
      Ordered ds → Ordered (chosen m k ds) := by
    intro k ds ordered
    refine List.pairwise_map.mpr (List.Pairwise.imp ?_ ordered)
    intro a b before
    exact .inr ⟨rfl, before⟩
  refine List.pairwise_append.mpr ⟨kept ordered, kept ordered', ?_⟩
  rintro ⟨w, x⟩ mem ⟨w', x'⟩ mem'
  obtain ⟨v, y, -, rfl, -⟩ := mem_chosen_iff.mp mem
  obtain ⟨v', y', -, rfl, -⟩ := mem_chosen_iff.mp mem'
  exact .inl lt

theorem failuresAt_chosen (rooted : ∀ d ∈ ds, d.2.Rooted) :
    failuresAt token last (chosen m i ds) = failuresAt token last ds := by
  rw [failuresAt, chosen, List.flatMap_map]
  exact List.flatMap_congr fun d mem => (rooted d mem).failures_reroot

theorem closingFailuresAt_chosen (rooted : ∀ d ∈ ds, d.2.Rooted) :
    closingFailuresAt eof last (chosen m i ds) = closingFailuresAt eof last ds := by
  rw [closingFailuresAt, chosen, List.flatMap_map]
  exact List.flatMap_congr fun d mem => (rooted d mem).closingFailures_reroot

theorem completions_chosen (rooted : ∀ d ∈ ds, d.2.Rooted) :
    (completions eof last (chosen m i ds)).map Prod.snd =
      (completions eof last ds).map Prod.snd := by
  rw [completions, map_snd_select, map_snd_select, chosen, List.map_map, List.flatMap_map,
    List.flatMap_map]
  refine List.flatMap_congr fun d mem => ?_
  simp only [Function.comp_apply, (rooted d mem).outermost_reroot]
  rfl

end

section

variable {g : Grammar} {p q : Pattern} {start : Position} {tokens : List Token}
  {ds es : List (Choices × Waiting)}

theorem Enumerates.rooted {pattern : Pattern}
    (all : Enumerates ds (g.Partial pattern start tokens)) : ∀ d ∈ ds, d.2.Rooted :=
  fun d mem => ((all.mem_iff d.1 d.2).mp mem).rooted

/-- The waiting derivations of a choice between two are those of the first and then those of the
second. -/
theorem Enumerates.merged (all : Enumerates ds (g.Partial p start tokens))
    (all' : Enumerates es (g.Partial q start tokens)) :
    Enumerates (merge p q ds es) (g.Partial (.branch [p, q] []) start tokens) := by
  refine ⟨ordered_chosen all.ordered all'.ordered Nat.zero_lt_one, ?_⟩
  intro w x
  rw [merge, List.mem_append, mem_chosen_iff, mem_chosen_iff, Grammar.partial_branch_iff]
  constructor
  · rintro (⟨v, y, mem, rfl, rfl⟩ | ⟨v, y, mem, rfl, rfl⟩)
    · exact ⟨0, p, v, y, rfl, rfl, (all.mem_iff v y).mp mem, rfl⟩
    · exact ⟨1, q, v, y, rfl, rfl, (all'.mem_iff v y).mp mem, rfl⟩
  · rintro ⟨i, option, v, y, found, rfl, waits, rfl⟩
    match i, found with
    | 0, rfl => exact .inl ⟨v, y, (all.mem_iff v y).mpr waits, rfl, rfl⟩
    | 1, rfl => exact .inr ⟨v, y, (all'.mem_iff v y).mpr waits, rfl, rfl⟩

theorem failuresAt_merged {token : Token} {last : Position}
    (all : Enumerates ds (g.Partial p start tokens))
    (all' : Enumerates es (g.Partial q start tokens)) :
    failuresAt token last (merge p q ds es) =
      failuresAt token last ds ++ failuresAt token last es := by
  rw [failuresAt, merge, List.flatMap_append]
  exact congrArg₂ (· ++ ·) (failuresAt_chosen all.rooted) (failuresAt_chosen all'.rooted)

theorem closingFailuresAt_merged {eof : Token} {last : Position}
    (all : Enumerates ds (g.Partial p start tokens))
    (all' : Enumerates es (g.Partial q start tokens)) :
    closingFailuresAt eof last (merge p q ds es) =
      closingFailuresAt eof last ds ++ closingFailuresAt eof last es := by
  rw [closingFailuresAt, merge, List.flatMap_append]
  exact congrArg₂ (· ++ ·) (closingFailuresAt_chosen all.rooted)
    (closingFailuresAt_chosen all'.rooted)

theorem completions_merged {eof : Token} {last : Position}
    (all : Enumerates ds (g.Partial p start tokens))
    (all' : Enumerates es (g.Partial q start tokens)) :
    (completions eof last (merge p q ds es)).map Prod.snd =
      (completions eof last ds).map Prod.snd ++ (completions eof last es).map Prod.snd := by
  have joined : completions eof last (merge p q ds es) = completions eof last (chosen _ 0 ds) ++
      completions eof last (chosen _ 1 es) := List.filterMap_append
  rw [joined, List.map_append, completions_chosen all.rooted, completions_chosen all'.rooted]

end

namespace Grammar

variable {g : Grammar} {p q : Pattern} {start : Position} {tokens : List Token} {token : Token}
  {calls : List Call} {i j : Nat} {t u : Token} {fs gs : List Failure} {rs ss ts : List Capture}

theorem consumes_either_iff : g.Consumes (.branch [p, q] []) start tokens ↔
    g.Consumes p start tokens ∨ g.Consumes q start tokens := by
  rw [consumes_branch_iff (List.cons_ne_nil _ _)]
  simp only [List.mem_cons, List.not_mem_nil, or_false, exists_eq_or_imp, exists_eq_left]

theorem not_completes_either {eof : Token}
    (none : ∀ marked w capture, ¬ g.Completes p start tokens eof marked w capture)
    (none' : ∀ marked w capture, ¬ g.Completes q start tokens eof marked w capture)
    (marked : Bool) (w : Choices) (capture : Capture) :
    ¬ g.Completes (.branch [p, q] []) start tokens eof marked w capture := by
  rw [completes_branch_iff]
  rintro ⟨i, option, v, found, -, complete⟩
  match i, found with
  | 0, rfl => exact none marked v capture complete
  | 1, rfl => exact none' marked v capture complete

theorem Stops.merge {ds es ds' es' : List (Choices × Waiting)}
    (h : g.Stops p start tokens token ds es) (h' : g.Stops q start tokens token ds' es') :
    g.Stops (.branch [p, q] []) start tokens token (merge p q ds ds') (merge p q es es') where
  all := h.all.merged h'.all
  later := h.later.merged h'.later
  stuck plain goes := (consumes_either_iff.mp goes).elim (h.stuck plain) (h'.stuck plain)
  incomplete marker := not_completes_either (h.incomplete marker) (h'.incomplete marker)

theorem stops_of_not_consumes {pattern : Pattern} (dead : ¬ g.Consumes pattern start tokens)
    (token : Token) : g.Stops pattern start tokens token [] [] := by
  have dead' : ¬ g.Consumes pattern start (tokens ++ [token]) :=
    fun goes => dead (consumes_of_concat goes)
  have all : Enumerates [] (g.Partial pattern start tokens) := enumerates_nil_of_not_consumes dead
  have later : Enumerates [] (g.Partial pattern start (tokens ++ [token])) :=
    enumerates_nil_of_not_consumes dead'
  exact ⟨all, later, fun _ => dead',
    fun marker => (Weave.not_completes_iff marker all later).mp rfl⟩

/-- Where both options stop and one of them has come so far, the choice fails for what either fails
for at the token, and then for what either fails for past the end. -/
theorem Stops.fails {ds es ds' es' : List (Choices × Waiting)}
    (h : g.Stops p start tokens token ds es) (h' : g.Stops q start tokens token ds' es')
    (consumes : g.Consumes p start tokens ∨ g.Consumes q start tokens) :
    let last := (lastPlace start tokens).endPoint
    g.Fails (.branch [p, q] []) start tokens token
      ((failuresAt token last ds ++ failuresAt token last ds') ++
        (closingFailuresAt token last es ++ closingFailuresAt token last es')) := by
  refine ⟨consumes_either_iff.mpr consumes, _, _, h.merge h', ?_⟩
  rw [failuresAt_merged h.all h'.all, closingFailuresAt_merged h.later h'.later]

theorem Fails.both (h : g.Fails p start tokens token fs) (h' : g.Fails q start tokens token gs) :
    ∃ hs, g.Fails (.branch [p, q] []) start tokens token hs ∧ hs.Perm (fs ++ gs) := by
  obtain ⟨consumes, ds, es, stops, rfl⟩ := h
  obtain ⟨-, ds', es', stops', rfl⟩ := h'
  refine ⟨_, stops.fails stops' (.inl consumes), ?_⟩
  simp only [List.append_assoc]
  exact (List.perm_append_comm_assoc _ _ _).append_left _

theorem Fails.left (h : g.Fails p start tokens token fs) (dead : ¬ g.Consumes q start tokens) :
    g.Fails (.branch [p, q] []) start tokens token fs := by
  obtain ⟨consumes, ds, es, stops, rfl⟩ := h
  have fails := stops.fails (stops_of_not_consumes dead token) (.inl consumes)
  simpa only [failuresAt, closingFailuresAt, List.flatMap_nil, List.append_nil] using fails

theorem Fails.right (dead : ¬ g.Consumes p start tokens) (h : g.Fails q start tokens token gs) :
    g.Fails (.branch [p, q] []) start tokens token gs := by
  obtain ⟨consumes, ds, es, stops, rfl⟩ := h
  have fails := (stops_of_not_consumes dead token).fails stops (.inr consumes)
  simpa only [failuresAt, closingFailuresAt, List.flatMap_nil, List.nil_append] using fails

theorem Halts.right (h : g.Halts q start tokens calls j u gs)
    (dead : ¬ g.Consumes p start tokens) :
    g.Halts (.branch [p, q] []) start tokens calls j u gs := by
  induction h with
  | now met fails => exact .now met (fails.right dead)
  | later plain _ ih => exact .later plain (ih fun goes => dead (consumes_of_concat goes))

theorem Halts.left (h : g.Halts p start tokens calls i t fs)
    (dead : ¬ g.Consumes q start tokens) :
    g.Halts (.branch [p, q] []) start tokens calls i t fs := by
  induction h with
  | now met fails => exact .now met (fails.left dead)
  | later plain _ ih => exact .later plain (ih fun goes => dead (consumes_of_concat goes))

/-- A choice fails where the option does that lives longer, for its reasons, or for those of both if
they fail at the same token. -/
theorem Halts.either (h : g.Halts p start tokens calls i t fs)
    (h' : g.Halts q start tokens calls j u gs) :
    ∃ v hs, g.Halts (.branch [p, q] []) start tokens calls (max i j) v hs ∧
      (i < j → v = u ∧ hs = gs) ∧ (j < i → v = t ∧ hs = fs) ∧ (i = j → hs.Perm (fs ++ gs)) := by
  induction h generalizing j with
  | @now tokens c token calls fs met fails =>
    cases h' with
    | now met' fails' =>
      subst met met'
      obtain ⟨hs, fails, joined⟩ := fails.both fails'
      exact ⟨_, hs, .now rfl fails, nofun, nofun, fun _ => joined⟩
    | @later _ token' _ _ j _ plain more =>
      subst met
      obtain ⟨-, ds, es, stops, -⟩ := fails
      have dead := stops.stuck plain
      refine ⟨u, gs, ?_, fun _ => ⟨rfl, rfl⟩, nofun, nofun⟩
      rw [Nat.zero_max]
      exact .later plain (more.right dead)
  | @later tokens token t calls i fs plain more ih =>
    cases h' with
    | now met' fails' =>
      subst met'
      obtain ⟨-, ds, es, stops, -⟩ := fails'
      have dead := stops.stuck plain
      refine ⟨t, fs, ?_, nofun, fun _ => ⟨rfl, rfl⟩, nofun⟩
      rw [Nat.max_zero]
      exact .later plain (more.left dead)
    | later _ more' =>
      obtain ⟨v, hs, halts, second, first, same⟩ := ih more'
      refine ⟨v, hs, ?_, fun lt => second (Nat.lt_of_succ_lt_succ lt),
        fun lt => first (Nat.lt_of_succ_lt_succ lt), fun eq => same (Nat.succ.inj eq)⟩
      rw [Nat.add_max_add_right]
      exact .later plain halts

theorem Yields.either (h : g.Yields p start tokens calls rs) (h' : g.Yields q start tokens calls ss)
    (h'' : g.Yields (.branch [p, q] []) start tokens calls ts) : ts.Perm (rs ++ ss) := by
  induction h generalizing ss ts with
  | nothing =>
    cases h'
    cases h''
    exact .nil
  | token plain _ ih =>
    cases h' with
    | ending met marker =>
      subst met
      exact Bool.noConfusion (plain.symm.trans marker)
    | token _ more' =>
      cases h'' with
      | ending met marker =>
        subst met
        exact Bool.noConfusion (plain.symm.trans marker)
      | token _ more'' => exact ih more' more''
  | ending met marker all later =>
    subst met
    cases h' with
    | token plain => exact Bool.noConfusion (plain.symm.trans marker)
    | ending met' _ all' later' =>
      subst met'
      cases h'' with
      | token plain => exact Bool.noConfusion (plain.symm.trans marker)
      | ending met'' _ all'' later'' =>
        subst met''
        rw [all''.unique (all.merged all'), later''.unique (later.merged later'),
          completions_merged all all', completions_merged later later']
        simp only [List.append_assoc]
        exact (List.perm_append_comm_assoc _ _ _).append_left _

end Grammar

namespace Parser

/-- Three runs over the same calls, one for each of two patterns and one for the choice between
them, none of them with an error. The choice has the results of both. If both patterns fail, the
choice fails where the one does that lives longer, and reports the same; if they fail at the same
token, it fails there, for the reasons of both. -/
theorem choice_is_both (p₀ : Parser) (p q : Pattern) (start : Position) (calls : List Call)
    (ok : ∀ o ∈ (p₀.setup p start).observed calls, o.error? = none)
    (ok' : ∀ o ∈ (p₀.setup q start).observed calls, o.error? = none)
    (ok'' : ∀ o ∈ (p₀.setup (.branch [p, q] []) start).observed calls, o.error? = none) :
    let a := p₀.setup p start
    let b := p₀.setup q start
    let c := p₀.setup (.branch [p, q] []) start
    (c.called calls).results.toList.Perm
      ((a.called calls).results.toList ++ (b.called calls).results.toList) ∧
    ∀ i j t u fs gs, a.HaltsAt calls i t fs → b.HaltsAt calls j u gs →
      ∃ v hs, c.HaltsAt calls (max i j) v hs ∧
        (c.called calls).diagnostics = Failure.report hs v ∧
        (i < j → v = u ∧ hs = gs ∧ (c.called calls).diagnostics = (b.called calls).diagnostics) ∧
        (j < i → v = t ∧ hs = fs ∧ (c.called calls).diagnostics = (a.called calls).diagnostics) ∧
        (i = j → hs.Perm (fs ++ gs)) := by
  have fed : ∀ pattern, (p₀.setup pattern start).Sound ∧
      (p₀.setup pattern start).weave.Fed p₀.grammar pattern start [] := by
    intro pattern
    obtain ⟨sound, same⟩ := setup_sim p₀ pattern start
    rw [same]
    exact ⟨sound, Weave.ofPattern_fed _ _ _ _⟩
  obtain ⟨sound, tracked⟩ := fed p
  obtain ⟨sound', tracked'⟩ := fed q
  obtain ⟨sound'', tracked''⟩ := fed (.branch [p, q] [])
  intro a b c
  refine ⟨?_, ?_⟩
  · exact (yields_results sound tracked ok).either (yields_results sound' tracked' ok')
      (yields_results sound'' tracked'' ok'')
  · intro i j t u fs gs halts halts'
    obtain ⟨v, hs, fails, longer, longer', same⟩ :=
      ((haltsAt_iff sound tracked ok).mp halts).either ((haltsAt_iff sound' tracked' ok').mp halts')
    have halts'' := (haltsAt_iff sound'' tracked'' ok'').mpr fails
    have reports := halts''.diagnostics_eq ok''
    refine ⟨v, hs, halts'', reports, ?_, ?_, same⟩
    · intro lt
      obtain ⟨rfl, rfl⟩ := longer lt
      exact ⟨rfl, rfl, reports.trans (halts'.diagnostics_eq ok').symm⟩
    · intro lt
      obtain ⟨rfl, rfl⟩ := longer' lt
      exact ⟨rfl, rfl, reports.trans (halts.diagnostics_eq ok).symm⟩

open Builder (wordPattern)

def threeWords : Pattern := .sequence 0 none [wordPattern, wordPattern, wordPattern] .listOf []

def twoWordsFed : List Call := [.feed wordA, .feed wordA, .finish]

def startOn (pattern : Pattern) : Parser := (ofGrammar wordItems {}).setup pattern .detached

/-- Two words come where one is expected, or three. The choice fails where the three words do, and
reports the same. -/
theorem two_words_for_one_or_three :
    (∀ o ∈ (startOn wordPattern).observed twoWordsFed, o.error? = none) ∧
      (∀ o ∈ (startOn threeWords).observed twoWordsFed, o.error? = none) ∧
      (∀ o ∈ (startOn (.branch [wordPattern, threeWords] [])).observed twoWordsFed,
        o.error? = none) ∧
      (∃ t fs, (startOn wordPattern).HaltsAt twoWordsFed 1 t fs) ∧
      (∃ v hs, (startOn (.branch [wordPattern, threeWords] [])).HaltsAt twoWordsFed 2 v hs) ∧
      ((startOn (.branch [wordPattern, threeWords] [])).called twoWordsFed).diagnostics =
        ((startOn threeWords).called twoWordsFed).diagnostics := by
  have ok : ∀ o ∈ (startOn wordPattern).observed twoWordsFed, o.error? = none := by decide +kernel
  have ok' : ∀ o ∈ (startOn threeWords).observed twoWordsFed, o.error? = none := by decide +kernel
  have ok'' : ∀ o ∈ (startOn (.branch [wordPattern, threeWords] [])).observed twoWordsFed,
      o.error? = none := by decide +kernel
  have short : (startOn wordPattern).HaltsAt twoWordsFed 1 _ _ :=
    .later (.now (by decide +kernel) (by decide +kernel))
  have long : (startOn threeWords).HaltsAt twoWordsFed 2 _ _ :=
    .later (.later (.now (by decide +kernel) (by decide +kernel)))
  obtain ⟨-, halts⟩ := choice_is_both (ofGrammar wordItems {}) wordPattern threeWords .detached
    twoWordsFed ok ok' ok''
  obtain ⟨v, hs, halts, -, longer, -⟩ := halts 1 2 _ _ _ _ short long
  exact ⟨ok, ok', ok'', ⟨_, _, short⟩, ⟨v, hs, halts⟩, (longer (by decide)).2.2⟩

end Parser

end Lockstep
