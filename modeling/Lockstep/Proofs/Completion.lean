import Lockstep.Proofs.Walk

set_option autoImplicit false

namespace Lockstep

namespace Frame

def remaining (f : Frame) : List Matcher := f.sequence.parts.drop f.captured.length

def addAll (f : Frame) (captures : List Capture) : Frame :=
  { f with captured := f.captured ++ captures }

theorem remaining_eq_cons {f : Frame} {m : Matcher} (next : f.next? = some m) :
    f.remaining = m :: f.afterNext := by
  obtain ⟨bound, same⟩ := List.getElem?_eq_some_iff.mp next
  rw [remaining, List.drop_eq_getElem_cons bound, same]
  rfl

theorem remaining_add (f : Frame) (capture : Capture) : (f.add capture).remaining = f.afterNext := by
  simp only [remaining, afterNext, add, List.length_append, List.length_singleton]

theorem remaining_eq_nil_iff {f : Frame} : f.remaining = [] ↔ f.next? = none := by
  rw [remaining, next?, List.drop_eq_nil_iff, List.getElem?_eq_none_iff]

theorem addAll_nil (f : Frame) : f.addAll [] = f := by
  simp only [addAll, List.append_nil]

theorem addAll_cons (f : Frame) (capture : Capture) (captures : List Capture) :
    f.addAll (capture :: captures) = (f.add capture).addAll captures := by
  simp only [addAll, add, List.append_assoc, List.cons_append, List.nil_append]

theorem settle_of_next {f : Frame} {m : Matcher} (fs : List Frame) (next : f.next? = some m) :
    settle (f :: fs) = .next m (f :: fs) := by
  simp only [settle, next]

theorem settle_of_finished {f : Frame} (fs : List Frame) (finished : f.next? = none) :
    settle (f :: fs) = (climb f.capture fs).getD (.done (f :: fs)) := by
  simp only [settle, finished]

theorem settle_finished {f : Frame} {fs : List Frame} (finished : f.next? = none)
    (inside : fs ≠ []) :
    settle (f :: fs) = advance f.capture fs ∨
      ∃ fs', advance f.capture fs = .done fs' ∧ settle (f :: fs) = .done (f :: fs) ∧
        outermost fs' = outermost (f :: fs) := by
  cases fs with
  | nil => exact absurd rfl inside
  | cons f' fs =>
    rw [settle_of_finished _ finished, advance]
    cases next : (f'.add f.capture).next? with
    | some m =>
      rw [climb_of_next fs next, settle_of_next fs next]
      exact .inl rfl
    | none =>
      rw [climb_of_finished fs next, settle_of_finished fs next]
      cases climbed : climb (f'.add f.capture).capture fs with
      | some s => exact .inl rfl
      | none => exact .inr ⟨_, rfl, rfl, rfl⟩

theorem frames_climb_ne_nil {capture : Capture} {fs : List Frame} {s : Spot}
    (climbed : climb capture fs = some s) : s.frames ≠ [] := by
  induction fs generalizing capture with
  | nil => cases climbed
  | cons f fs ih =>
    cases next : (f.add capture).next? with
    | some m =>
      rw [climb_of_next fs next] at climbed
      cases climbed
      exact List.cons_ne_nil _ _
    | none =>
      rw [climb_of_finished fs next] at climbed
      exact ih climbed

theorem frames_settle_ne_nil (f : Frame) (fs : List Frame) : (settle (f :: fs)).frames ≠ [] := by
  cases next : f.next? with
  | some m =>
    rw [settle_of_next fs next]
    exact List.cons_ne_nil _ _
  | none =>
    rw [settle_of_finished fs next]
    cases climbed : climb f.capture fs with
    | some s => exact frames_climb_ne_nil climbed
    | none => exact List.cons_ne_nil _ _

theorem frames_advance_ne_nil {fs : List Frame} (capture : Capture) (inside : fs ≠ []) :
    (advance capture fs).frames ≠ [] := by
  cases fs with
  | nil => exact absurd rfl inside
  | cons f fs => exact frames_settle_ne_nil (f.add capture) fs

end Frame

namespace Grammar

/-- The walk from the spot that makes the choices `w` finishes all sequences; the outermost one
yields `capture`. -/
def Finishes (g : Grammar) (s : Spot) (c : Cursor) (w : Choices) (c' : Cursor)
    (capture : Capture) : Prop :=
  ∃ frames, g.Walk s c w (.done frames) c' ∧ capture = Frame.outermost frames

variable {g : Grammar} {s s' : Spot} {c c' d : Cursor} {u v w : Choices} {capture final : Capture}

theorem Finishes.stride (first : g.Stride s c u s' d) (rest : g.Finishes s' d v c' final) :
    g.Finishes s c (u ++ v) c' final := by
  obtain ⟨frames, walk, same⟩ := rest
  exact ⟨frames, .stride first walk, same⟩

theorem Finishes.silent (first : g.Stride s c [] s' d) (rest : g.Finishes s' d w c' final) :
    g.Finishes s c w c' final :=
  .stride first rest

theorem Finishes.of_advance {f : Frame} {fs : List Frame} (finished : f.next? = none)
    (inside : fs ≠ []) (h : g.Finishes (Frame.advance f.capture fs) c w c' final) :
    g.Finishes (Frame.settle (f :: fs)) c w c' final := by
  rcases Frame.settle_finished finished inside with same | ⟨fs', advanced, settled, outermost⟩
  · rw [same]
    exact h
  · obtain ⟨frames, walk, same⟩ := h
    rw [advanced] at walk
    cases walk with
    | stay =>
      rw [settled]
      exact ⟨_, .stay, same.trans outermost⟩
    | stride first => cases first

def Passes (g : Grammar) (m : Matcher) (c : Cursor) (u : Choices) (d : Cursor)
    (capture : Capture) : Prop :=
  ∀ (frames : List Frame) (v : Choices) (c' : Cursor) (final : Capture), frames ≠ [] →
    g.Finishes (Frame.advance capture frames) d v c' final →
      g.Finishes (.next m frames) c (u ++ v) c' final

def PassesAll (g : Grammar) (ms : List Matcher) (c : Cursor) (u : Choices) (d : Cursor)
    (captures : List Capture) : Prop :=
  ∀ (f : Frame) (fs : List Frame) (v : Choices) (c' : Cursor) (final : Capture), f.remaining = ms →
    g.Finishes (Frame.settle (f.addAll captures :: fs)) d v c' final →
      g.Finishes (Frame.settle (f :: fs)) c (u ++ v) c' final

theorem Passes.sequence {name? : Option String} {parts : List Matcher} {build : Combiner}
    {guards : List Predicate} {captures : List Capture}
    (all : g.DerivesAll parts (c.visit guards) u d captures)
    (passes : g.PassesAll parts (c.visit guards) u d captures) :
    g.Passes (.sequence name? parts build guards) c u d (build captures) := by
  intro frames v c' final inside rest
  refine .silent .sequence (passes _ _ _ _ _ rfl (.of_advance ?_ inside rest))
  rw [Frame.next?, List.getElem?_eq_none_iff]
  exact Nat.le_of_eq (length_of_derivesAll all).symm

theorem PassesAll.cons {m : Matcher} {ms : List Matcher} {e : Cursor} {captures : List Capture}
    (head : g.Passes m c u d capture) (tail : g.PassesAll ms d v e captures) :
    g.PassesAll (m :: ms) c (u ++ v) e (capture :: captures) := by
  intro f fs v' c' final parts rest
  have next : f.next? = some m := by
    rw [Frame.next?, ← List.head?_drop]
    exact congrArg List.head? parts
  have later : (f.add capture).remaining = ms := by
    rw [Frame.remaining_eq_cons next] at parts
    rw [Frame.remaining_add]
    exact (List.cons.inj parts).2
  rw [Frame.addAll_cons] at rest
  rw [Frame.settle_of_next fs next, List.append_assoc]
  exact head _ _ _ _ (List.cons_ne_nil f fs) (tail _ _ _ _ _ later rest)

theorem Derives.passes {m : Matcher} (h : g.Derives m c u d capture) :
    g.Passes m c u d capture := by
  refine @Derives.rec g (fun m c u d capture _ => g.Passes m c u d capture)
    (fun ms c u d captures _ => g.PassesAll ms c u d captures)
    ?token ?nothing ?sequence ?branch ?deferred ?nil ?cons m c u d capture h
  case token =>
    intro spec guards c token rest next accepts admitted frames v c' final inside rest
    exact .silent (.token next accepts admitted) rest
  case nothing =>
    intro guards c frames v c' final inside rest
    exact .silent .nothing rest
  case sequence =>
    intro name? parts build guards c d u captures all passes
    exact .sequence all passes
  case branch =>
    intro options guards c d i m u capture option derives passes frames v c' final inside rest
    exact .stride (u := [i]) (.branch option) (passes _ _ _ _ inside rest)
  case deferred =>
    intro m m' c d u capture defers unfolds derives passes frames v c' final inside rest
    exact .silent (.deferred defers unfolds) (passes _ _ _ _ inside rest)
  case nil =>
    intro c f fs v c' final parts rest
    rw [Frame.addAll_nil] at rest
    exact rest
  case cons =>
    intro m ms c d e u v capture captures head tail passes passesAll
    exact .cons passes passesAll

/-- What the frames lack is derived, and the outermost one yields `final`, once `capture` is handed
to the innermost one. -/
def Continues (g : Grammar) :
    List Frame → Capture → Cursor → Choices → Cursor → Capture → Prop
  | [], capture, c, w, c', final => w = [] ∧ c' = c ∧ final = capture
  | f :: fs, capture, c, w, c', final =>
    ∃ u v d captures, w = u ++ v ∧ g.DerivesAll (f.add capture).remaining c u d captures ∧
      g.Continues fs ((f.add capture).addAll captures).capture d v c' final

def Fills (g : Grammar) (f : Frame) (fs : List Frame) (c : Cursor) (w : Choices) (c' : Cursor)
    (final : Capture) : Prop :=
  ∃ u v d captures, w = u ++ v ∧ g.DerivesAll f.remaining c u d captures ∧
    g.Continues fs (f.addAll captures).capture d v c' final

def Ends (g : Grammar) : Spot → Cursor → Choices → Cursor → Capture → Prop
  | .next m frames, c, w, c', final =>
    ∃ u v d capture, w = u ++ v ∧ g.Derives m c u d capture ∧
      g.Continues frames capture d v c' final
  | .done frames, c, w, c', final => w = [] ∧ c' = c ∧ final = Frame.outermost frames

theorem ends_next_iff_fills {f : Frame} {m : Matcher} (fs : List Frame) (next : f.next? = some m) :
    g.Ends (.next m (f :: fs)) c w c' final ↔ g.Fills f fs c w c' final := by
  constructor
  · rintro ⟨u, v, d, capture, rfl, derives, u', v', e, captures, rfl, all, rest⟩
    refine ⟨u ++ u', v', e, capture :: captures, (List.append_assoc u u' v').symm, ?_, ?_⟩
    · rw [Frame.remaining_add] at all
      rw [Frame.remaining_eq_cons next]
      exact .cons derives all
    · rw [Frame.addAll_cons]
      exact rest
  · rintro ⟨u, v, d, captures, rfl, all, rest⟩
    rw [Frame.remaining_eq_cons next] at all
    obtain ⟨e, u, u', capture, captures, rfl, rfl, derives, all⟩ := derivesAll_cons_iff.mp all
    rw [← Frame.remaining_add f capture] at all
    rw [Frame.addAll_cons] at rest
    exact ⟨u, u' ++ v, e, capture, List.append_assoc u u' v, derives, u', v, d, captures, rfl,
      all, rest⟩

theorem fills_iff_continues {f : Frame} (fs : List Frame) (finished : f.next? = none) :
    g.Fills f fs c w c' final ↔ g.Continues fs f.capture c w c' final := by
  have nothing : f.remaining = [] := Frame.remaining_eq_nil_iff.mpr finished
  constructor
  · rintro ⟨u, v, d, captures, rfl, all, rest⟩
    rw [nothing] at all
    obtain ⟨rfl, rfl, rfl⟩ := derivesAll_nil_iff.mp all
    rw [Frame.addAll_nil] at rest
    exact rest
  · intro rest
    rw [← Frame.addAll_nil f] at rest
    refine ⟨[], w, c, [], rfl, ?_, rest⟩
    rw [nothing]
    exact .nil

theorem ends_climb (capture : Capture) (fs : List Frame) :
    (∀ s, Frame.climb capture fs = some s →
      (g.Ends s c w c' final ↔ g.Continues fs capture c w c' final)) ∧
    (Frame.climb capture fs = none →
      (g.Continues fs capture c w c' final ↔
        w = [] ∧ c' = c ∧ final = Frame.enclose capture fs)) := by
  induction fs generalizing capture with
  | nil =>
    refine ⟨?_, fun _ => Iff.rfl⟩
    intro s climbed
    cases climbed
  | cons f fs ih =>
    have fills : g.Continues (f :: fs) capture c w c' final ↔
      g.Fills (f.add capture) fs c w c' final := Iff.rfl
    cases next : (f.add capture).next? with
    | some m =>
      rw [Frame.climb_of_next fs next, fills, ← ends_next_iff_fills fs next]
      refine ⟨?_, fun climbed => nomatch climbed⟩
      intro s climbed
      cases climbed
      exact Iff.rfl
    | none =>
      rw [Frame.climb_of_finished fs next, fills, fills_iff_continues fs next]
      exact ih (f.add capture).capture

theorem ends_settle_iff (f : Frame) (fs : List Frame) :
    g.Ends (Frame.settle (f :: fs)) c w c' final ↔ g.Fills f fs c w c' final := by
  cases next : f.next? with
  | some m =>
    rw [Frame.settle_of_next fs next]
    exact ends_next_iff_fills fs next
  | none =>
    rw [Frame.settle_of_finished fs next, fills_iff_continues fs next]
    cases climbed : Frame.climb f.capture fs with
    | some s => exact (ends_climb f.capture fs).1 s climbed
    | none => exact ((ends_climb f.capture fs).2 climbed).symm

theorem ends_advance_iff {fs : List Frame} (inside : fs ≠ []) (capture : Capture) :
    g.Ends (Frame.advance capture fs) c w c' final ↔ g.Continues fs capture c w c' final := by
  cases fs with
  | nil => exact absurd rfl inside
  | cons f fs => exact ends_settle_iff (f.add capture) fs

theorem Ends.of_stride (inside : s.frames ≠ []) (stride : g.Stride s c u s' d)
    (h : g.Ends s' d v c' final) : g.Ends s c (u ++ v) c' final := by
  cases stride with
  | token next accepts admitted =>
    exact ⟨[], v, _, _, rfl, .token next accepts admitted, (ends_advance_iff inside _).mp h⟩
  | nothing => exact ⟨[], v, _, _, rfl, .nothing, (ends_advance_iff inside _).mp h⟩
  | sequence =>
    obtain ⟨u, v, d, captures, rfl, all, rest⟩ := (ends_settle_iff _ _).mp h
    exact ⟨u, v, d, _, rfl, .sequence all, rest⟩
  | branch option =>
    obtain ⟨u, v, d, capture, rfl, derives, rest⟩ := h
    exact ⟨_ :: u, v, d, capture, rfl, .branch option derives, rest⟩
  | deferred defers unfolds =>
    obtain ⟨u, v, d, capture, rfl, derives, rest⟩ := h
    exact ⟨u, v, d, capture, rfl, .deferred defers unfolds derives, rest⟩

theorem Stride.frames_ne_nil (stride : g.Stride s c u s' d) (inside : s.frames ≠ []) :
    s'.frames ≠ [] := by
  cases stride with
  | token => exact Frame.frames_advance_ne_nil _ inside
  | nothing => exact Frame.frames_advance_ne_nil _ inside
  | sequence => exact Frame.frames_settle_ne_nil _ _
  | branch => exact inside
  | deferred => exact inside

theorem Finishes.ends (inside : s.frames ≠ []) (h : g.Finishes s c w c' final) :
    g.Ends s c w c' final := by
  obtain ⟨frames, walk, rfl⟩ := h
  generalize atEnd : Spot.done frames = s' at walk
  induction walk with
  | stay =>
    subst atEnd
    exact ⟨rfl, rfl, rfl⟩
  | stride first _ ih => exact .of_stride inside first (ih (first.frames_ne_nil inside) atEnd)

/-- The derivations of a pattern are the walks to the end. -/
theorem derives_iff_finishes {pattern : Pattern} :
    g.Derives (.lower pattern) c w c' capture ↔ g.Finishes (.ofPattern pattern) c w c' capture := by
  constructor
  · intro derives
    have finished : g.Finishes (Frame.advance capture [⟨⟨none, [.lower pattern], .nth 0⟩, []⟩]) c' []
        c' capture := ⟨_, .stay, rfl⟩
    rw [← List.append_nil w]
    exact derives.passes _ _ _ _ (List.cons_ne_nil _ _) finished
  · intro finishes
    have inside : (Spot.ofPattern pattern).frames ≠ [] := List.cons_ne_nil _ _
    obtain ⟨u, v, d, capture, rfl, derives, u', v', e, captures, rfl, all, rfl, rfl, rfl⟩ :=
      finishes.ends inside
    obtain ⟨rfl, rfl, rfl⟩ := derivesAll_nil_iff.mp all
    rw [List.append_nil, List.append_nil]
    exact derives

theorem isComplete_iff {x : Waiting} {eof : Token} (waits : s.waiting? c.pending = some x) :
    x.isComplete eof c.last.endPoint = true ↔
      ∃ frames, s = .done frames ∧ x.frames = frames ∧ c.admits eof = true := by
  constructor
  · intro complete
    cases s with
    | done frames =>
      cases waits
      rw [Waiting.isComplete, Waiting.isNone_refusal?] at complete
      exact ⟨frames, rfl, rfl, complete⟩
    | next m frames =>
      cases m with
      | token spec guards =>
        cases waits
        cases complete
      | _ => cases waits
  · rintro ⟨frames, rfl, -, admitted⟩
    cases waits
    rw [Waiting.isComplete, Waiting.isNone_refusal?]
    exact admitted

theorem finishes_iff_partial {pattern : Pattern} {start last : Position} {tokens : List Token}
    {eof : Token} (place : lastPlace start tokens = last) :
    (∃ c, g.Finishes (.ofPattern pattern) ⟨start, [], tokens⟩ w c capture ∧ c.rest = [] ∧
      c.admits eof = true) ↔
    ∃ x, g.Partial pattern start tokens w x ∧
      x.isComplete eof last.endPoint = true ∧ capture = Frame.outermost x.frames := by
  subst place
  constructor
  · rintro ⟨c, ⟨frames, walk, rfl⟩, ended, admitted⟩
    have waits : Spot.waiting? c.pending (.done frames) = some ⟨.accepted, frames, c.pending⟩ := rfl
    have complete := (isComplete_iff waits).mpr ⟨frames, rfl, rfl, admitted⟩
    rw [walk.last_eq ended] at complete
    exact ⟨_, ⟨_, c, walk, ended, waits⟩, complete, rfl⟩
  · rintro ⟨x, ⟨s, c, walk, ended, waits⟩, complete, rfl⟩
    have last : c.last = lastPlace start tokens := walk.last_eq ended
    rw [← last] at complete
    obtain ⟨frames, rfl, rfl, admitted⟩ := (isComplete_iff waits).mp complete
    exact ⟨c, ⟨_, walk, rfl⟩, ended, admitted⟩

/-- A derivation is complete if it waits for nothing after all tokens, or after the end marker. -/
theorem completes_iff {pattern : Pattern} {start : Position} {tokens : List Token} {eof : Token}
    {marked : Bool} (marker : eof.isEof = true) :
    g.Completes pattern start tokens eof marked w capture ↔
      ∃ x, g.Partial pattern start (if marked then tokens ++ [eof] else tokens) w x ∧
        x.isComplete eof (lastPlace start tokens).endPoint = true ∧
        capture = Frame.outermost x.frames := by
  cases marked with
  | false =>
    refine Iff.trans ?_ (finishes_iff_partial rfl)
    constructor
    · -- The end marker is left, so the walk does not depend on it.
      rintro ⟨c, derives, ended, admitted⟩
      obtain ⟨frames, walk, same⟩ := derives_iff_finishes.mp derives
      rcases walk.split_last (c := ⟨start, [], tokens⟩) with ⟨d, rfl, short⟩ | taken
      · exact ⟨d, ⟨frames, short, same⟩, List.append_cancel_right ended, admitted⟩
      · rw [(walk_concat_iff.mpr taken).2] at ended
        cases ended
    · rintro ⟨c, ⟨frames, walk, same⟩, ended, admitted⟩
      exact ⟨c.followedBy [eof], derives_iff_finishes.mpr ⟨frames, walk.extend [eof], same⟩,
        congrArg (· ++ [eof]) ended, admitted⟩
  | true =>
    have place : lastPlace start (tokens ++ [eof]) = lastPlace start tokens :=
      lastPlace_marked start tokens marker
    refine Iff.trans ?_ (finishes_iff_partial place)
    simp only [Completes, derives_iff_finishes]
    rfl

end Grammar

end Lockstep
