import Lockstep.Proofs.Built
import Lockstep.Proofs.Enumeration

set_option autoImplicit false

namespace Lockstep

/-- Nothing inside the matcher is empty, and all names are `defined`. -/
inductive Matcher.Proper (defined : String → Prop) : Matcher → Prop where
  | token {spec : Spec} {guards : List Predicate} : Proper defined (.token spec guards)
  | nothing {guards : List Predicate} : Proper defined (.nothing guards)
  | sequence {name? : Option String} {parts : List Matcher} {build : Combiner}
      {guards : List Predicate} (nonempty : parts ≠ []) (all : ∀ m ∈ parts, Proper defined m) :
    Proper defined (.sequence name? parts build guards)
  | branch {options : List Matcher} {guards : List Predicate} (nonempty : options ≠ [])
      (all : ∀ m ∈ options, Proper defined m) :
    Proper defined (.branch options guards)
  | rule {name : String} {guards : List Predicate} (known : defined name) :
    Proper defined (.rule name guards)
  | list {item : Matcher} {separator? : Option Matcher} {guards : List Predicate}
      (proper : Proper defined item) (separated : ∀ s, separator? = some s → Proper defined s) :
    Proper defined (.list item separator? guards)
  | tail {item : Matcher} {separator? : Option Matcher} {guards : List Predicate}
      (proper : Proper defined item) (separated : ∀ s, separator? = some s → Proper defined s) :
    Proper defined (.tail item separator? guards)

namespace Matcher

variable {defined : String → Prop} {g : Grammar}

theorem lowerAll_eq_map (ps : List Pattern) : lowerAll ps = ps.map lower := by
  induction ps with
  | nil => rfl
  | cons p ps ih => rw [lowerAll, ih, List.map_cons]

theorem lowerSome_eq_map (p? : Option Pattern) : lowerSome p? = p?.map lower := by
  cases p? <;> rfl

theorem proper_lowerAll {ps : List Pattern} (nonempty : ps ≠ [])
    (all : ∀ p ∈ ps, (lower p).Proper defined) :
    lowerAll ps ≠ [] ∧ ∀ m ∈ lowerAll ps, m.Proper defined := by
  rw [lowerAll_eq_map]
  refine ⟨fun same => nonempty (List.map_eq_nil_iff.mp same), ?_⟩
  intro m mem
  obtain ⟨p, here, rfl⟩ := List.mem_map.mp mem
  exact all p here

theorem proper_sequence {name? : Option String} {build : Combiner} {guards : List Predicate}
    {m : Matcher} {ms : List Matcher} (head : m.Proper defined) (rest : ∀ m ∈ ms, m.Proper defined) :
    (sequence name? (m :: ms) build guards).Proper defined := by
  refine .sequence (List.cons_ne_nil m ms) ?_
  intro m' mem
  rcases List.mem_cons.mp mem with rfl | later
  · exact head
  · exact rest m' later

theorem proper_either {m n : Matcher} {guards : List Predicate} (first : m.Proper defined)
    (second : n.Proper defined) : (branch [m, n] guards).Proper defined := by
  refine .branch (List.cons_ne_nil m [n]) ?_
  intro m' mem
  rcases List.mem_cons.mp mem with rfl | later
  · exact first
  · rw [List.mem_singleton.mp later]
    exact second

theorem proper_of_not_mem {m : Matcher} (mem : m ∈ ([] : List Matcher)) : m.Proper defined :=
  absurd mem List.not_mem_nil

theorem proper_absent (absent? : Option Combiner) : (absent absent?).Proper defined := by
  cases absent? with
  | none => exact .nothing
  | some build => exact proper_sequence .nothing fun _ => proper_of_not_mem

theorem proper_lower {p : Pattern} (h : p.Proper defined) : (lower p).Proper defined := by
  induction h with
  | token => exact .token
  | nothing => exact .nothing
  | sequence nonempty _ ih =>
    obtain ⟨nonempty', all⟩ := proper_lowerAll nonempty ih
    exact .sequence nonempty' all
  | branch nonempty _ ih =>
    obtain ⟨nonempty', all⟩ := proper_lowerAll nonempty ih
    exact .branch nonempty' all
  | reference known => exact .rule known
  | @optional _ absent? _ _ ih => exact proper_either ih (proper_absent absent?)
  | list _ _ ih ihs =>
    refine .list ih ?_
    rw [lowerSome_eq_map]
    intro s same
    obtain ⟨p, found, rfl⟩ := Option.map_eq_some_iff.mp same
    exact ihs p found

theorem proper_noItems : noItems.Proper defined :=
  proper_sequence .nothing fun _ => proper_of_not_mem

theorem proper_pair {name? : Option String} {build : Combiner} {guards : List Predicate}
    {m n : Matcher} (first : m.Proper defined) (second : n.Proper defined) :
    (sequence name? [m, n] build guards).Proper defined := by
  refine proper_sequence first ?_
  intro m' mem
  rw [List.mem_singleton.mp mem]
  exact second

theorem proper_triple {name? : Option String} {build : Combiner} {guards : List Predicate}
    {m n k : Matcher} (first : m.Proper defined) (second : n.Proper defined)
    (third : k.Proper defined) :
    (sequence name? [m, n, k] build guards).Proper defined := by
  refine proper_sequence first ?_
  intro m' mem
  rcases List.mem_cons.mp mem with rfl | later
  · exact second
  · rw [List.mem_singleton.mp later]
    exact third

theorem proper_unfold {m m' : Matcher} (closed : g.Closed defined) (h : m.Proper defined)
    (unfolds : g.unfold m = .ok m') : m'.Proper defined := by
  cases h with
  | token => cases unfolds; exact .token
  | nothing => cases unfolds; exact .nothing
  | sequence nonempty all => cases unfolds; exact .sequence nonempty all
  | branch nonempty all => cases unfolds; exact .branch nonempty all
  | @rule name guards known =>
    cases found : g.lookup? name with
    | none => simp only [Grammar.unfold, found] at unfolds; cases unfolds
    | some p =>
      simp only [Grammar.unfold, found] at unfolds
      cases unfolds
      exact proper_lower (closed name p found)
  | @list item separator? guards proper separated =>
    cases separator? with
    | none =>
      cases unfolds
      have rest : (Matcher.list item none []).Proper defined := .list proper separated
      exact proper_either (proper_pair proper rest) proper_noItems
    | some separator => cases unfolds; exact proper_pair proper (.tail proper separated)
  | @tail item separator? guards proper separated =>
    cases separator? with
    | none => cases unfolds; exact proper_noItems
    | some separator =>
      cases unfolds
      have rest : (Matcher.tail item (some separator) []).Proper defined := .tail proper separated
      exact proper_either (proper_triple (separated _ rfl) proper rest) proper_noItems

/-- Unfolding a proper matcher fails only on a name that is `defined` but is the name of no rule. -/
theorem missing_of_unfold {m : Matcher} {name : String} (h : m.Proper defined)
    (fails : g.unfold m = .error name) : defined name ∧ g.lookup? name = none := by
  cases h with
  | @rule name' guards known =>
    cases found : g.lookup? name' with
    | none =>
      simp only [Grammar.unfold, found] at fails
      cases fails
      exact ⟨known, found⟩
    | some p => simp only [Grammar.unfold, found] at fails; cases fails
  | @list item separator? => cases separator? <;> cases fails
  | @tail item separator? => cases separator? <;> cases fails
  | _ => cases fails

end Matcher

namespace Frame

def Proper (defined : String → Prop) (f : Frame) : Prop := ∀ m ∈ f.sequence.parts, m.Proper defined

variable {defined : String → Prop} {f : Frame} {fs : List Frame}

theorem proper_next {m : Matcher} (proper : f.Proper defined) (next : f.next? = some m) :
    m.Proper defined :=
  proper m (List.mem_of_getElem? next)

end Frame

namespace Spot

def Proper (defined : String → Prop) (s : Spot) : Prop :=
  (∀ f ∈ s.frames, f.Proper defined) ∧ ∀ m frames, s = .next m frames → m.Proper defined

theorem proper_of_next {defined : String → Prop} {m : Matcher} {frames : List Frame}
    (proper : m.Proper defined) (around : ∀ f ∈ frames, f.Proper defined) : (Spot.next m frames).Proper defined := by
  refine ⟨around, ?_⟩
  intro m' frames' same
  cases same
  exact proper

theorem proper_of_done {defined : String → Prop} {frames : List Frame}
    (around : ∀ f ∈ frames, f.Proper defined) : (Spot.done frames).Proper defined :=
  ⟨around, fun _ _ same => nomatch same⟩

end Spot

namespace Frame

variable {defined : String → Prop} {f : Frame} {fs : List Frame}

theorem proper_climb (c : Capture) (around : ∀ f ∈ fs, f.Proper defined) {s : Spot}
    (climbed : climb c fs = some s) : s.Proper defined := by
  induction fs generalizing c with
  | nil => cases climbed
  | cons f fs ih =>
    obtain ⟨proper, outer⟩ := List.forall_mem_cons.mp around
    cases next : (f.add c).next? with
    | some m =>
      rw [climb_of_next fs next] at climbed
      cases climbed
      exact Spot.proper_of_next (proper_next (f := f.add c) proper next)
        (List.forall_mem_cons.mpr ⟨proper, outer⟩)
    | none =>
      rw [climb_of_finished fs next] at climbed
      exact ih _ outer climbed

theorem proper_settle (around : ∀ f ∈ fs, f.Proper defined) : (settle fs).Proper defined := by
  cases fs with
  | nil => exact Spot.proper_of_done around
  | cons f fs =>
    obtain ⟨proper, outer⟩ := List.forall_mem_cons.mp around
    simp only [settle]
    split
    · next next => exact Spot.proper_of_next (proper_next proper next) around
    · cases climbed : climb f.capture fs with
      | some s => exact proper_climb _ outer climbed
      | none => exact Spot.proper_of_done around

theorem proper_advance (c : Capture) (around : ∀ f ∈ fs, f.Proper defined) :
    (advance c fs).Proper defined := by
  cases fs with
  | nil => exact Spot.proper_of_done around
  | cons f fs =>
    obtain ⟨proper, outer⟩ := List.forall_mem_cons.mp around
    have extended : ∀ h ∈ f.add c :: fs, h.Proper defined :=
      List.forall_mem_cons.mpr ⟨proper, outer⟩
    exact proper_settle extended

theorem proper_enter {name? : Option String} {parts : List Matcher} {build : Combiner}
    (all : ∀ m ∈ parts, m.Proper defined) (around : ∀ f ∈ fs, f.Proper defined) :
    (settle (⟨⟨name?, parts, build⟩, []⟩ :: fs)).Proper defined :=
  proper_settle (List.forall_mem_cons.mpr ⟨all, around⟩)

end Frame

theorem Spot.ofPattern_proper {defined : String → Prop} {pattern : Pattern}
    (proper : pattern.Proper defined) : (Spot.ofPattern pattern).Proper defined := by
  have lowered := Matcher.proper_lower proper
  refine Spot.proper_of_next lowered ?_
  intro f mem m part
  rw [List.mem_singleton.mp mem] at part
  rw [List.mem_singleton.mp part]
  exact lowered

namespace Grammar

variable {defined : String → Prop} {g : Grammar} {s s' : Spot} {c c' : Cursor} {w : Choices}

theorem Stride.proper (closed : g.Closed defined) (stride : g.Stride s c w s' c')
    (h : s.Proper defined) : s'.Proper defined := by
  obtain ⟨around, next⟩ := h
  cases stride with
  | token => exact Frame.proper_advance _ around
  | nothing => exact Frame.proper_advance _ around
  | sequence =>
    cases next _ _ rfl with
    | sequence _ all => exact Frame.proper_enter all around
  | branch option =>
    cases next _ _ rfl with
    | branch _ all => exact Spot.proper_of_next (all _ (List.mem_of_getElem? option)) around
  | deferred _ unfolds =>
    exact Spot.proper_of_next (Matcher.proper_unfold closed (next _ _ rfl) unfolds) around

theorem Walk.proper (closed : g.Closed defined) (walk : g.Walk s c w s' c')
    (h : s.Proper defined) : s'.Proper defined := by
  induction walk with
  | stay => exact h
  | stride first _ ih => exact ih (first.proper closed h)

end Grammar

namespace Move

def Proper (defined : String → Prop) (g : Grammar) : Move → Prop
  | .ready x => ∀ f ∈ x.frames, f.Proper defined
  | .moved t => t.spot.Proper defined
  | .split ts => ts ≠ [] ∧ ∀ t ∈ ts, t.spot.Proper defined
  | .unknown name => defined name ∧ g.lookup? name = none

end Move

namespace Strand

variable {defined : String → Prop} {g : Grammar}

theorem expand_proper (closed : g.Closed defined) (marker : Capture) {t : Strand}
    (h : t.spot.Proper defined) : (t.expand g marker).1.Proper defined g := by
  obtain ⟨spot, guards⟩ := t
  obtain ⟨around, next⟩ := h
  have deferred : ∀ m frames, spot = .next m frames → m.isDeferred = true →
      (expand g marker ⟨spot, guards⟩).1.Proper defined g := by
    rintro m frames rfl defers
    have proper := next m frames rfl
    cases unfolds : g.unfold m with
    | ok m' =>
      rw [expand_of_unfold_ok defers unfolds]
      exact Spot.proper_of_next (Matcher.proper_unfold closed proper unfolds) around
    | error name =>
      rw [expand_of_unfold_error defers unfolds]
      exact Matcher.missing_of_unfold proper unfolds
  cases spot with
  | done frames => exact around
  | next m frames =>
    cases next m frames rfl with
    | token => exact around
    | nothing => exact Frame.proper_advance _ around
    | sequence _ all => exact Frame.proper_enter all around
    | @branch options guards' nonempty all =>
      refine ⟨fun same => nonempty (List.map_eq_nil_iff.mp same), ?_⟩
      intro t mem
      obtain ⟨option, here, rfl⟩ := List.mem_map.mp mem
      exact Spot.proper_of_next (all option here) around
    | rule => exact deferred _ _ rfl rfl
    | list => exact deferred _ _ rfl rfl
    | tail => exact deferred _ _ rfl rfl

end Strand

end Lockstep
