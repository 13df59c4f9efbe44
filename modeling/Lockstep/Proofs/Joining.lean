import Lockstep.Proofs.Lines
import Mathlib.Order.Lattice

set_option autoImplicit false

namespace Lockstep

instance : LinearOrder LineCol where
  le_refl p := .inr ⟨rfl, Nat.le_refl p.column⟩
  le_trans p q r := by
    change p.line < q.line ∨ p.line = q.line ∧ p.column ≤ q.column →
      q.line < r.line ∨ q.line = r.line ∧ q.column ≤ r.column →
        p.line < r.line ∨ p.line = r.line ∧ p.column ≤ r.column
    omega
  lt_iff_le_not_ge p q := LineCol.lt_iff
  le_antisymm p q := by
    cases p
    cases q
    change _ < _ ∨ _ = _ ∧ _ ≤ _ → _ < _ ∨ _ = _ ∧ _ ≤ _ → _
    simp only [LineCol.mk.injEq]
    omega
  le_total p q := by
    change (p.line < q.line ∨ p.line = q.line ∧ p.column ≤ q.column) ∨
      (q.line < p.line ∨ q.line = p.line ∧ q.column ≤ p.column)
    omega
  toDecidableLE p q := inferInstance

theorem Source.lineCol_mono (source : Source) : Monotone source.lineCol := by
  intro o e le
  have upTo : min o (Bytes.length source.chars) ≤ min e (Bytes.length source.chars) :=
    min_le_min_right _ le
  rw [lineCol, lineCol, table_ofText, ← LineTable.lineCol_min _ o, ← LineTable.lineCol_min _ e]
  rcases Nat.lt_or_eq_of_le upTo with less | same
  · exact le_of_lt (LineTable.lineCol_lt less (Nat.min_le_right _ _))
  · rw [same]

namespace Position

variable {source : Source} {p q : Position}

theorem upTo_ofSpan (source : Source) (a b : Span) :
    (ofSpan source a).upTo (ofSpan source b) = ofSpan source (a.cover b) := by
  have first := source.lineCol_mono.map_min (a := a.start) (b := b.start)
  have last := source.lineCol_mono.map_max (a := a.stop) (b := b.stop)
  simp only [upTo, ofSpan, Span.cover, first, last]

theorem endPoint_ofSpan (source : Source) (a : Span) :
    (ofSpan source a).endPoint = ofSpan source (.point a.stop) := rfl

theorem upTo_assoc (p q r : Position) : (p.upTo q).upTo r = p.upTo (q.upTo r) := by
  simp only [upTo, Span.cover_assoc, min_assoc, max_assoc]

theorem upTo_self (p : Position) : p.upTo p = p := by
  simp only [upTo, Span.cover_self, min_self, max_self]

theorem upTo_comm (same : p.source = q.source) : p.upTo q = q.upTo p := by
  simp only [upTo, same, Span.cover_comm p.span, min_comm p.first, max_comm p.last]

/-- Made from spans of `source`, with starts and stops that never decrease. -/
structure InOrder (source : Source) (positions : List Position) : Prop where
  placed : ∀ p ∈ positions, ∃ span, p = .ofSpan source span
  ordered : positions.Pairwise fun p q =>
    p.span.start ≤ q.span.start ∧ p.span.stop ≤ q.span.stop

def ends? : List Position → Option Position
  | [] => none
  | p :: ps => some (p.upTo ((p :: ps).getLast (List.cons_ne_nil p ps)))

theorem ends?_map {α : Type} (f : α → Position) (a : α) (as : List α) :
    ends? ((a :: as).map f) =
      some ((f a).upTo (f ((a :: as).getLast (List.cons_ne_nil a as)))) := by
  have last := List.getLast_map (f := f) (l := a :: as) (List.cons_ne_nil (f a) (as.map f))
  exact congrArg (fun last => some ((f a).upTo last)) last

namespace InOrder

variable {ps : List Position}

theorem tail (h : InOrder source (p :: ps)) : InOrder source ps :=
  ⟨fun r among => h.placed r (List.mem_cons_of_mem p among), (List.pairwise_cons.mp h.ordered).2⟩

theorem upTo_later (h : InOrder source (p :: q :: ps)) {r : Position} (later : r ∈ q :: ps) :
    p.upTo (q.upTo r) = p.upTo r := by
  obtain ⟨a, rfl⟩ := h.placed p List.mem_cons_self
  obtain ⟨b, rfl⟩ := h.placed q (List.mem_cons_of_mem _ List.mem_cons_self)
  obtain ⟨c, rfl⟩ := h.placed r (List.mem_cons_of_mem _ later)
  have starts : a.start ≤ b.start := ((List.pairwise_cons.mp h.ordered).1 _ List.mem_cons_self).1
  have stops : b.stop ≤ c.stop := by
    rcases List.mem_cons.mp later with same | after
    · exact Nat.le_of_eq (congrArg (fun p => p.span.stop) same).symm
    · exact ((List.pairwise_cons.mp h.tail.ordered).1 _ after).2
  simp only [upTo_ofSpan, Span.cover]
  congr 2
  · rw [← min_assoc, min_eq_left starts]
  · rw [max_eq_right stops]

/-- Joining positions one by one from the back gives what the first and the last give. -/
theorem ends?_cons (h : InOrder source (p :: ps)) {later : Position}
    (ends : ps ≠ [] → ends? ps = some later) :
    ends? (p :: ps) = some (if ps.isEmpty then p else p.upTo later) := by
  cases ps with
  | nil => exact congrArg some (upTo_self p)
  | cons q ps =>
    have joined := h.upTo_later (List.getLast_mem (List.cons_ne_nil q ps))
    rw [Option.some.inj (ends (List.cons_ne_nil q ps))] at joined
    exact congrArg some joined.symm

end InOrder

/-- Made from spans of `source` by joining positions and taking their ends. -/
inductive Joined (source : Source) : Position → Prop where
  | ofSpan (span : Span) : Joined source (.ofSpan source span)
  | upTo {p q : Position} (left : Joined source p) (right : Joined source q) :
    Joined source (p.upTo q)
  | endPoint {p : Position} (whole : Joined source p) : Joined source p.endPoint

theorem Joined.eq_ofSpan (joined : Joined source p) : p = .ofSpan source p.span := by
  induction joined with
  | ofSpan span => rfl
  | upTo left right ihl ihr =>
    rw [ihl, ihr, upTo_ofSpan]
    rfl
  | endPoint whole ih =>
    rw [ih, endPoint_ofSpan]
    rfl

/-- Joining two spans of a source gives the span over both, and the end of a span is the zero-width
span there, whatever the spans, reversed ones and those past the end included. So on positions of
one source joining is associative, commutative and idempotent, and in whatever is made from spans of
it the coordinates are those of the offsets. -/
theorem joining_keeps_coordinates (source : Source) :
    (∀ a b : Span, (ofSpan source a).upTo (ofSpan source b) = ofSpan source (a.cover b)) ∧
    (∀ a : Span, (ofSpan source a).endPoint = ofSpan source (.point a.stop)) ∧
    (∀ p q r : Position, (p.upTo q).upTo r = p.upTo (q.upTo r)) ∧
    (∀ p q : Position, p.source = source → q.source = source → p.upTo q = q.upTo p) ∧
    (∀ p : Position, p.upTo p = p) ∧
    ∀ p : Position, Joined source p → p.source = source ∧
      p.first = source.lineCol p.span.start ∧ p.last = source.lineCol p.span.stop := by
  refine ⟨upTo_ofSpan source, endPoint_ofSpan source, upTo_assoc, ?_, upTo_self, ?_⟩
  · intro p q left right
    exact upTo_comm (left.trans right.symm)
  · intro p joined
    have whole := joined.eq_ofSpan
    exact ⟨congrArg Position.source whole, congrArg Position.first whole,
      congrArg Position.last whole⟩

example :
    let source := Source.ofText "t" "a\r\nb"
    (ofSpan source ⟨2, 9⟩).upTo (ofSpan source ⟨3, 1⟩) = ofSpan source ⟨2, 9⟩ ∧
      (ofSpan source ⟨2, 9⟩).first = ⟨0, 2⟩ ∧ (ofSpan source ⟨2, 9⟩).last = ⟨1, 1⟩ := by
  decide +kernel

end Position

end Lockstep
