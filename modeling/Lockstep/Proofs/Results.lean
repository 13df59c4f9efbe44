import Lockstep.Proofs.Completion
import Lockstep.Proofs.Simulation.Parser
import Lockstep.Proofs.Tracking

set_option autoImplicit false

namespace Lockstep

open Grammar (lastPlace endMarker)

theorem not_isComplete_of_takes {x : Waiting} {token eof : Token} {last last' : Position}
    (takes : x.takes token last = true) : x.isComplete eof last' = false := by
  cases goal : x.goal with
  | token spec => simp only [Waiting.isComplete, goal]
  | accepted =>
    simp only [Waiting.takes, goal] at takes
    cases takes

section

variable {g : Grammar} {pattern : Pattern} {start : Position} {tokens : List Token}
  {ds es : List (Choices × Waiting)}

theorem enumerates_completions {eof : Token} {marked : Bool} (marker : eof.isEof = true)
    (all : Enumerates ds (g.Partial pattern start (if marked then tokens ++ [eof] else tokens))) :
    Enumerates (completions eof (lastPlace start tokens).endPoint ds)
      (g.Completes pattern start tokens eof marked) := by
  refine ⟨ordered_select all.ordered, ?_⟩
  intro w capture
  refine Iff.trans mem_select_iff (Iff.trans ?_ (Grammar.completes_iff marker).symm)
  simp only [all.mem_iff]

/-- A derivation that is complete before the end marker does not take it. -/
theorem nodup_completions {eof : Token} {last : Position}
    (all : Enumerates ds (g.Partial pattern start tokens))
    (all' : Enumerates es (g.Partial pattern start (tokens ++ [eof]))) :
    ((completions eof last ds ++ completions eof last es).map Prod.fst).Nodup := by
  rw [List.map_append]
  refine List.nodup_append.mpr ⟨(ordered_select all.ordered).nodup,
    (ordered_select all'.ordered).nodup, ?_⟩
  rintro w mem w' mem' rfl
  obtain ⟨⟨w, capture⟩, inFirst, rfl⟩ := List.mem_map.mp mem
  obtain ⟨⟨w', capture'⟩, inSecond, same⟩ := List.mem_map.mp mem'
  cases same
  obtain ⟨x, waits, complete, -⟩ := mem_select_iff.mp inFirst
  obtain ⟨y, waits', -, -⟩ := mem_select_iff.mp inSecond
  obtain ⟨u, v, z, split, before, takes, -⟩ :=
    Grammar.partial_concat_iff.mp ((all'.mem_iff w y).mp waits')
  rw [split] at waits
  have one := all.ordered.eq_of_append ((all.mem_iff u z).mpr before) waits
  cases (Prod.mk.inj one).2
  rw [not_isComplete_of_takes takes] at complete
  cases complete

end

namespace Parser

variable {p₀ p q : Parser} {pattern : Pattern} {start : Position} {tokens : List Token}

theorem weave_fed (plain : ∀ token ∈ tokens, token.isEof = false)
    (fed : (p₀.setup pattern start).feedAll tokens = (none, p)) :
    p.Sound ∧ p.weave.Fed p₀.grammar pattern start tokens := by
  obtain ⟨sound, same⟩ := setup_sim p₀ pattern start
  obtain ⟨sound', same'⟩ := feedAll_sim sound tokens
  rw [fed] at sound' same'
  rw [same] at same'
  exact ⟨sound', (Weave.ofPattern_fed _ _ _ _).feedAll plain same'⟩

/-- When no call gives an error, the results are the captures of the complete derivations of the
tokens, each derivation counting once: first those that leave the end marker, then those that take
it, both in the order of their choices. -/
theorem results_are_completed_derivations (plain : ∀ token ∈ tokens, token.isEof = false)
    (fed : (p₀.setup pattern start).feedAll tokens = (none, p)) (ended : p.finish = (none, q)) :
    let eof := endMarker (lastPlace start tokens)
    ∃ ds es : List (Choices × Capture),
      Enumerates ds (p₀.grammar.Completes pattern start tokens eof false) ∧
      Enumerates es (p₀.grammar.Completes pattern start tokens eof true) ∧
      ((ds ++ es).map Prod.fst).Nodup ∧ q.results.toList = (ds ++ es).map Prod.snd := by
  obtain ⟨sound, tracked⟩ := weave_fed plain fed
  have same := (finish_sim sound).2
  rw [ended] at same
  obtain ⟨ds, es, all, all', results⟩ := tracked.finish same
  exact ⟨_, _, enumerates_completions rfl all, enumerates_completions rfl all',
    nodup_completions all all', results⟩

theorem eq_none_snd {r : Option ParseError × Parser} (h : r.1 = none) : r = (none, r.2) := by
  rw [← h]

def wordItems : Grammar := ⟨["item"], [("item", .token ⟨.word, none⟩ [])], [], none⟩

def itemsOrLast : Pattern :=
  .branch [.list (.reference "item" []) none [],
    .sequence 0 (some "last") [.reference "item" [], .token ⟨.eof, none⟩ []] (.nth 0) []] []

def wordA : Token := ⟨.word, "a", .detached⟩

def fedWord : Option ParseError × Parser :=
  ((ofGrammar wordItems {}).setup itemsOrLast .detached).feedAll [wordA]

theorem results_of_one_word :
    fedWord.1 = none ∧ fedWord.2.finish.1 = none ∧ fedWord.2.finish.2.results.size = 2 ∧
      ∃ ds es : List (Choices × Capture),
        Enumerates ds (wordItems.Completes itemsOrLast .detached [wordA]
          (endMarker (lastPlace .detached [wordA])) false) ∧
        Enumerates es (wordItems.Completes itemsOrLast .detached [wordA]
          (endMarker (lastPlace .detached [wordA])) true) ∧
        ((ds ++ es).map Prod.fst).Nodup ∧
        fedWord.2.finish.2.results.toList = (ds ++ es).map Prod.snd := by
  have plain : ∀ token ∈ [wordA], token.isEof = false := by decide
  have fed : fedWord.1 = none := by decide +kernel
  have ended : fedWord.2.finish.1 = none := by decide +kernel
  refine ⟨fed, ended, by decide +kernel, ?_⟩
  exact results_are_completed_derivations plain (eq_none_snd fed)
    (eq_none_snd ended)

end Parser

end Lockstep
