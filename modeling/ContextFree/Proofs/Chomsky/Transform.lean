import ContextFree.Chomsky.Transform
import ContextFree.Proofs.Chomsky.Binary
import ContextFree.Proofs.Chomsky.Start

/-! The transformation into Chomsky normal form keeps the language. -/

set_option autoImplicit false

namespace ContextFree

theorem Draft.Isolated.isolateTerminals {g : Grammar} {start : Symbol} {draft after : Draft}
    (isolated : Draft.Isolated g start draft) (succeeded : draft.isolateTerminals = .ok after) :
    ∃ meaning, after.Follows draft.grammar (Draft.Plain draft.grammar) meaning := by
  have itself : draft.Follows draft.grammar (Draft.Ready draft.grammar) (Draft.wrapperMeaning draft.grammar) :=
    ⟨isolated.toSupplied, isolated.valid, Draft.simulates_wrapperMeaning isolated.valid, isolated.ready⟩
  obtain ⟨meaning, wrapped, unmixed⟩ := itself.isolateTerminals succeeded
  exact ⟨meaning, wrapped.toSupplied, wrapped.valid, wrapped.simulates,
    fun rule member => ⟨wrapped.shaped rule member, unmixed rule member⟩⟩

namespace Grammar

open Draft (Plain)

variable {g base result : Grammar} {start : Symbol}

structure Transformed (g : Grammar) (start : Symbol) (result : Grammar) : Prop where
  valid : result.Valid
  chomsky : result.isChomsky = true
  terminals : result.terminals = g.terminals
  generates_start : ∃ chosen, result.start = some chosen ∧ result.occursOnRhs chosen = false ∧
    ∀ word, result.Generates chosen word ↔ g.Generates start word
  generates : ∀ s ∈ g.nonterminals, ∀ word ≠ [], result.Generates s word ↔ g.Generates s word

theorem isChomsky_of_plain (valid : result.Valid) (terminals : result.terminals = base.terminals)
    (start : result.start = base.start) (plain : ∀ rule ∈ result.rules, Plain base rule)
    (short : ∀ rule ∈ result.rules, rule.rhs.length ≤ 2) : result.isChomsky = true := by
  rw [isChomsky, List.all_eq_true]
  intro rule member
  have plain := plain rule member
  have short := short rule member
  have declared := (valid.admits member).declared
  unfold isChomskyRule
  split
  · rename_i empty
    rw [start]
    exact decide_eq_true (plain.epsilon empty)
  · rename_i s single
    rw [terminals]
    exact plain.single s single
  · rename_i left right pair
    have nonterminal : ∀ s ∈ rule.rhs.toList, s ∈ result.nonterminals := by
      intro s inside
      have long : 2 ≤ rule.rhs.length := by
        rw [Rhs.length, pair]
        exact Nat.le_refl 2
      have other := plain.nonterminal long inside
      rw [← terminals] at other
      exact (mem_symbols.mp (declared s inside)).resolve_right other
    rw [pair] at nonterminal
    rw [Bool.and_eq_true]
    exact ⟨nonterminal left (by simp), nonterminal right (by simp)⟩
  · rename_i none_empty none_single none_pair
    exfalso
    rw [Rhs.length] at short
    rcases shape : rule.rhs.toList with _ | ⟨first, _ | ⟨second, _ | ⟨third, rest⟩⟩⟩
    · exact none_empty shape
    · exact none_single first shape
    · exact none_pair first second shape
    · simp [shape] at short

theorem transformed_draftChomsky (valid : g.Valid) (chosen : g.start = some start)
    (wellFormed : g.isWellFormed = true) {draft : Draft} (succeeded : g.draftChomsky start = .ok draft) :
    Transformed g start draft.grammar := by
  obtain ⟨first, one, succeeded⟩ := bind_eq_ok succeeded
  obtain ⟨second, two, three⟩ := bind_eq_ok succeeded
  have isolated := Draft.isolated_isolateStart valid chosen wellFormed one
  -- the last two stages follow one base, the grammar after the first
  obtain ⟨meaning, plain⟩ := isolated.isolateTerminals two
  obtain ⟨later, final, short⟩ := plain.binarize three
  have simulates := final.simulates
  obtain ⟨new, starts, words⟩ := isolated.generates_start
  refine ⟨final.valid, ?_, ?_, ⟨new, ?_, ?_, fun word => ?_⟩, fun s declared word filled => ?_⟩
  · exact isChomsky_of_plain final.valid simulates.terminals simulates.start final.shaped short
  · rw [simulates.terminals, isolated.terminals]
  · rw [simulates.start, starts]
  · rw [occursOnRhs, List.any_eq_false]
    intro rule member mentioned
    exact (final.shaped rule member).other new (List.contains_iff_mem.mp mentioned) starts
  · have declared := isolated.valid.start_declared new starts
    rw [simulates.generates_iff (mem_symbols.mpr (.inl declared)), words]
  · have kept := isolated.nonterminals s declared
    rw [simulates.generates_iff (mem_symbols.mpr (.inl kept)), isolated.generates s declared word filled]

theorem exists_draft {fresh : List Symbol} (succeeded : g.toChomsky.report = .ok fresh) :
    ∃ start draft, g.start = some start ∧ g.isWellFormed = true ∧ g.draftChomsky start = .ok draft ∧
      g.toChomsky.grammar = draft.grammar := by
  unfold toChomsky at succeeded ⊢
  cases chosen : g.start with
  | none =>
    rw [chosen] at succeeded
    cases succeeded
  | some start =>
    rw [chosen] at succeeded
    simp only at succeeded ⊢
    split at succeeded
    · rename_i wellFormed
      rw [if_pos wellFormed]
      split at succeeded
      · cases succeeded
      · rename_i draft drafted
        exact ⟨start, draft, rfl, wellFormed, drafted, rfl⟩
    · cases succeeded

theorem transformed_toChomsky (valid : g.Valid) {fresh : List Symbol}
    (succeeded : g.toChomsky.report = .ok fresh) :
    ∃ start, g.start = some start ∧ g.isWellFormed = true ∧ Transformed g start g.toChomsky.grammar := by
  obtain ⟨start, draft, chosen, wellFormed, drafted, result⟩ := exists_draft succeeded
  rw [result]
  exact ⟨start, chosen, wellFormed, transformed_draftChomsky valid chosen wellFormed drafted⟩

theorem toChomsky_of_no_rules (nothing : g.rules = []) : g.toChomsky.grammar = g := by
  unfold toChomsky
  split
  · rfl
  · rename_i start _
    have drafted : g.draftChomsky start = .ok (Draft.ofGrammar g) := by
      simp [draftChomsky, Draft.isolateStart, Draft.ofGrammar, occursOnRhs, nothing, bind, Except.bind,
        Draft.isolateTerminals, Draft.wrapRules, Draft.binarize, Draft.splitRules]
    rw [drafted]
    split <;> rfl

/-- A transformed grammar is in Chomsky normal form, its start symbol occurs on no
right-hand side and has the words of the old one, and the nonterminals of before
have their nonempty words. -/
theorem toChomsky_keeps_language (valid : g.Valid) {fresh : List Symbol}
    (succeeded : g.toChomsky.report = .ok fresh) :
    g.toChomsky.grammar.isChomsky = true ∧
      ∃ old new, g.start = some old ∧ g.toChomsky.grammar.start = some new ∧
        g.toChomsky.grammar.occursOnRhs new = false ∧
          (∀ word, g.toChomsky.grammar.Generates new word ↔ g.Generates old word) ∧
            ∀ s ∈ g.nonterminals, ∀ word ≠ [],
              g.toChomsky.grammar.Generates s word ↔ g.Generates s word := by
  obtain ⟨old, chosen, _, transformed⟩ := transformed_toChomsky valid succeeded
  obtain ⟨new, starts, isolated, words⟩ := transformed.generates_start
  exact ⟨transformed.chomsky, old, new, chosen, starts, isolated, words, transformed.generates⟩

/-- The letters `Z` to `W` are used up for the start symbol, for `a` and `b`, and for
the suffix `Sb`. -/
theorem toChomsky_keeps_balanced :
    balanced.normalize.grammar.toChomsky.report = .ok [⟨35⟩, ⟨34⟩, ⟨33⟩, ⟨32⟩] ∧
      balanced.normalize.grammar.toChomsky.grammar.isChomsky = true := by
  have succeeded : balanced.normalize.grammar.toChomsky.report = .ok [⟨35⟩, ⟨34⟩, ⟨33⟩, ⟨32⟩] := by
    decide +kernel
  exact ⟨succeeded, (toChomsky_keeps_language valid_balanced.normalize succeeded).1⟩

end Grammar

end ContextFree
