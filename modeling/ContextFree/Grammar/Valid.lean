import ContextFree.Grammar.Basic

/-! The conditions that edits and eliminations keep. A grammar read from a document
may break every one of them.
-/

set_option autoImplicit false

namespace ContextFree

namespace Grammar

structure Valid (g : Grammar) : Prop where
  nonterminals_frame : g.nonterminals.frame = .blank
  terminals_frame : g.terminals.frame = .blank
  nonterminal_case : ∀ s ∈ g.nonterminals, Kind.ofChar? s.toChar = some .nonterminal
  terminal_case : ∀ s ∈ g.terminals, Kind.ofChar? s.toChar = some .terminal
  lhs_declared : ∀ lhs set, g.productions.get? lhs = some set → lhs ∈ g.nonterminals
  lhs_inhabited : ∀ lhs set, g.productions.get? lhs = some set → ∃ rhs, rhs ∈ set
  rhs_proper : ∀ rule ∈ g.rules, rule.rhs ≠ .sequence []
  rhs_declared : ∀ rule ∈ g.rules, ∀ s ∈ rule.rhs.toList, s ∈ g.symbols
  start_declared : ∀ s, g.start = some s → s ∈ g.nonterminals

theorem valid_empty : empty.Valid where
  nonterminals_frame := rfl
  terminals_frame := rfl
  nonterminal_case s member := by simp [empty, SymbolSet.mem_iff] at member
  terminal_case s member := by simp [empty, SymbolSet.mem_iff] at member
  lhs_declared lhs set found := by simp [empty] at found
  lhs_inhabited lhs set found := by simp [empty] at found
  rhs_proper rule member := by simp [empty, rules, OrderedMap.empty] at member
  rhs_declared rule member := by simp [empty, rules, OrderedMap.empty] at member
  start_declared s chosen := by simp [empty] at chosen

theorem valid_iff {g : Grammar} :
    g.Valid ↔ (g.nonterminals.frame = .blank ∧ g.terminals.frame = .blank) ∧
      ((∀ s ∈ g.nonterminals.toList, Kind.ofChar? s.toChar = some .nonterminal) ∧
        ∀ s ∈ g.terminals.toList, Kind.ofChar? s.toChar = some .terminal) ∧
      (∀ entry ∈ g.productions.entries, entry.1 ∈ g.nonterminals ∧ entry.2.toList ≠ []) ∧
      (∀ rule ∈ g.rules, rule.rhs ≠ .sequence [] ∧ ∀ s ∈ rule.rhs.toList, s ∈ g.symbols) ∧
      ∀ s ∈ g.start, s ∈ g.nonterminals := by
  simp only [SymbolSet.mem_toList, Option.mem_def]
  constructor
  · intro valid
    refine ⟨⟨valid.nonterminals_frame, valid.terminals_frame⟩,
      ⟨valid.nonterminal_case, valid.terminal_case⟩, fun entry member => ?_, fun rule member =>
        ⟨valid.rhs_proper rule member, valid.rhs_declared rule member⟩, valid.start_declared⟩
    have found := OrderedMap.get?_eq_some.mpr member
    obtain ⟨rhs, inside⟩ := valid.lhs_inhabited _ _ found
    exact ⟨valid.lhs_declared _ _ found, List.ne_nil_of_mem inside⟩
  · rintro ⟨⟨first, second⟩, ⟨upper, lower⟩, entries, rules, start⟩
    refine ⟨first, second, upper, lower, fun lhs set found => ?_, fun lhs set found => ?_,
      fun rule member => (rules rule member).1, fun rule member => (rules rule member).2, start⟩
    · exact (entries _ (OrderedMap.get?_eq_some.mp found)).1
    · exact List.exists_mem_of_ne_nil _ (entries _ (OrderedMap.get?_eq_some.mp found)).2

instance (g : Grammar) : Decidable g.Valid :=
  decidable_of_iff _ valid_iff.symm

end Grammar

end ContextFree
