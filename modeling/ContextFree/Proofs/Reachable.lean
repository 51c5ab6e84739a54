import ContextFree.Proofs.Chomsky.Transform
import ContextFree.Proofs.Loading

/-! The grammars that edits lead to are valid.

A grammar begins empty or is read from a text, and then goes through any sequence
of edits, failed ones included. Reading a document is not among them.
-/

set_option autoImplicit false

namespace ContextFree

inductive Edit where
  | clear
  | addNonterminal (c : Char)
  | addTerminal (c : Char)
  | removeNonterminal (c : Char)
  | removeTerminal (c : Char)
  | setStart (c : Char)
  | addProduction (lhs : Char) (rhs : String)
  | removeProduction (lhs : Char) (rhs : String)
  | removeSelfRules
  | removeEpsilonRules
  | removeUnitRules
  | removeUselessSymbols
  | normalize
  | toChomsky

namespace Edit

def apply (g : Grammar) : Edit → Grammar
  | clear => .empty
  | addNonterminal c => (g.addNonterminal c).grammar
  | addTerminal c => (g.addTerminal c).grammar
  | removeNonterminal c => (g.removeNonterminal c).grammar
  | removeTerminal c => (g.removeTerminal c).grammar
  | setStart c => (g.setStart c).grammar
  | addProduction lhs rhs => (g.addProduction lhs rhs).grammar
  | removeProduction lhs rhs => (g.removeProduction lhs rhs).grammar
  | removeSelfRules => g.removeSelfRules.grammar
  | removeEpsilonRules => g.removeEpsilonRules.grammar
  | removeUnitRules => g.removeUnitRules.grammar
  | removeUselessSymbols => g.removeUselessSymbols.grammar
  | normalize => g.normalize.grammar
  | toChomsky => g.toChomsky.grammar

end Edit

namespace Grammar

inductive Reachable : Grammar → Prop where
  | empty : Reachable empty
  | load {text : String} {start : Char} {g : Grammar} : load text start = .ok g → Reachable g
  | edit {g : Grammar} (edit : Edit) : Reachable g → Reachable (edit.apply g)

variable {g : Grammar}

/-! ### Edits by characters -/

theorem Valid.addSymbol (valid : g.Valid) (c : Char) (kind : Kind) : (g.addSymbol c kind).grammar.Valid := by
  unfold Grammar.addSymbol
  split
  · exact valid
  · rename_i s read
    split
    · rename_i allowed
      split
      · exact valid
      · rw [← Symbol.toChar_of_ofChar? read] at allowed
        exact valid.declare allowed
    · exact valid

theorem Valid.removeSymbol (valid : g.Valid) (c : Char) (kind : Kind) :
    (g.removeSymbol c kind).grammar.Valid := by
  unfold Grammar.removeSymbol
  split
  · exact valid
  · exact valid.removeSymbols _

theorem Valid.setStart (valid : g.Valid) (c : Char) : (g.setStart c).grammar.Valid := by
  unfold Grammar.setStart
  split
  · exact valid
  · rename_i s found
    exact valid.withStart (defined_eq_ok.mp found).2

theorem Valid.addProduction (valid : g.Valid) (lhs : Char) (rhs : String) :
    (g.addProduction lhs rhs).grammar.Valid := by
  unfold Grammar.addProduction
  split
  · exact valid
  · rename_i rule parsed
    split
    · exact valid
    · exact valid.addRule ((parseRule_eq_ok valid).mp parsed).2.2

theorem Valid.removeProduction (valid : g.Valid) (lhs : Char) (rhs : String) :
    (g.removeProduction lhs rhs).grammar.Valid := by
  unfold Grammar.removeProduction
  split
  · exact valid
  · simp only
    split
    · exact valid.removeRule _ _
    · exact valid.removeRule _ _

theorem Valid.removeUselessSymbols (valid : g.Valid) : g.removeUselessSymbols.grammar.Valid := by
  unfold Grammar.removeUselessSymbols
  split
  · exact valid
  · rename_i u analyzed
    obtain ⟨start, _, rfl⟩ := map_eq_ok analyzed
    exact valid.useful start

theorem Valid.toChomsky (valid : g.Valid) : g.toChomsky.grammar.Valid := by
  unfold Grammar.toChomsky
  split
  · exact valid
  · rename_i start chosen
    split
    · rename_i wellFormed
      split
      · exact valid
      · rename_i draft drafted
        exact (transformed_draftChomsky valid chosen wellFormed drafted).valid
    · exact valid

/-! ### Sequences of edits -/

theorem Valid.apply (valid : g.Valid) (edit : Edit) : (edit.apply g).Valid := by
  cases edit with
  | clear => exact valid_empty
  | addNonterminal c => exact valid.addSymbol c .nonterminal
  | addTerminal c => exact valid.addSymbol c .terminal
  | removeNonterminal c => exact valid.removeSymbol c .nonterminal
  | removeTerminal c => exact valid.removeSymbol c .terminal
  | setStart c => exact valid.setStart c
  | addProduction lhs rhs => exact valid.addProduction lhs rhs
  | removeProduction lhs rhs => exact valid.removeProduction lhs rhs
  | removeSelfRules => exact valid.removeSelfRules
  | removeEpsilonRules => exact valid.removeEpsilonRules
  | removeUnitRules => exact valid.removeUnitRules
  | removeUselessSymbols => exact valid.removeUselessSymbols
  | normalize => exact valid.normalize
  | toChomsky => exact valid.toChomsky

theorem Reachable.valid (reachable : g.Reachable) : g.Valid := by
  induction reachable with
  | empty => exact valid_empty
  | load loaded => exact valid_load loaded
  | edit edit _ ih => exact ih.apply edit

theorem reachable_balanced : balanced.Reachable := by
  have edits : balanced = Edit.apply (Edit.apply (Edit.apply (Edit.apply (Edit.apply (Edit.apply empty
      (.addNonterminal 'S')) (.addTerminal 'a')) (.addTerminal 'b')) (.addProduction 'S' "aSb"))
      (.addProduction 'S' "l")) (.setStart 'S') := by
    decide +kernel
  rw [edits]
  exact .edit _ (.edit _ (.edit _ (.edit _ (.edit _ (.edit _ .empty)))))

/-! ### What a run keeps -/

theorem Reachable.run (reachable : g.Reachable) (edits : List Edit) :
    (edits.foldl Edit.apply g).Reachable := by
  induction edits generalizing g with
  | nil => exact reachable
  | cons edit rest ih => exact ih (.edit edit reachable)

/-- After any edits of a new grammar or of one read from a text, successful or not,
symbols are declared by the case of their characters, left-hand sides are declared
and own right-hand sides, which are empty or made of declared symbols, and the start
symbol is declared. -/
theorem edits_keep_declarations {origin : Grammar}
    (begun : origin = empty ∨ ∃ text start, load text start = .ok origin) {edits : List Edit}
    (reached : edits.foldl Edit.apply origin = g) :
    (∀ s ∈ g.nonterminals, s.toChar.isUpper = true) ∧
      (∀ s ∈ g.terminals, s.toChar ≠ 'l' ∧ (s.toChar.isLower = true ∨ s.toChar.isDigit = true)) ∧
        (∀ lhs set, g.productions.get? lhs = some set →
          lhs ∈ g.nonterminals ∧ (∃ rhs, rhs ∈ set) ∧
            ∀ rhs ∈ set, rhs = .epsilon ∨ ∃ symbols, symbols ≠ [] ∧ rhs = .sequence symbols ∧
              ∀ s ∈ symbols, s ∈ g.nonterminals ∨ s ∈ g.terminals) ∧
          ∀ s, g.start = some s → s ∈ g.nonterminals := by
  have first : origin.Reachable := by
    rcases begun with rfl | ⟨text, start, loaded⟩
    · exact .empty
    · exact .load loaded
  have valid : g.Valid := by
    rw [← reached]
    exact (first.run edits).valid
  refine ⟨?_, ?_, ?_, valid.start_declared⟩
  · intro s declared
    exact Kind.ofChar?_eq_nonterminal.mp (valid.nonterminal_case s declared)
  · intro s declared
    exact Kind.ofChar?_eq_terminal.mp (valid.terminal_case s declared)
  · intro lhs set found
    refine ⟨valid.lhs_declared lhs set found, valid.lhs_inhabited lhs set found, ?_⟩
    intro rhs inside
    have admits := valid.admits (mem_rules.mpr (mem_productionsOf.mpr ⟨set, found, inside⟩) :
      (⟨lhs, rhs⟩ : Rule) ∈ g.rules)
    cases rhs with
    | epsilon => exact .inl rfl
    | sequence symbols =>
      refine .inr ⟨symbols, fun empty => admits.proper (congrArg Rhs.sequence empty), rfl, ?_⟩
      intro s member
      exact mem_symbols.mp (admits.declared s member)

/-- The second and the last but one edit fail. -/
theorem edits_keep_balanced :
    [Edit.addNonterminal 'S', .addTerminal 'l', .addTerminal 'a', .addTerminal 'b',
        .addProduction 'S' "aSb", .addProduction 'S' "l", .setStart 'S', .normalize,
        .removeProduction 'S' "b", .toChomsky].foldl Edit.apply empty =
        balanced.normalize.grammar.toChomsky.grammar ∧
      (⟨35⟩ : Symbol) ∈ balanced.normalize.grammar.toChomsky.grammar.nonterminals ∧
        ∀ s ∈ balanced.normalize.grammar.toChomsky.grammar.nonterminals, s.toChar.isUpper = true := by
  have reached : [Edit.addNonterminal 'S', .addTerminal 'l', .addTerminal 'a', .addTerminal 'b',
      .addProduction 'S' "aSb", .addProduction 'S' "l", .setStart 'S', .normalize,
      .removeProduction 'S' "b", .toChomsky].foldl Edit.apply empty =
      balanced.normalize.grammar.toChomsky.grammar := by
    decide +kernel
  exact ⟨reached, by decide +kernel, (edits_keep_declarations (.inl rfl) reached).1⟩

end Grammar

end ContextFree
