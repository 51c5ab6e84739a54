import ContextFree.Elimination.SelfRules
import ContextFree.Proofs.Reading
import ContextFree.Proofs.Validity

/-! Rules `A ::= A` add no word to a language. -/

set_option autoImplicit false

namespace ContextFree

namespace Grammar

variable {g : Grammar}

theorem mem_rules_removeSelfRules {rule : Rule} :
    rule ∈ g.removeSelfRules.grammar.rules ↔
      rule ∈ g.rules ∧ rule.rhs ≠ .sequence [rule.lhs] := by
  have self : rule ∈ g.selfRules ↔ rule ∈ g.rules ∧ rule.rhs = .sequence [rule.lhs] := by
    simp [selfRules, Rule.isSelf, Rhs.single?_eq_some]
  rw [removeSelfRules, mem_rules_removeRules, self]
  constructor
  · rintro ⟨member, other⟩
    exact ⟨member, fun same => other ⟨member, same⟩⟩
  · rintro ⟨member, other⟩
    exact ⟨member, fun removed => other removed.2⟩

theorem same_removeSelfRules (g : Grammar) : SameDeclarations g g.removeSelfRules.grammar :=
  same_removeRules g g.selfRules

theorem Valid.removeSelfRules (valid : g.Valid) : g.removeSelfRules.grammar.Valid :=
  valid.removeRules g.selfRules

theorem generates_removeSelfRules {s : Symbol} {word : List Symbol} :
    g.removeSelfRules.grammar.Generates s word ↔ g.Generates s word := by
  have terminals := (same_removeSelfRules g).terminals
  constructor
  · refine Generates.of_rules_subset (fun t member => terminals ▸ member) ?_
    intro rule member
    exact (mem_rules_removeSelfRules.mp member).1
  · refine Generates.mono (fun t member => terminals ▸ member) ?_
    intro rule member part spells
    by_cases self : rule.rhs = .sequence [rule.lhs]
    · -- the rule gives back the word it is given
      rw [self] at spells
      exact Spells.singleton_iff.mp spells
    · exact .of_rule (mem_rules_removeSelfRules.mpr ⟨member, self⟩) spells

end Grammar

end ContextFree
