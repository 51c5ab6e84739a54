import ContextFree.Grammar.Edit

/-! Elimination of rules `A ::= A`. -/

set_option autoImplicit false

namespace ContextFree

def Rule.isSelf (rule : Rule) : Bool :=
  decide (rule.rhs.single? = some rule.lhs)

namespace Grammar

def selfRules (g : Grammar) : List Rule :=
  g.rules.filter Rule.isSelf

def hasSelfRules (g : Grammar) : Bool :=
  g.rules.any Rule.isSelf

/-- Remove every rule `A ::= A`. A nonterminal left without productions stays. -/
def removeSelfRules (g : Grammar) : Change (List Rule) where
  report := g.selfRules
  grammar := g.removeRules g.selfRules
  log := [.removedSelfRules g.selfRules.length]

end Grammar

end ContextFree
