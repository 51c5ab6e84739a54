import ContextFree.Grammar.Edit

/-! Chomsky normal form: every rule is `A ::= BC` for two nonterminals or `A ::= a`
for a terminal; the start symbol may also have an empty right-hand side.
-/

set_option autoImplicit false

namespace ContextFree

namespace Grammar

def isChomskyRule (g : Grammar) (rule : Rule) : Bool :=
  match rule.rhs.toList with
  | [] => decide (g.start = some rule.lhs)
  | [s] => g.terminals.contains s
  | [left, right] => g.nonterminals.contains left && g.nonterminals.contains right
  | _ => false

def isChomsky (g : Grammar) : Bool :=
  g.rules.all g.isChomskyRule

def checkChomskyRule (g : Grammar) (lhs : Char) (rhs : String) : Except Fault Unit :=
  match g.parseRule lhs rhs with
  | .error fault => .error fault
  | .ok rule => if g.isChomskyRule rule then .ok () else .error (.notChomskyRule lhs rhs)

end Grammar

end ContextFree
