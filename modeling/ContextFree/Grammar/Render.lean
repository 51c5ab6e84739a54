import ContextFree.Grammar.Basic

/-! Grammars as text: one line `A::=w1|w2` for each nonterminal with productions.

Alternatives are ordered as texts, so the empty string, written `l`, stands
between `k` and `m`.
-/

set_option autoImplicit false

namespace ContextFree

namespace Grammar

def productionLine? (g : Grammar) (lhs : Symbol) : Option (List Char) :=
  match sortAscending ((g.productionsOf lhs).map Rhs.chars) with
  | [] => none
  | alternatives => some (lhs.toChar :: ':' :: ':' :: '=' :: List.intercalate ['|'] alternatives)

/-- The line of a declared nonterminal, empty if it has no productions. -/
def renderProductions (g : Grammar) (lhs : Char) : Except Fault String :=
  (g.defined lhs .nonterminal).map fun s => String.ofList ((g.productionLine? s).getD [])

def renderChars (g : Grammar) : List Char :=
  (g.nonterminals.listing.filterMap g.productionLine?).flatMap fun line => line ++ ['\n']

def render (g : Grammar) : String :=
  String.ofList g.renderChars

end Grammar

end ContextFree
