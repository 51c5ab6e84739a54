import ContextFree.Chomsky.Draft
import ContextFree.Chomsky.Form
import ContextFree.Normalization

/-! The transformation of a well-formed grammar into Chomsky normal form. -/

set_option autoImplicit false

namespace ContextFree

namespace Grammar

def draftChomsky (g : Grammar) (start : Symbol) : Except Fault Draft := do
  let draft ← (Draft.ofGrammar g).isolateStart start
  let draft ← draft.isolateTerminals
  draft.binarize

/-- Transform a well-formed grammar; the report lists the new nonterminals in
order. The stages fail only for want of letters, after all of them were used. -/
def toChomsky (g : Grammar) : Change (Except Fault (List Symbol)) :=
  match g.start with
  | none => .refuse g .notWellFormed
  | some start =>
    if g.isWellFormed then
      match g.draftChomsky start with
      | .error fault =>
        { report := .error fault
          grammar := g
          log := (Supply.avoiding g.symbols).letters.map .freshNonterminal }
      | .ok draft =>
        { report := .ok draft.introduced
          grammar := draft.grammar
          log := draft.introduced.map .freshNonterminal ++ [.introduced draft.introduced.length] }
    else .refuse g .notWellFormed

end Grammar

end ContextFree
