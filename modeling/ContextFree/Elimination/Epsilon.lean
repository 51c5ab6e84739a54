import ContextFree.Closure
import ContextFree.Elimination.Variants
import ContextFree.Grammar.Edit

/-! Elimination of epsilon rules.

Each rule gains the variants that leave out some of its nullable symbols; then
the epsilon rules go, apart from one on a nullable start symbol.
-/

set_option autoImplicit false

namespace ContextFree

namespace Grammar

def properProductions (g : Grammar) (lhs : Symbol) : List Rhs :=
  (g.productionsOf lhs).filter fun rhs => !rhs.isEpsilon

/-- A variant is lacking if it is no rule and, where it is a single nonterminal,
does not stand for right-hand sides that are all there already. -/
def lacksVariant (g : Grammar) (lhs : Symbol) (variant : Rhs) : Bool :=
  !g.hasRule lhs variant &&
    match variant.single? with
    | some target =>
      !(g.nonterminals.contains target && (g.properProductions target).all (g.hasRule lhs))
    | none => true

def lackingVariants (g : Grammar) : List Rule :=
  let nullable := g.nullable
  g.rules.flatMap fun rule =>
    ((variants nullable rule.rhs.toList).filter (g.lacksVariant rule.lhs)).map (Rule.mk rule.lhs)

/-- Some other symbol than the start has an epsilon rule, or a variant is lacking. -/
def hasEpsilonRules (g : Grammar) : Bool :=
  let nullable := g.nullable
  g.rules.any (fun rule => rule.rhs.isEpsilon && decide (g.start ≠ some rule.lhs)) ||
    g.rules.any fun rule => anyVariant nullable rule.rhs.toList (g.lacksVariant rule.lhs)

def restoreEpsilon (g : Grammar) (nullable : SymbolSet) : Grammar :=
  match g.start with
  | some start => if nullable.contains start then g.addRule start .epsilon else g
  | none => g

/-- A grammar that variants are added to, the symbols that this changes, and the
records. -/
structure Growth where
  grammar : Grammar
  modified : SymbolSet
  log : List Event

/-- Several rules may yield one variant, and it is new only once. -/
def Growth.add (growth : Growth) (rule : Rule) : Growth :=
  match growth.grammar.insertRule rule.lhs rule.rhs with
  | (true, grammar) =>
    { grammar, modified := growth.modified.put rule.lhs, log := growth.log ++ [.addedVariant rule] }
  | (false, grammar) => { growth with grammar }

/-- Add the lacking variants and remove the epsilon rules but the start's. The
report lists the symbols that had an epsilon rule or gained a variant. -/
def removeEpsilonRules (g : Grammar) : Change (List Symbol) :=
  let nullable := g.nullable
  let growth := g.lackingVariants.foldl Growth.add ⟨g, .ofList g.epsilonLhs, [.nullable nullable]⟩
  { report := growth.modified.toList
    grammar := (growth.grammar.retain fun _ rhs => !rhs.isEpsilon).restoreEpsilon nullable
    log := growth.log ++ [.epsilonModified growth.modified.size] }

end Grammar

end ContextFree
