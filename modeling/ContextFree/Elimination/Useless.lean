import ContextFree.Closure
import ContextFree.Grammar.Edit

/-! Elimination of symbols that occur in no derivation of a terminal string.

Symbols are reached from the start through rules whose symbols are all
productive, so what is left after the elimination is useful.
-/

set_option autoImplicit false

namespace ContextFree

structure Usefulness where
  start : Symbol
  productive : SymbolSet
  reachable : SymbolSet
  deriving DecidableEq

/-- What stands on the right-hand sides of a symbol that have productive symbols only.
-/
def Grammar.usefulTargets (g : Grammar) (productive : SymbolSet) (lhs : Symbol) : List Symbol :=
  ((g.productionsOf lhs).filter fun rhs => rhs.within productive).flatMap Rhs.toList

namespace Usefulness

/-- Analyze from the given start symbol, which counts as reached in any case. -/
def analyze (g : Grammar) (start : Symbol) : Usefulness :=
  let productive := g.productive
  let search := Search.run (.along (g.usefulTargets productive))
    ⟨SymbolSet.ofList [start], if productive.contains start then [start] else []⟩
  { start, productive, reachable := search.found }

def isLanguageEmpty (u : Usefulness) : Bool :=
  !u.productive.contains u.start

def useless (u : Usefulness) (g : Grammar) : SymbolSet :=
  g.symbols.difference u.reachable

/-- There is a useless symbol, or an unproductive start symbol has rules. -/
def findsUseless (u : Usefulness) (g : Grammar) : Bool :=
  !(u.useless g).isEmpty || (u.isLanguageEmpty && !(g.productionsOf u.start).isEmpty)

end Usefulness

namespace Grammar

def usefulness (g : Grammar) : Except Fault Usefulness :=
  g.requireStart.map (Usefulness.analyze g)

def hasUselessSymbols (g : Grammar) : Except Fault Bool :=
  g.usefulness.map fun u => u.findsUseless g

/-- Remove what the analysis finds useless. If the language is empty, the start
symbol stays and loses its rules. The report lists nonterminals, then others. -/
def removeUseless (g : Grammar) (u : Usefulness) : Change (List Symbol) :=
  let useless := u.useless g
  let removed := useless.toList.filter g.nonterminals.contains ++
    useless.toList.filter fun s => !g.nonterminals.contains s
  let kept := g.removeSymbols useless
  { report := removed
    grammar := if u.isLanguageEmpty then kept.retain fun lhs _ => decide (lhs ≠ u.start) else kept
    log := (useless.toList.map fun s =>
        .uselessSymbol s (u.productive.contains s) (u.reachable.contains s)) ++
      removalLog useless ++
      (if u.isLanguageEmpty then [.emptyLanguage u.start] else []) ++
      [.removedUselessSymbols removed.length] }

def removeUselessSymbols (g : Grammar) : Change (Except Fault (List Symbol)) :=
  match g.usefulness with
  | .error fault => .refuse g fault
  | .ok u =>
    let change := g.removeUseless u
    { change with report := .ok change.report }

end Grammar

end ContextFree
