import ContextFree.Elimination.Epsilon
import ContextFree.Elimination.SelfRules
import ContextFree.Elimination.Unit
import ContextFree.Elimination.Useless

/-! Normalization: self rules, epsilon rules, unit rules and useless symbols go, in
this order. The result is a well-formed grammar of the same language.
-/

set_option autoImplicit false

namespace ContextFree

namespace Grammar

def normalize (g : Grammar) : Change (Except Fault NormalizationReport) :=
  match g.requireStart with
  | .error fault => .refuse g fault
  | .ok _ =>
    let noSelf := g.removeSelfRules
    let noEpsilon := noSelf.grammar.removeEpsilonRules
    let noUnit := noEpsilon.grammar.removeUnitRules
    let useful := noUnit.grammar.removeUselessSymbols
    let log := noSelf.log ++ noEpsilon.log ++ noUnit.log ++ useful.log
    match useful.report with
    -- this would come too late, with three steps done
    | .error fault => { report := .error fault, grammar := useful.grammar, log }
    | .ok uselessSymbols =>
      let report : NormalizationReport :=
        { selfRules := noSelf.report
          epsilonModified := noEpsilon.report
          unitRules := noUnit.report
          uselessSymbols }
      { report := .ok report, grammar := useful.grammar, log := log ++ [.normalized report] }

/-- There is a start symbol and no elimination has work to do. -/
def isWellFormed (g : Grammar) : Bool :=
  match g.start with
  | none => false
  | some start =>
    !g.hasSelfRules && !g.hasEpsilonRules &&
      g.rules.all (fun rule => !rule.rhs.isEpsilon || decide (rule.lhs = start)) &&
      !g.hasUnitRules && !(Usefulness.analyze g start).findsUseless g

end Grammar

end ContextFree
