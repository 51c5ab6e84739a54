import ContextFree.Rule

/-! What each step of a normalization did. -/

set_option autoImplicit false

namespace ContextFree

structure NormalizationReport where
  /-- Removed rules `A ::= A`. -/
  selfRules : List Rule
  /-- Nonterminals touched by epsilon elimination. -/
  epsilonModified : List Symbol
  /-- Removed unit rules. -/
  unitRules : List Rule
  /-- Removed nonterminals, then removed terminals. -/
  uselessSymbols : List Symbol
  deriving DecidableEq

namespace NormalizationReport

/-- No step removed a rule or a symbol. Epsilon elimination is not asked. -/
def removedNothing (report : NormalizationReport) : Bool :=
  report.selfRules.isEmpty && report.unitRules.isEmpty && report.uselessSymbols.isEmpty

def inspect (report : NormalizationReport) : String :=
  "NormalizeReport \x7b useless_productions: " ++ bracket (report.selfRules.map Rule.inspect) ++
    ", lambda_modified: " ++ bracket (report.epsilonModified.map fun s => s.toChar.toString) ++
    ", unit_productions: " ++ bracket (report.unitRules.map Rule.inspect) ++
    ", useless_symbols: " ++ bracket (report.uselessSymbols.map fun s => s.toChar.toString) ++ " \x7d"
where
  bracket (items : List String) : String :=
    "[" ++ ", ".intercalate items ++ "]"

end NormalizationReport

end ContextFree
