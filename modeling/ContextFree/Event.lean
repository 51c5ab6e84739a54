import ContextFree.Normalization.Report

/-! Records of what an operation did, kept in the order they arose. -/

set_option autoImplicit false

namespace ContextFree

inductive Level where
  | trace
  | debug
  deriving DecidableEq

def Level.text : Level → String
  | .trace => "TRACE"
  | .debug => "DEBUG"

inductive Event where
  | removingSymbol (s : Symbol)
  | removedSelfRules (count : Nat)
  | nullable (symbols : SymbolSet)
  | addedVariant (rule : Rule)
  | epsilonModified (count : Nat)
  | unitChain (source target : Symbol)
  | removedUnitRules (count : Nat)
  | uselessSymbol (s : Symbol) (productive reachable : Bool)
  | emptyLanguage (start : Symbol)
  | removedUselessSymbols (count : Nat)
  | normalized (report : NormalizationReport)
  | freshNonterminal (s : Symbol)
  | introduced (count : Nat)
  | filledCell (first last : Nat) (symbols : SymbolSet)
  | recognized (length : Nat) (derived : Bool)
  deriving DecidableEq

namespace Event

def level : Event → Level
  | .removedSelfRules .. | .epsilonModified .. | .removedUnitRules .. | .emptyLanguage ..
  | .removedUselessSymbols .. | .normalized .. | .introduced .. | .recognized .. => .debug
  | .removingSymbol .. | .nullable .. | .addedVariant .. | .unitChain .. | .uselessSymbol ..
  | .freshNonterminal .. | .filledCell .. => .trace

def truth (b : Bool) : String :=
  if b then "true" else "false"

def message : Event → String
  | .removingSymbol s => "removing symbol " ++ s.toChar.toString
  | .removedSelfRules count => "removed " ++ toString count ++ " useless rules"
  | .nullable symbols => "nullable symbols: \"" ++ symbols.text ++ "\""
  | .addedVariant rule => "added variant " ++ rule.text
  | .epsilonModified count => "epsilon elimination modified " ++ toString count ++ " nonterminals"
  | .unitChain source target =>
    "unit chain " ++ source.toChar.toString ++ " =>* " ++ target.toChar.toString
  | .removedUnitRules count => "removed " ++ toString count ++ " unit rules"
  | .uselessSymbol s productive reachable =>
    "useless symbol " ++ s.toChar.toString ++ ": productive=" ++ truth productive ++
      " reachable=" ++ truth reachable
  | .emptyLanguage start =>
    "the language is empty, dropping the rules of " ++ start.toChar.toString
  | .removedUselessSymbols count => "removed " ++ toString count ++ " useless symbols"
  | .normalized report => "normalized grammar: " ++ report.inspect
  | .freshNonterminal s => "fresh nonterminal " ++ s.toChar.toString
  | .introduced count =>
    "introduced " ++ toString count ++ " nonterminals for Chomsky normal form"
  | .filledCell first last symbols =>
    "cyk cell " ++ toString first ++ "..=" ++ toString last ++ ": \"" ++ symbols.text ++ "\""
  | .recognized length derived =>
    "cyk over a word of length " ++ toString length ++ ": derived=" ++ truth derived

def line (event : Event) : String :=
  event.level.text ++ " " ++ event.message

end Event

end ContextFree
