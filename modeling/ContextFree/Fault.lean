import ContextFree.Rule

/-! Reasons why a grammar operation refuses its input. -/

set_option autoImplicit false

namespace ContextFree

inductive FaultClass where
  /-- The arguments are malformed or do not fit the grammar's symbols. -/
  | validation
  /-- The grammar is not in the state the operation asks for. -/
  | precondition
  /-- A word has a character that is no terminal. -/
  | word
  deriving DecidableEq

def FaultClass.text : FaultClass → String
  | .validation => "validation"
  | .precondition => "precondition"
  | .word => "word"

inductive Fault where
  | cannotBe (c : Char) (kind : Kind)
  | alreadyDefined (c : Char)
  | notDefined (c : Char) (kind : Kind)
  | emptyRhs
  | foreignSymbol (c : Char) (rhs : String)
  | duplicate (rule : Rule)
  | missing (lhs : Char) (rhs : String)
  | noStart
  | notChomskyRule (lhs : Char) (rhs : String)
  | notWellFormed
  | outOfLetters
  | emptyGrammar
  | notChomsky
  | foreignTerminal (c : Char) (word : String)
  deriving DecidableEq

namespace Fault

def kind : Fault → FaultClass
  | .cannotBe .. | .alreadyDefined .. | .notDefined .. | .emptyRhs | .foreignSymbol ..
  | .duplicate .. | .missing .. => .validation
  | .noStart | .notChomskyRule .. | .notWellFormed | .outOfLetters | .emptyGrammar
  | .notChomsky => .precondition
  | .foreignTerminal .. => .word

def reason : Fault → String
  | .cannotBe c kind => "`" ++ c.toString ++ "` cannot be a " ++ kind.text
  | .alreadyDefined c => "`" ++ c.toString ++ "` is already defined"
  | .notDefined c kind => "`" ++ c.toString ++ "` is not a " ++ kind.text
  | .emptyRhs => "a right-hand side cannot be empty, the empty string is written as `l`"
  | .foreignSymbol c rhs =>
    "`" ++ c.toString ++ "` in `" ++ rhs ++ "` is not a symbol of the grammar"
  | .duplicate rule => "production " ++ rule.text ++ " already exists"
  | .missing lhs rhs => "production " ++ lhs.toString ++ "::=" ++ rhs ++ " does not exist"
  | .noStart => "the grammar has no start symbol"
  | .notChomskyRule lhs rhs => lhs.toString ++ "::=" ++ rhs ++ " is not in Chomsky normal form"
  | .notWellFormed =>
    "only a well-formed grammar can be transformed into Chomsky normal form"
  | .outOfLetters => "no uppercase letter is left for a new nonterminal"
  | .emptyGrammar => "the grammar is empty"
  | .notChomsky => "the grammar is not in Chomsky normal form"
  | .foreignTerminal c word =>
    "`" ++ c.toString ++ "` in `" ++ word ++ "` is not a terminal of the grammar"

def message (fault : Fault) : String :=
  fault.kind.text ++ " error: " ++ fault.reason

end Fault

end ContextFree
