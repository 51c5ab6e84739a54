import ContextFree.Grammar.Edit
import ContextFree.Text.Blank
import ContextFree.Text.Lines

/-! Reading a grammar from lines `A::=w1|w2`.

Symbols are declared at their first use, by the case of their character. The
same left-hand side may have several lines. Blank lines, and blanks around a
left-hand side or an alternative, are skipped.
-/

set_option autoImplicit false

namespace ContextFree

inductive LoadCause where
  | noDefines
  | badLhs
  | notASymbol (c : Char)
  | refused (fault : Fault)
  deriving DecidableEq

def LoadCause.reason : LoadCause → String
  | .noDefines => "expected `::=`"
  | .badLhs => "expected a single nonterminal before `::=`"
  | .notASymbol c => "`" ++ c.toString ++ "` is not a grammar symbol"
  | .refused fault => fault.reason

/-- A cause with its place; lines and columns count from one. They are exact numbers,
where a program with counters of 32 bits is right up to line and column `4294967295`. -/
structure LoadError where
  cause : LoadCause
  line : Nat
  column : Nat
  deriving DecidableEq

namespace LoadError

def reason (error : LoadError) : String :=
  error.cause.reason

def message (error : LoadError) : String :=
  "Parse error at line " ++ toString error.line ++ " column " ++ toString error.column ++
    ": reason: " ++ error.reason

end LoadError

namespace Grammar

def declareChar (g : Grammar) (c : Char) : Except LoadCause Grammar :=
  match g.declared? c, Symbol.ofChar? c, Kind.ofChar? c with
  | some _, _, _ => .ok g
  | none, some s, some kind => .ok (g.declare s kind)
  | none, _, _ => .error (.notASymbol c)

/-- A place on one line: a cause at an offset from the line's first character
that is not blank. -/
abbrev LineError := LoadCause × Nat

def declareChars (g : Grammar) (offset : Nat) : List Char → Except LineError Grammar
  | [] => .ok g
  | c :: cs =>
    match g.declareChar c with
    | .ok g => g.declareChars (offset + 1) cs
    | .error cause => .error (cause, offset)

def loadAlternative (g : Grammar) (lhs : Char) (offset : Nat) (alternative : List Char) :
    Except LineError Grammar := do
  let rhs := Text.trim alternative
  let offset := offset + Text.indent alternative
  let g ← if rhs = ['l'] then .ok g else g.declareChars offset rhs
  let change := g.addProduction lhs (String.ofList rhs)
  match change.report with
  | .ok () => .ok change.grammar
  | .error fault => .error (.refused fault, offset)

def loadAlternatives (g : Grammar) (lhs : Char) (offset : Nat) :
    List (List Char) → Except LineError Grammar
  | [] => .ok g
  | alternative :: rest => do
    let g ← g.loadAlternative lhs offset alternative
    g.loadAlternatives lhs (offset + alternative.length + 1) rest

def loadLhs (g : Grammar) (lhs : Char) : Except LoadCause Grammar := do
  let g ← g.declareChar lhs
  match g.defined lhs .nonterminal with
  | .ok _ => .ok g
  | .error fault => .error (.refused fault)

def loadTrimmed (g : Grammar) (line : List Char) : Except LineError Grammar :=
  match Text.splitAtDefines line with
  | none => .error (.noDefines, 0)
  | some (before, after) =>
    match Text.trim before with
    | [lhs] =>
      match g.loadLhs lhs with
      | .error cause => .error (cause, 0)
      | .ok g => g.loadAlternatives lhs (before.length + 3) (after.splitOn '|')
    | _ => .error (.badLhs, 0)

def loadLine (g : Grammar) (number : Nat) (line : List Char) : Except LoadError Grammar :=
  match Text.trim line with
  | [] => .ok g
  | trimmed =>
    match g.loadTrimmed trimmed with
    | .ok g => .ok g
    | .error (cause, offset) => .error ⟨cause, number, Text.indent line + offset + 1⟩

def loadLines (g : Grammar) (number : Nat) : List (List Char) → Except LoadError Grammar
  | [] => .ok g
  | line :: rest => do
    let g ← g.loadLine number line
    g.loadLines (number + 1) rest

def loadStart (g : Grammar) (start : Char) : Except LoadCause Grammar := do
  let g ← g.declareChar start
  match g.defined start .nonterminal with
  | .ok s => .ok (g.withStart s)
  | .error fault => .error (.refused fault)

/-- Read a grammar. Faults of the start symbol are placed at the first character
of the text. -/
def load (text : String) (start : Char) : Except LoadError Grammar := do
  let g ← empty.loadLines 1 (Text.lines text.toList)
  match g.loadStart start with
  | .ok g => .ok g
  | .error cause => .error ⟨cause, 1, 1⟩

end Grammar

end ContextFree
