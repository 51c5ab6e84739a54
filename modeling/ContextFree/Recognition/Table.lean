import ContextFree.Chomsky.Form
import ContextFree.Event

/-! The table of a word: for every part of it, the nonterminals that derive the part.

The table is one matrix and is filled in place. A scan of the rules fills the cells
of single symbols. Then the cells of longer parts follow, the shorter parts first: a
part is cut in two at every place, with a binary rule over the two halves.
-/

set_option autoImplicit false

namespace ContextFree

/-- A rule `lhs ::= left right`. -/
structure BinaryRule where
  lhs : Symbol
  left : Symbol
  right : Symbol
  deriving DecidableEq

/-- A bit matrix with a row for each pair of positions in a word of `n` symbols. The
rows `i * n + j` with `i ≤ j` are in use, for the parts from `i` to `j`. -/
structure Grid (n : Nat) where
  rows : Vector (BitVec 62) (n * n)
  deriving DecidableEq

namespace Grid

variable {n : Nat}

def blank (n : Nat) : Grid n where
  rows := .replicate (n * n) 0#62

def row (n i j : Nat) : Nat :=
  i * n + j

def cell (grid : Grid n) (i j : Nat) : SymbolSet where
  members := grid.rows[row n i j]?.getD 0#62
  frame := .blank

def mark (grid : Grid n) (i j : Nat) (s : Symbol) : Grid n where
  rows := grid.rows.setIfInBounds (row n i j) ((grid.cell i j).put s).members

def markEach (grid : Grid n) (word : List Symbol) (lhs s : Symbol) : Grid n :=
  word.zipIdx.foldl (fun grid (t, i) => if t = s then grid.mark i i lhs else grid) grid

def combine (binary : List BinaryRule) (i j : Nat) (grid : Grid n) (k : Nat) : Grid n :=
  binary.foldl (fun grid rule =>
    if (grid.cell i k).contains rule.left && (grid.cell (k + 1) j).contains rule.right then
      grid.mark i j rule.lhs
    else grid) grid

def fill (binary : List BinaryRule) (grid : Grid n) (i j : Nat) : Grid n :=
  (List.range' i (j - i)).foldl (combine binary i j) grid

end Grid

/-- The scan of the rules: a rule over one symbol is entered at once, a rule over two
is kept for longer parts. -/
structure Scan (n : Nat) where
  grid : Grid n
  binary : List BinaryRule

namespace Scan

variable {n : Nat}

def read (word : List Symbol) (scan : Scan n) (rule : Rule) : Scan n :=
  match rule.rhs.toList with
  | [s] => { scan with grid := scan.grid.markEach word rule.lhs s }
  | [left, right] => { scan with binary := scan.binary ++ [⟨rule.lhs, left, right⟩] }
  | _ => scan

def ofRules (rules : List Rule) (word : List Symbol) : Scan word.length :=
  rules.foldl (read word) ⟨.blank word.length, []⟩

end Scan

structure Filling (n : Nat) where
  grid : Grid n
  log : List Event

namespace Filling

variable {n : Nat}

def step (binary : List BinaryRule) (filling : Filling n) (place : Nat × Nat) : Filling n :=
  let grid := filling.grid.fill binary place.1 place.2
  { grid, log := filling.log ++ [.filledCell place.1 place.2 (grid.cell place.1 place.2)] }

/-- The parts with two symbols or more, by length and start. -/
def places (n : Nat) : List (Nat × Nat) :=
  (List.range' 2 (n - 1)).flatMap fun span =>
    (List.range (n + 1 - span)).map fun i => (i, i + span - 1)

def ofWord (rules : List Rule) (word : List Symbol) : Filling word.length :=
  let scan := Scan.ofRules rules word
  (places word.length).foldl (step scan.binary) ⟨scan.grid, []⟩

end Filling

structure Table where
  word : List Symbol
  grid : Grid word.length
  derived : Bool
  log : List Event
  deriving DecidableEq

namespace Table

def length (table : Table) : Nat :=
  table.word.length

/-- The cell of the part from `first` to `last`, both included. -/
def cell? (table : Table) (first last : Nat) : Option SymbolSet :=
  if first ≤ last ∧ last < table.length then some (table.grid.cell first last) else none

def cells (table : Table) : List (List SymbolSet) :=
  (List.range table.length).map fun i =>
    (List.range (table.length - i)).map fun k => table.grid.cell i (i + k)

end Table

namespace Grammar

def readWord (g : Grammar) (word : String) : List Char → Except Fault (List Symbol)
  | [] => .ok []
  | c :: cs =>
    match (Symbol.ofChar? c).filter g.terminals.contains with
    | some s => (g.readWord word cs).map (s :: ·)
    | none => .error (.foreignTerminal c word)

/-- The table of a word over the terminals. The empty word leaves no record. -/
def tableOf (g : Grammar) (start : Symbol) (word : List Symbol) : Table :=
  if word.isEmpty then
    { word, grid := .blank word.length, derived := g.hasRule start .epsilon, log := [] }
  else
    let filling := Filling.ofWord g.rules word
    let derived := (filling.grid.cell 0 (word.length - 1)).contains start
    { word, grid := filling.grid, derived, log := filling.log ++ [.recognized word.length derived] }

/-- The table of a word, for a grammar in Chomsky normal form with a start symbol and
some production. -/
def table (g : Grammar) (word : String) : Except Fault Table :=
  if g.isEmpty then .error .emptyGrammar
  else do
    let start ← g.requireStart
    if g.isChomsky then
      let symbols ← g.readWord word word.toList
      return g.tableOf start symbols
    else throw .notChomsky

def recognizes (g : Grammar) (word : String) : Except Fault Bool :=
  (g.table word).map Table.derived

end Grammar

end ContextFree
