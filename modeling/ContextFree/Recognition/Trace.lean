import ContextFree.Recognition.Table

/-! A table as text: one line for each length of a part, from the whole word down to
single symbols, and the word itself below.

All entries of a trace have the same width, and no line ends in a space.
-/

set_option autoImplicit false

namespace ContextFree

namespace Table

def cellChars (cell : SymbolSet) : List Char :=
  '\x7b' :: List.intercalate [','] (cell.toList.map fun s => [s.toChar]) ++ ['\x7d']

def traceEntries (table : Table) : List (List (List Char)) :=
  ((List.range' 1 table.length).reverse.map fun span =>
    (List.range (table.length + 1 - span)).map fun i => cellChars (table.grid.cell i (i + span - 1))) ++
  [table.word.map fun s => [s.toChar]]

def traceWidth (table : Table) : Nat :=
  (table.traceEntries.flatMap fun line => line.map List.length).foldl max 0

def pad (width : Nat) (entry : List Char) : List Char :=
  entry ++ List.replicate (width - entry.length) ' '

def dropTrailingSpaces (line : List Char) : List Char :=
  (line.reverse.dropWhile fun c => decide (c = ' ')).reverse

def traceLine (width : Nat) (entries : List (List Char)) : List Char :=
  dropTrailingSpaces (List.intercalate [' '] (entries.map (pad width))) ++ ['\n']

def traceChars (table : Table) : List Char :=
  table.traceEntries.flatMap (traceLine table.traceWidth)

def trace (table : Table) : String :=
  String.ofList table.traceChars

end Table

end ContextFree
