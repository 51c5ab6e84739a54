import ContextFree.Proofs.Layout
import ContextFree.Proofs.Recognition.Exactness
import ContextFree.Recognition.Trace
import Mathlib.Data.List.DropRight
import Mathlib.Data.List.Fold
import Mathlib.Data.List.MinMax

/-! What a trace tells about its table.

The entries of a trace have no blanks, so a line is cut at its spaces into the entries
it was made of, and all entries are padded to one width, so each stands in a column of
its own. A cell can be read back from its entry, and so nothing is lost.
-/

set_option autoImplicit false

namespace ContextFree

/-! ### Tokens -/

namespace Text

/-- What stands between the spaces of a line, and where it begins. -/
structure Token where
  column : Nat
  chars : List Char
  deriving DecidableEq

/-- The pieces that are not empty. A space follows each piece. -/
def placed (column : Nat) : List (List Char) → List Token
  | [] => []
  | piece :: rest =>
    let others := placed (column + (piece.length + 1)) rest
    if piece = [] then others else ⟨column, piece⟩ :: others

def tokensFrom (column : Nat) (line : List Char) : List Token :=
  placed column (line.splitOn ' ')

def tokens (line : List Char) : List Token :=
  tokensFrom 0 line

def widest (lines : List (List Char)) : Nat :=
  (lines.flatMap fun line => (tokens line).map fun token => token.chars.length).foldl max 0

theorem placed_append (column : Nat) (pieces more : List (List Char)) :
    placed column (pieces ++ more) = placed column pieces ++
      placed (column + (pieces.flatMap fun piece => piece ++ [' ']).length) more := by
  induction pieces generalizing column with
  | nil => rfl
  | cons piece rest ih =>
    simp only [List.cons_append, placed, ih, List.flatMap_cons, List.length_append, List.length_singleton,
      Nat.add_assoc]
    split <;> rfl

theorem flatMap_splitOn (line : List Char) :
    ((line.splitOn ' ').flatMap fun piece => piece ++ [' ']) = line ++ [' '] := by
  induction line with
  | nil => rfl
  | cons c rest ih =>
    rw [List.splitOn_cons_eq_if_modifyHead]
    split
    · rename_i space
      rw [List.flatMap_cons, ih, eq_of_beq space]
      rfl
    · cases pieces : rest.splitOn ' ' with
      | nil => exact absurd pieces (List.splitOn_ne_nil ' ' rest)
      | cons piece others =>
        rw [pieces, List.flatMap_cons] at ih
        simp [← ih]

/-- A space parts the tokens before it from those behind it. -/
theorem tokensFrom_append (column : Nat) (line rest : List Char) :
    tokensFrom column (line ++ ' ' :: rest) =
      tokensFrom column line ++ tokensFrom (column + (line.length + 1)) rest := by
  rw [tokensFrom, List.splitOn_append_cons_self, placed_append, flatMap_splitOn, List.length_append]
  rfl

theorem tokensFrom_spaces (column count : Nat) : tokensFrom column (List.replicate count ' ') = [] := by
  induction count generalizing column with
  | zero => rfl
  | succ count ih =>
    rw [List.replicate_succ, ← List.nil_append (' ' :: _), tokensFrom_append, ih]
    rfl

theorem tokensFrom_word {word : List Char} (filled : word ≠ []) (single : ' ' ∉ word) (column count : Nat) :
    tokensFrom column (word ++ List.replicate count ' ') = [⟨column, word⟩] := by
  have only : tokensFrom column word = [⟨column, word⟩] := by
    rw [tokensFrom, List.splitOn_eq_singleton single]
    simp [placed, filled]
  cases count with
  | zero => rw [List.replicate_zero, List.append_nil, only]
  | succ count => rw [List.replicate_succ, tokensFrom_append, only, tokensFrom_spaces, List.append_nil]

end Text

/-! ### Lines -/

namespace Table

/-- A line without its end. -/
def aligned (width : Nat) (entries : List (List Char)) : List Char :=
  dropTrailingSpaces (List.intercalate [' '] (entries.map (pad width)))

theorem last_dropTrailingSpaces (line : List Char) : (dropTrailingSpaces line).getLast? ≠ some ' ' := by
  intro last
  have filled : dropTrailingSpaces line ≠ [] := by
    intro empty
    simp [empty] at last
  have visible := List.rdropWhile_last_not (fun c => decide (c = ' ')) line filled
  rw [List.getLast?_eq_some_getLast filled, Option.some.injEq] at last
  exact visible (decide_eq_true last)

theorem tokens_dropTrailingSpaces (line : List Char) :
    Text.tokens (dropTrailingSpaces line) = Text.tokens line := by
  induction line using List.reverseRecOn with
  | nil => rfl
  | append_singleton line c ih =>
    rw [dropTrailingSpaces, ← List.rdropWhile, List.rdropWhile_concat]
    split
    · rename_i space
      have behind : Text.tokens (line ++ [' ']) = Text.tokens line ++ Text.tokensFrom _ [] :=
        Text.tokensFrom_append 0 line []
      rw [of_decide_eq_true space, behind, ← ih]
      exact (List.append_nil _).symm
    · rfl

theorem length_pad {width : Nat} {entry : List Char} (fits : entry.length ≤ width) :
    (pad width entry).length = width := by
  rw [pad, List.length_append, List.length_replicate]
  omega

/-- An entry that is cut at no space and fits into a column. -/
structure Fits (width : Nat) (entry : List Char) : Prop where
  filled : entry ≠ []
  solid : Text.Solid entry
  narrow : entry.length ≤ width

theorem tokensFrom_padded {width : Nat} {entries : List (List Char)} (fit : ∀ entry ∈ entries, Fits width entry)
    (column : Nat) :
    Text.tokensFrom column (List.intercalate [' '] (entries.map (pad width))) =
      entries.mapIdx fun i entry => ⟨column + i * (width + 1), entry⟩ := by
  induction entries generalizing column with
  | nil => rfl
  | cons entry rest ih =>
    obtain ⟨first, others⟩ := List.forall_mem_cons.mp fit
    have alone : Text.tokensFrom column (pad width entry) = [⟨column, entry⟩] :=
      Text.tokensFrom_word first.filled (fun space => first.solid.ne space (by decide) rfl) _ _
    cases rest with
    | nil => simpa [List.intercalate] using alone
    | cons next more =>
      rw [List.map_cons, List.map_cons, List.intercalate_cons_cons, ← List.map_cons, List.append_assoc,
        List.singleton_append, Text.tokensFrom_append, alone, length_pad first.narrow, ih others,
        List.mapIdx_cons]
      simp [Nat.add_mul, Nat.add_assoc, Nat.add_comm]

theorem tokens_aligned {width : Nat} {entries : List (List Char)} (fit : ∀ entry ∈ entries, Fits width entry) :
    Text.tokens (aligned width entries) = entries.mapIdx fun i entry => ⟨i * (width + 1), entry⟩ := by
  rw [aligned, tokens_dropTrailingSpaces, Text.tokens, tokensFrom_padded fit]
  simp

theorem oneLine_aligned {width : Nat} {entries : List (List Char)} (fit : ∀ entry ∈ entries, Fits width entry) :
    Text.OneLine (aligned width entries) := by
  have padded : ∀ line ∈ entries.map (pad width), Text.OneLine line := by
    intro line member c found
    obtain ⟨entry, inside, rfl⟩ := List.mem_map.mp member
    rcases List.mem_append.mp found with letter | space
    · exact (fit entry inside).solid.oneLine c letter
    · rw [(List.mem_replicate.mp space).2]
      decide
  intro c found
  exact Text.forall_mem_intercalate (by decide) padded c ((List.rdropWhile_prefix _ _).subset found)

/-! ### Entries -/

theorem solid_cellChars (cell : SymbolSet) : Text.Solid (cellChars cell) := by
  have names : Text.Solid (List.intercalate [','] (cell.toList.map fun s => [s.toChar])) :=
    Text.forall_mem_intercalate (by decide) (by simp [Symbol.isBlank_toChar])
  intro c member
  rw [cellChars, List.mem_append, List.mem_cons, List.mem_singleton] at member
  rcases member with (rfl | inside) | rfl
  · decide
  · exact names c inside
  · decide

theorem filterMap_cellChars (cell : SymbolSet) : (cellChars cell).filterMap Symbol.ofChar? = cell.toList := by
  have names (symbols : List Symbol) :
      (List.intercalate [','] (symbols.map fun s => [s.toChar])).filterMap Symbol.ofChar? = symbols := by
    induction symbols with
    | nil => rfl
    | cons s rest ih =>
      cases rest with
      | nil => simp
      | cons next more =>
        have comma : Symbol.ofChar? ',' = none := rfl
        simpa [comma] using ih
  have opening : Symbol.ofChar? '\x7b' = none := rfl
  have closing : Symbol.ofChar? '\x7d' = none := rfl
  simp [cellChars, opening, closing, names]

theorem cellChars_injective {first second : SymbolSet} (same : cellChars first = cellChars second)
    (frame : first.frame = second.frame) : first = second := by
  refine SymbolSet.ext_contains (fun s => ?_) frame
  have members : first.toList = second.toList := by
    rw [← filterMap_cellChars, ← filterMap_cellChars, same]
  rw [Bool.eq_iff_iff, ← SymbolSet.mem_iff, ← SymbolSet.mem_iff, ← SymbolSet.mem_toList, members,
    SymbolSet.mem_toList]

theorem fits_traceEntries (table : Table) {line : List (List Char)} (shown : line ∈ table.traceEntries)
    {entry : List Char} (inside : entry ∈ line) : Fits table.traceWidth entry := by
  have narrow : entry.length ≤ table.traceWidth := by
    rw [traceWidth, List.foldl_eq_foldr]
    exact List.le_max_of_le' 0 (List.mem_flatMap.mpr ⟨line, shown, List.mem_map_of_mem inside⟩) le_rfl
  rcases List.mem_append.mp shown with cells | word
  · obtain ⟨span, _, rfl⟩ := List.mem_map.mp cells
    obtain ⟨i, _, rfl⟩ := List.mem_map.mp inside
    exact ⟨by simp [cellChars], solid_cellChars _, narrow⟩
  · rw [List.mem_singleton.mp word] at inside
    obtain ⟨s, _, rfl⟩ := List.mem_map.mp inside
    exact ⟨by simp, by simp [s.isBlank_toChar], narrow⟩

/-! ### Traces -/

def traceLines (table : Table) : List (List Char) :=
  Text.lines table.trace.toList

theorem toList_trace (table : Table) :
    table.trace.toList =
      (table.traceEntries.map (aligned table.traceWidth)).flatMap fun line => line ++ ['\n'] := by
  rw [trace, String.toList_ofList, List.flatMap_map]
  rfl

theorem traceLines_eq (table : Table) :
    table.traceLines = table.traceEntries.map (aligned table.traceWidth) := by
  rw [traceLines, toList_trace]
  apply Text.lines_flatMap
  intro part member
  obtain ⟨line, shown, rfl⟩ := List.mem_map.mp member
  exact oneLine_aligned fun entry inside => table.fits_traceEntries shown inside

theorem map_tokens_traceLines (table : Table) :
    table.traceLines.map Text.tokens =
      table.traceEntries.map fun line => line.mapIdx fun i entry => ⟨i * (table.traceWidth + 1), entry⟩ := by
  rw [traceLines_eq, List.map_map]
  refine List.map_congr_left fun line shown => ?_
  exact tokens_aligned fun entry inside => table.fits_traceEntries shown inside

theorem map_chars_traceLines (table : Table) :
    table.traceLines.map (fun line => (Text.tokens line).map Text.Token.chars) = table.traceEntries := by
  have dropped (line : List (List Char)) :
      (line.mapIdx fun i entry => (⟨i * (table.traceWidth + 1), entry⟩ : Text.Token)).map Text.Token.chars =
        line := by
    apply List.ext_getElem?
    simp [Function.comp_def]
  have cut := congrArg (List.map (List.map Text.Token.chars)) table.map_tokens_traceLines
  simpa [Function.comp_def, dropped] using cut

theorem widest_traceLines (table : Table) : Text.widest table.traceLines = table.traceWidth := by
  rw [Text.widest, traceWidth, ← map_chars_traceLines, List.flatMap_map]
  simp [Function.comp_def]

theorem tokens_of_traceLines (table : Table) {r : Nat} {entries : List (List Char)}
    (shown : table.traceEntries[r]? = some entries) :
    ∃ line, table.traceLines[r]? = some line ∧
      Text.tokens line = entries.mapIdx fun i entry => ⟨i * (Text.widest table.traceLines + 1), entry⟩ := by
  have cut := congrArg (fun lines => lines[r]?) table.map_tokens_traceLines
  simp only [List.getElem?_map, shown, Option.map_some, Option.map_eq_some_iff] at cut
  rw [widest_traceLines]
  exact cut

theorem length_traceEntries (table : Table) : table.traceEntries.length = table.length + 1 := by
  simp [traceEntries]

/-- Line `r` shows the parts that can start at `r + 1` places. -/
theorem getElem?_traceEntries (table : Table) {r : Nat} (inside : r < table.length) :
    table.traceEntries[r]? = some ((List.range (r + 1)).map fun i =>
      cellChars (table.grid.cell i (i + table.length - r - 1))) := by
  have reversed : (List.range' 1 table.length).reverse[r]? = some (table.length - r) := by
    rw [List.getElem?_reverse (by simpa using inside), List.length_range', List.getElem?_range' (by omega),
      Option.some.injEq]
    omega
  have count : table.length + 1 - (table.length - r) = r + 1 := by omega
  rw [traceEntries, List.getElem?_append_left (by simpa using inside), List.getElem?_map, reversed,
    Option.map_some, count]
  refine congrArg some (List.map_congr_left fun i _ => ?_)
  rw [Nat.add_sub_assoc (Nat.le_of_lt inside)]

theorem getElem?_traceEntries_last (table : Table) :
    table.traceEntries[table.length]? = some (table.word.map fun s => [s.toChar]) := by
  simp [traceEntries]

theorem shown_cell (table : Table) {i j : Nat} (ordered : i ≤ j) (inside : j < table.length) :
    (table.traceEntries[table.length - 1 - (j - i)]?.bind fun entries => entries[i]?) =
      some (cellChars (table.grid.cell i j)) := by
  have last : i + table.length - (table.length - 1 - (j - i)) - 1 = j := by omega
  rw [table.getElem?_traceEntries (by omega), Option.bind_some, List.getElem?_map,
    List.getElem?_range (by omega), Option.map_some, last]

theorem eq_of_trace {table twin : Table} (same : twin.trace = table.trace) :
    twin.word = table.word ∧ ∀ i j, twin.cell? i j = table.cell? i j := by
  have entries : twin.traceEntries = table.traceEntries := by
    rw [← map_chars_traceLines, ← map_chars_traceLines, traceLines, traceLines, same]
  have word : twin.word = table.word := by
    have last := List.singleton_inj.mp (List.append_inj' entries rfl).2
    refine List.map_injective_iff.mpr (fun s t letter => ?_) last
    exact Symbol.toChar_injective (List.singleton_inj.mp letter)
  refine ⟨word, fun i j => ?_⟩
  have length : twin.length = table.length := by rw [Table.length, word, Table.length]
  unfold cell?
  rw [length]
  split
  · rename_i inside
    have cell := table.shown_cell inside.1 inside.2
    rw [← entries, ← length, twin.shown_cell inside.1 (by omega), Option.some.injEq] at cell
    rw [cellChars_injective cell rfl]
  · rfl

end Table

namespace Grammar

variable {g : Grammar}

theorem spelled_word {text : String} {table : Table} (built : g.table text = .ok table) :
    text.toList = table.word.map Symbol.toChar := by
  obtain ⟨start, word, _, letters, rfl⟩ := table_eq_ok built
  rw [word_tableOf, letters]

/-- A trace has a line for each length of a part and one for the word, and the entry of
each cell in the column of its first symbol. The word and the cells can be told from it. -/
theorem trace_shows_table {text : String} {table : Table} (built : g.table text = .ok table) :
    (table.trace.toList = table.traceLines.flatMap fun line => line ++ ['\n']) ∧
      table.traceLines.length = text.toList.length + 1 ∧
      (∀ line ∈ table.traceLines, '\n' ∉ line ∧ line.getLast? ≠ some ' ') ∧
      (∀ r < text.toList.length, ∃ line, table.traceLines[r]? = some line ∧
        (Text.tokens line).length = r + 1 ∧ ∀ i ≤ r, ∃ cell,
          table.cell? i (i + text.toList.length - r - 1) = some cell ∧
            cell.listing.Pairwise (fun a b => Ordered.before a b = true) ∧
              (Text.tokens line)[i]? = some ⟨i * (Text.widest table.traceLines + 1),
                '\x7b' :: List.intercalate [','] (cell.listing.map fun s => [s.toChar]) ++ ['\x7d']⟩) ∧
      (∃ line, table.traceLines[text.toList.length]? = some line ∧
        Text.tokens line = text.toList.mapIdx fun i c => ⟨i * (Text.widest table.traceLines + 1), [c]⟩) ∧
      ∀ {other : Grammar} {word : String} {twin : Table}, other.table word = .ok twin →
        twin.trace = table.trace → word = text ∧ ∀ i j, twin.cell? i j = table.cell? i j := by
  have letters : text.toList = table.word.map Symbol.toChar := spelled_word built
  have length : text.toList.length = table.length := by rw [letters, List.length_map, Table.length]
  rw [length]
  refine ⟨?_, ?_, ?_, ?_, ?_, ?_⟩
  · rw [table.toList_trace, table.traceLines_eq]
  · rw [table.traceLines_eq, List.length_map, table.length_traceEntries]
  · rw [table.traceLines_eq]
    intro part member
    obtain ⟨entries, shown, rfl⟩ := List.mem_map.mp member
    have single := Table.oneLine_aligned fun entry inside => table.fits_traceEntries shown inside
    exact ⟨fun newline => (single _ newline).1 rfl, Table.last_dropTrailingSpaces _⟩
  · intro r inside
    obtain ⟨line, found, cut⟩ := table.tokens_of_traceLines (table.getElem?_traceEntries inside)
    refine ⟨line, found, by simp [cut], fun i early => ?_⟩
    refine ⟨table.grid.cell i (i + table.length - r - 1), if_pos (by omega), ?_, ?_⟩
    · rw [Grid.listing_cell]
      exact SymbolSet.pairwise_toList _
    · rw [cut, Grid.listing_cell, List.getElem?_mapIdx, List.getElem?_map, List.getElem?_range (by omega)]
      rfl
  · obtain ⟨line, found, cut⟩ := table.tokens_of_traceLines table.getElem?_traceEntries_last
    refine ⟨line, found, ?_⟩
    rw [cut, letters]
    apply List.ext_getElem?
    simp [Function.comp_def]
  · intro other word twin again same
    obtain ⟨symbols, cells⟩ := Table.eq_of_trace same
    refine ⟨?_, cells⟩
    rw [← String.toList_inj, spelled_word again, letters, symbols]

/-- Two cells with two members each, below one with a single member. -/
theorem trace_shows_repeated :
    repeated.table "aa" = .ok (repeated.tableOf ⟨28⟩ [⟨36⟩, ⟨36⟩]) ∧
      ∃ line, (repeated.tableOf ⟨28⟩ [⟨36⟩, ⟨36⟩]).traceLines[1]? = some line ∧
        (Text.tokens line)[1]? = some ⟨6, "\x7bA,S\x7d".toList⟩ := by
  have built : repeated.table "aa" = .ok (repeated.tableOf ⟨28⟩ [⟨36⟩, ⟨36⟩]) := by
    decide +kernel
  obtain ⟨_, _, _, cells, _⟩ := trace_shows_table built
  obtain ⟨line, found, _, shown⟩ := cells 1 (by decide)
  obtain ⟨cell, second, _, token⟩ := shown 1 (by decide)
  have members : (repeated.tableOf ⟨28⟩ [⟨36⟩, ⟨36⟩]).cell? 1 1 = some (.ofList [⟨10⟩, ⟨28⟩]) := by
    decide +kernel
  have width : Text.widest (repeated.tableOf ⟨28⟩ [⟨36⟩, ⟨36⟩]).traceLines = 5 := by
    decide +kernel
  have same : cell = .ofList [⟨10⟩, ⟨28⟩] := Option.some.inj (second.symm.trans members)
  refine ⟨built, line, found, ?_⟩
  rw [token, width, same]
  decide +kernel

end Grammar

end ContextFree
