import ContextFree.Proofs.Recognition.Membership

/-! What the table of a word tells, for every grammar it is built for.

A cell lists the nonterminals with a derivation tree for its part, by rules over
one or two symbols, and the word is derived if the start symbol is in the cell of
the whole. This is membership where epsilon elimination has no work left.
-/

set_option autoImplicit false

namespace ContextFree

/-! ### Listed cells -/

theorem Grid.listing_cell {n : Nat} (grid : Grid n) (i j : Nat) :
    (grid.cell i j).listing = (grid.cell i j).toList :=
  SymbolSet.listing_eq_toList (by decide : PackedBits.blank.width ≤ 256)

namespace Grammar

variable {g : Grammar} {start : Symbol}

theorem table_eq_ok {text : String} {table : Table} (built : g.table text = .ok table) :
    ∃ start word, g.start = some start ∧ text.toList = word.map Symbol.toChar ∧
      table = g.tableOf start word := by
  unfold Grammar.table at built
  split at built
  · cases built
  · obtain ⟨start, required, built⟩ := bind_eq_ok built
    split at built
    · obtain ⟨word, read, built⟩ := bind_eq_ok built
      cases built
      refine ⟨start, word, ?_, (readWord_eq_ok.mp read).1, rfl⟩
      unfold requireStart at required
      split at required
      · cases required
        assumption
      · cases required
    · cases built

theorem word_tableOf (g : Grammar) (start : Symbol) (word : List Symbol) : (g.tableOf start word).word = word := by
  unfold tableOf
  split <;> rfl

theorem cell?_tableOf {word : List Symbol} {i j : Nat} (ordered : i ≤ j) (inside : j < word.length) :
    (g.tableOf start word).cell? i j = some ((Filling.ofWord g.rules word).grid.cell i j) := by
  cases word with
  | nil => cases inside
  | cons t rest => exact if_pos ⟨ordered, inside⟩

theorem mem_listing_cell {word : List Symbol} {i j : Nat} (ordered : i ≤ j) (inside : j < word.length) {s : Symbol} :
    s ∈ ((Filling.ofWord g.rules word).grid.cell i j).listing ↔
      Composes g.rules s (part word i (j + 1 - i)) := by
  rw [Grid.listing_cell, SymbolSet.mem_toList, Filling.mem_cell_ofWord ordered inside]

/-- A cell is recorded when it is filled, and the record shows it as it is in the end. -/
theorem log_tableOf {word : List Symbol} (filled : word ≠ []) :
    (g.tableOf start word).log =
      (Filling.places word.length).map (fun place =>
        .filledCell place.1 place.2 ((Filling.ofWord g.rules word).grid.cell place.1 place.2)) ++
          [.recognized word.length (g.tableOf start word).derived] := by
  cases word with
  | nil => exact absurd rfl filled
  | cons t rest => exact congrArg (· ++ _) (Filling.done_ofWord g.rules (t :: rest)).log

/-- The cell from `i` to `j` lists, in ascending order, the nonterminals with a
derivation tree for this part of the word. -/
theorem table_cells_exact (valid : g.Valid) {text : String} {table : Table}
    (built : g.table text = .ok table) (filled : 1 ≤ text.toList.length) :
    symbolsText table.word = text ∧
      (∀ i j, i ≤ j → j < text.toList.length → ∃ cell, table.cell? i j = some cell ∧
        cell.listing.Pairwise (fun a b => Ordered.before a b = true) ∧
          ∀ s, s ∈ cell.listing ↔
            s ∈ g.nonterminals ∧ Composes g.rules s (part table.word i (j + 1 - i))) ∧
        ∃ start whole, g.start = some start ∧
          table.cell? 0 (text.toList.length - 1) = some whole ∧
            (table.derived = true ↔ start ∈ whole.listing) := by
  obtain ⟨start, word, chosen, letters, rfl⟩ := table_eq_ok built
  have length : text.toList.length = word.length := by rw [letters, List.length_map]
  rw [length] at filled ⊢
  rw [word_tableOf]
  refine ⟨?_, ?_, start, _, chosen, cell?_tableOf (Nat.zero_le _) (by omega), ?_⟩
  · rw [symbolsText, ← letters, String.ofList_toList]
  · intro i j ordered inside
    refine ⟨_, cell?_tableOf ordered inside, ?_, fun s => ?_⟩
    · rw [Grid.listing_cell]
      exact SymbolSet.pairwise_toList _
    rw [mem_listing_cell ordered inside]
    -- a composed symbol has a rule, and so it is declared
    refine ⟨fun composes => ⟨?_, composes⟩, And.right⟩
    obtain ⟨rhs, member⟩ := composes.exists_rule
    exact (valid.admits member).lhs
  · have cell : (g.tableOf start word).derived =
        ((Filling.ofWord g.rules word).grid.cell 0 (word.length - 1)).contains start := by
      cases word with
      | nil => cases filled
      | cons t rest => rfl
    rw [cell, ← SymbolSet.mem_iff, Grid.listing_cell, SymbolSet.mem_toList]

/-- The rules `S ::= SA`, `S ::= l` and `A ::= a`. Symbol 28 is `S`, 10 and 36 are `A`
and `a`. -/
def trailing : Grammar :=
  [Edit.addNonterminal 'S', .addNonterminal 'A', .addTerminal 'a', .addProduction 'S' "SA",
    .addProduction 'S' "l", .addProduction 'A' "a", .setStart 'S'].foldl Edit.apply empty

theorem valid_trailing : trailing.Valid :=
  (Reachable.empty.run _).valid

/-- The rule `S ::= a` stands beside those of `trailing`. -/
def repeated : Grammar :=
  Edit.apply trailing (.addProduction 'S' "a")

theorem valid_repeated : repeated.Valid :=
  valid_trailing.apply _

theorem table_cells_repeated :
    repeated.table "aa" = .ok (repeated.tableOf ⟨28⟩ [⟨36⟩, ⟨36⟩]) ∧
      Composes repeated.rules ⟨28⟩ [⟨36⟩, ⟨36⟩] ∧ ¬ Composes repeated.rules ⟨10⟩ [⟨36⟩, ⟨36⟩] := by
  have built : repeated.table "aa" = .ok (repeated.tableOf ⟨28⟩ [⟨36⟩, ⟨36⟩]) := by
    decide +kernel
  obtain ⟨_, cells, _⟩ := table_cells_exact valid_repeated built (by decide)
  obtain ⟨cell, found, _, listed⟩ := cells 0 1 (by decide) (by decide)
  have whole : (repeated.tableOf ⟨28⟩ [⟨36⟩, ⟨36⟩]).cell? 0 1 = some (.ofList [⟨28⟩]) := by
    decide +kernel
  rw [whole, Option.some.injEq] at found
  subst found
  refine ⟨built, ((listed ⟨28⟩).mp (by decide +kernel)).2, fun composes => ?_⟩
  have impossible := (listed ⟨10⟩).mpr ⟨by decide +kernel, composes⟩
  revert impossible
  decide +kernel

/-! ### Recognized words -/

/-- In normal form the recognizer answers for every word of terminals. It finds the
words that need no epsilon rule, and the empty word if the start symbol has one:
these are words of the language. They are all its words if the start symbol has no
epsilon rule, or occurs on no right-hand side, or epsilon elimination has no work. -/
theorem recognizes_chomsky (valid : g.Valid) (filled : g.isEmpty = false) (chosen : g.start = some start)
    (chomsky : g.isChomsky = true) {word : List Symbol} (final : ∀ t ∈ word, t ∈ g.terminals) :
    (∃ derived, g.recognizes (symbolsText word) = .ok derived ∧
      (derived = true ↔
        word = [] ∧ (⟨start, .epsilon⟩ : Rule) ∈ g.rules ∨ g.withoutEpsilon.Generates start word)) ∧
      (g.recognizes (symbolsText word) = .ok true → g.Generates start word) ∧
        ((⟨start, .epsilon⟩ : Rule) ∉ g.rules ∨ g.occursOnRhs start = false ∨
            g.hasEpsilonRules = false →
          (g.recognizes (symbolsText word) = .ok true ↔ g.Generates start word)) := by
  have spelled : (symbolsText word).toList = word.map Symbol.toChar := String.toList_ofList
  have read : g.readWord (symbolsText word) (symbolsText word).toList = .ok word :=
    readWord_eq_ok.mpr ⟨spelled, final⟩
  have answer : g.recognizes (symbolsText word) = .ok (g.tableOf start word).derived := by
    rw [recognizes_eq (by simp [filled]) chosen chomsky, read]
    rfl
  have finds := derived_tableOf_iff valid chomsky chosen final
  rw [answer, Except.ok.injEq]
  refine ⟨⟨_, rfl, finds⟩, ?_, fun settled => ?_⟩
  · rw [finds]
    rintro (⟨rfl, member⟩ | generates)
    · exact generates_nil_of_epsilon member
    · exact generates_of_withoutEpsilon generates
  · have covered : g.Covered := by
      rcases settled with missing | isolated | settled
      · exact covered_of_chomsky valid chomsky chosen (.inl missing)
      · exact covered_of_chomsky valid chomsky chosen (.inr isolated)
      · exact (hasEpsilonRules_of_chomsky chomsky chosen).mp settled
    exact derived_tableOf valid chomsky chosen covered final

theorem recognizes_repeated :
    (⟨⟨28⟩, .epsilon⟩ : Rule) ∈ repeated.rules ∧ repeated.occursOnRhs ⟨28⟩ = true ∧
      repeated.Generates ⟨28⟩ [⟨36⟩, ⟨36⟩] := by
  have terminals : ∀ t ∈ ([⟨36⟩, ⟨36⟩] : List Symbol), t ∈ repeated.terminals := by decide +kernel
  have chomsky : repeated.isChomsky = true := by decide +kernel
  obtain ⟨_, _, decides⟩ := recognizes_chomsky valid_repeated (by decide)
    (show repeated.start = some ⟨28⟩ from rfl) chomsky terminals
  have settled : repeated.hasEpsilonRules = false := by decide +kernel
  refine ⟨by decide +kernel, by decide +kernel, (decides (.inr (.inr settled))).mp ?_⟩
  decide +kernel

/-- The start symbol of `trailing` derives `a` by way of its epsilon rule, and the
recognizer denies it. -/
theorem recognizes_trailing :
    trailing.Valid ∧ trailing.isEmpty = false ∧ trailing.start = some ⟨28⟩ ∧
      trailing.isChomsky = true ∧ (⟨36⟩ : Symbol) ∈ trailing.terminals ∧
        trailing.recognizes "a" = .ok false ∧ trailing.Generates ⟨28⟩ [⟨36⟩] := by
  refine ⟨valid_trailing, by decide, rfl, by decide +kernel, by decide, by decide +kernel, ?_⟩
  have one : (⟨⟨10⟩, .sequence [⟨36⟩]⟩ : Rule) ∈ trailing.rules := by decide +kernel
  have two : (⟨⟨28⟩, .sequence [⟨28⟩, ⟨10⟩]⟩ : Rule) ∈ trailing.rules := by decide +kernel
  have letter : trailing.Generates ⟨10⟩ [⟨36⟩] :=
    .of_rule one (Spells.singleton_iff.mpr (.of_terminal (by decide)))
  have nothing : trailing.Generates ⟨28⟩ [] := generates_nil_of_epsilon (by decide +kernel)
  exact .of_rule two (.cons nothing (Spells.singleton_iff.mpr letter))

end Grammar

end ContextFree
