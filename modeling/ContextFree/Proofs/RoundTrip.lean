import ContextFree.Proofs.Layout
import ContextFree.Proofs.Loading
import ContextFree.Proofs.Normalization.FixedPoint
import Mathlib.Data.List.Nodup

/-! Printing and reading are inverse.

The printed lines describe the rules of a grammar, each of them once, so they are
read back. What no line mentions is lost: a declared symbol that is neither the start
nor in a rule. Grammars that were normalized or read have no such symbol.
-/

set_option autoImplicit false

namespace ContextFree

namespace Grammar

variable {g other : Grammar} {start lhs : Symbol}

/-! ### Printed lines -/

def alternativesOf (g : Grammar) (lhs : Symbol) : List Rhs :=
  (g.productionsOf lhs).mergeSort fun first second => !Ordered.before second.chars first.chars

theorem mem_alternativesOf {rhs : Rhs} : rhs ∈ g.alternativesOf lhs ↔ (⟨lhs, rhs⟩ : Rule) ∈ g.rules := by
  rw [alternativesOf, List.mem_mergeSort, mem_rules]

theorem map_chars_alternativesOf :
    (g.alternativesOf lhs).map Rhs.chars = sortAscending ((g.productionsOf lhs).map Rhs.chars) :=
  List.map_mergeSort fun _ _ _ _ => rfl

theorem productionLine?_eq_some {line : List Char} : g.productionLine? lhs = some line ↔
    g.alternativesOf lhs ≠ [] ∧
      line = lhs.toChar :: ':' :: ':' :: '=' :: List.intercalate ['|'] ((g.alternativesOf lhs).map Rhs.chars) := by
  rw [productionLine?, ← map_chars_alternativesOf]
  cases g.alternativesOf lhs with
  | nil => simp
  | cons rhs rest => simp [eq_comm]

theorem solid_line {line : List Char} (printed : g.productionLine? lhs = some line) : Text.Solid line := by
  obtain ⟨_, rfl⟩ := productionLine?_eq_some.mp printed
  have alternatives : Text.Solid (List.intercalate ['|'] ((g.alternativesOf lhs).map Rhs.chars)) :=
    Text.forall_mem_intercalate (by decide) (List.forall_mem_map.mpr fun rhs _ => rhs.solid_chars)
  simp only [Text.solid_cons]
  exact ⟨lhs.isBlank_toChar, by decide, by decide, by decide, alternatives⟩

theorem Valid.writable (valid : g.Valid) {rule : Rule} (member : rule ∈ g.rules) : rule.Writable where
  lhs := valid.nonterminal_case _ (valid.admits member).lhs
  proper := (valid.admits member).proper
  rhs s inside := valid.declarable ((valid.admits member).declared s inside)

theorem writes_line (valid : g.Valid) {line : List Char} (printed : g.productionLine? lhs = some line) :
    Writes line lhs (g.alternativesOf lhs) := by
  have solid := solid_line printed
  obtain ⟨filled, rfl⟩ := productionLine?_eq_some.mp printed
  have bars : ∀ part ∈ (g.alternativesOf lhs).map Rhs.chars, '|' ∉ part :=
    List.forall_mem_map.mpr fun rhs _ => rhs.bar_not_mem_chars
  have cut := Text.splitAtDefines_cons lhs.toChar_ne_mark.1
    (List.intercalate ['|'] ((g.alternativesOf lhs).map Rhs.chars))
  rw [← Text.trim_of_solid solid] at cut
  refine ⟨⟨_, _, cut, ?_, ?_⟩, fun rhs member => valid.writable (mem_alternativesOf.mp member)⟩
  · exact Text.trim_of_solid (by simp [lhs.isBlank_toChar])
  · rw [List.splitOn_intercalate '|' bars (by simpa using filled), List.map_map]
    exact List.map_congr_left fun rhs _ => Text.trim_of_solid rhs.solid_chars

def printedRules (g : Grammar) : List Rule :=
  g.nonterminals.listing.flatMap fun lhs => (g.alternativesOf lhs).map (Rule.mk lhs)

theorem mem_printedRules (valid : g.Valid) {rule : Rule} : rule ∈ g.printedRules ↔ rule ∈ g.rules := by
  rw [printedRules, listing_nonterminals valid, List.mem_flatMap]
  constructor
  · rintro ⟨lhs, _, inside⟩
    obtain ⟨rhs, member, rfl⟩ := List.mem_map.mp inside
    exact mem_alternativesOf.mp member
  · intro member
    refine ⟨rule.lhs, SymbolSet.mem_toList.mpr (valid.admits member).lhs, ?_⟩
    exact List.mem_map.mpr ⟨rule.rhs, mem_alternativesOf.mpr member, rfl⟩

theorem nodup_printedRules (valid : g.Valid) : g.printedRules.Nodup := by
  rw [printedRules, listing_nonterminals valid, List.nodup_flatMap]
  constructor
  · intro lhs _
    have alternatives : (g.alternativesOf lhs).Nodup := by
      rw [alternativesOf, List.nodup_mergeSort]
      unfold productionsOf
      split
      · rename_i set _
        exact set.ascending.imp Ordered.ne_of_before
      · exact List.nodup_nil
    exact alternatives.map fun _ _ same => (Rule.mk.inj same).2
  · refine g.nonterminals.pairwise_toList.imp fun before => ?_
    intro rule first second
    obtain ⟨_, _, rfl⟩ := List.mem_map.mp first
    obtain ⟨_, _, same⟩ := List.mem_map.mp second
    exact Ordered.ne_of_before before (Rule.mk.inj same).1.symm

theorem describes_render (valid : g.Valid) : Describes (Text.lines g.render.toList) g.printedRules := by
  have lines : Text.lines g.render.toList = g.nonterminals.listing.filterMap g.productionLine? := by
    rw [render, String.toList_ofList, renderChars]
    refine Text.lines_flatMap fun line member => ?_
    obtain ⟨lhs, _, printed⟩ := List.mem_filterMap.mp member
    exact (solid_line printed).oneLine
  rw [lines, printedRules]
  induction g.nonterminals.listing with
  | nil => exact .nil
  | cons lhs rest ih =>
    rw [List.flatMap_cons]
    cases printed : g.productionLine? lhs with
    | none =>
      have nothing : g.alternativesOf lhs = [] := by
        by_contra filled
        rw [productionLine?_eq_some.mpr ⟨filled, rfl⟩] at printed
        cases printed
      rw [List.filterMap_cons_none printed, nothing]
      exact ih
    | some line =>
      rw [List.filterMap_cons_some printed]
      exact .entry (writes_line valid printed) ih

/-! ### Symbols that are printed -/

/-- The symbol stands in a rule. -/
def Occurs (g : Grammar) (s : Symbol) : Prop :=
  ∃ rule ∈ g.rules, s ∈ rule.symbols

theorem Valid.mem_terminals_iff (valid : g.Valid) {s : Symbol} :
    s ∈ g.terminals ↔ s ∈ g.symbols ∧ s ∉ g.nonterminals := by
  rw [mem_symbols]
  constructor
  · intro declared
    exact ⟨.inr declared, fun member => valid.not_terminal member declared⟩
  · intro ⟨member, other⟩
    exact member.resolve_left other

theorem eq_of_symbols (left : g.Valid) (right : other.Valid)
    (rules : ∀ rule, rule ∈ other.rules ↔ rule ∈ g.rules)
    (symbols : ∀ s, s ∈ other.symbols ↔ s ∈ g.symbols) (start : other.start = g.start) : other = g := by
  have nonterminals (s : Symbol) : s ∈ other.nonterminals ↔ s ∈ g.nonterminals := by
    rw [right.mem_nonterminals_iff, left.mem_nonterminals_iff, symbols]
  have terminals (s : Symbol) : s ∈ other.terminals ↔ s ∈ g.terminals := by
    rw [right.mem_terminals_iff, left.mem_terminals_iff, symbols, nonterminals]
  refine eq_of_rules left.pruned right.pruned ⟨?_, ?_, start⟩ rules
  · exact SymbolSet.ext_contains (fun s => Bool.eq_iff_iff.mpr (nonterminals s))
      (right.nonterminals_frame.trans left.nonterminals_frame.symm)
  · exact SymbolSet.ext_contains (fun s => Bool.eq_iff_iff.mpr (terminals s))
      (right.terminals_frame.trans left.terminals_frame.symm)

theorem agrees_iff (left : g.Valid) (right : other.Valid) : other.agrees g = true ↔ other = g := by
  have nonterminals := SymbolSet.agrees_iff right.nonterminals_frame left.nonterminals_frame
  have terminals := SymbolSet.agrees_iff right.terminals_frame left.terminals_frame
  obtain ⟨_, _, _, _⟩ := g
  obtain ⟨_, _, _, _⟩ := other
  simp only [agrees, Bool.and_eq_true, nonterminals, terminals, decide_eq_true_eq, mk.injEq, and_assoc]

theorem eq_start_or_occurs_of_load {text : String} {c : Char} (loaded : load text c = .ok g) :
    ∃ start, c = start.toChar ∧ g.start = some start ∧ ∀ s ∈ g.symbols, s = start ∨ g.Occurs s := by
  obtain ⟨rules, start, described, _, same, upper, rfl⟩ := load_eq_ok.mp loaded
  refine ⟨start, same, rfl, fun s declared => ?_⟩
  rcases (mem_symbols_assemble described.writable upper).mp declared with first | ⟨rule, member, inside⟩
  · exact .inl first
  · exact .inr ⟨rule, mem_rules_assemble.mpr member, inside⟩

/-- After normalization every symbol is reached from the start, by a rule that holds it. -/
theorem eq_start_or_occurs_of_normalize (valid : g.Valid) (chosen : g.start = some start) :
    ∀ s ∈ g.normalize.grammar.symbols, s = start ∨ g.normalize.grammar.Occurs s := by
  have wellFormed := isWellFormed_normalize valid chosen
  rw [isWellFormed_iff valid.normalize (start_normalize chosen), findsUseless_eq_false valid.normalize]
    at wellFormed
  intro s declared
  rcases (wellFormed.2.2.2.1 s declared).cases_tail with same | ⟨lhs, _, rhs, member, _, inside⟩
  · exact .inl same
  · exact .inr ⟨⟨lhs, rhs⟩, member, List.mem_cons_of_mem lhs inside⟩

/-! ### Reading what was printed -/

section Printed

variable (valid : g.Valid) (chosen : g.start = some start)
include valid chosen

theorem start_case : Kind.ofChar? start.toChar = some .nonterminal :=
  valid.nonterminal_case start (valid.start_declared start chosen)

theorem load_render_eq : load g.render start.toChar = .ok (assemble g.printedRules start) :=
  load_eq_ok.mpr ⟨g.printedRules, start, describes_render valid, nodup_printedRules valid, rfl,
    start_case valid chosen, rfl⟩

theorem valid_printed : (assemble g.printedRules start).Valid :=
  valid_assemble (describes_render valid).writable (start_case valid chosen)

theorem mem_symbols_printed {s : Symbol} :
    s ∈ (assemble g.printedRules start).symbols ↔ s = start ∨ g.Occurs s := by
  rw [mem_symbols_assemble (describes_render valid).writable (start_case valid chosen)]
  simp only [Occurs, mem_printedRules valid]

theorem printed_eq_iff :
    assemble g.printedRules start = g ↔ ∀ s ∈ g.symbols, s = start ∨ g.Occurs s := by
  constructor
  · intro same s declared
    rw [← mem_symbols_printed valid chosen, same]
    exact declared
  · intro complete
    refine eq_of_symbols valid (valid_printed valid chosen) ?_ ?_ chosen.symm
    · intro rule
      rw [mem_rules_assemble, mem_printedRules valid]
    · intro s
      rw [mem_symbols_printed valid chosen]
      refine ⟨?_, complete s⟩
      rintro (rfl | ⟨rule, member, inside⟩)
      · exact mem_symbols.mpr (.inl (valid.start_declared s chosen))
      · rcases List.mem_cons.mp inside with rfl | inside
        · exact mem_symbols.mpr (.inl (valid.admits member).lhs)
        · exact (valid.admits member).declared s inside

theorem load_render_of_complete (complete : ∀ s ∈ g.symbols, s = start ∨ g.Occurs s) :
    load g.render start.toChar = .ok g := by
  rw [load_render_eq valid chosen, (printed_eq_iff valid chosen).mpr complete]

end Printed

/-- What is printed is read back with the same start and rules, and with the symbols
that are the start or occur in a rule. So a grammar without other symbols is read as it
was, as are all that were normalized or read before. -/
theorem load_render_inverse (valid : g.Valid) (chosen : g.start = some start) :
    (∃ loaded, load g.render start.toChar = .ok loaded ∧ loaded.Valid ∧ loaded.start = some start ∧
      loaded.productions = g.productions ∧ (∀ s, s ∈ loaded.symbols ↔ s = start ∨ g.Occurs s) ∧
        (loaded.agrees g = true ↔ loaded = g) ∧
          (loaded = g ↔ ∀ s ∈ g.symbols, s = start ∨ g.Occurs s)) ∧
      load g.normalize.grammar.render start.toChar = .ok g.normalize.grammar ∧
        ∀ text c known, load text c = .ok known → load known.render c = .ok known := by
  refine ⟨⟨assemble g.printedRules start, load_render_eq valid chosen, valid_printed valid chosen, rfl, ?_,
    fun s => mem_symbols_printed valid chosen, ?_, printed_eq_iff valid chosen⟩, ?_, ?_⟩
  · refine productions_eq valid.pruned (valid_printed valid chosen).pruned fun rule => ?_
    rw [mem_rules_assemble, mem_printedRules valid]
  · exact agrees_iff valid (valid_printed valid chosen)
  · exact load_render_of_complete valid.normalize (start_normalize chosen)
      (eq_start_or_occurs_of_normalize valid chosen)
  · intro text c known loaded
    obtain ⟨origin, rfl, started, complete⟩ := eq_start_or_occurs_of_load loaded
    exact load_render_of_complete (valid_load loaded) started complete

theorem load_render_balanced :
    (balanced.declare ⟨10⟩ .nonterminal).Valid ∧ (balanced.declare ⟨10⟩ .nonterminal).start = some ⟨28⟩ ∧
      ∃ loaded, load (balanced.declare ⟨10⟩ .nonterminal).render 'S' = .ok loaded ∧
        loaded.productions = balanced.productions ∧ (⟨10⟩ : Symbol) ∉ loaded.symbols := by
  have valid : (balanced.declare ⟨10⟩ .nonterminal).Valid := valid_balanced.declare (by decide)
  have chosen : (balanced.declare ⟨10⟩ .nonterminal).start = some ⟨28⟩ := rfl
  have letter : (⟨28⟩ : Symbol).toChar = 'S' := by decide
  obtain ⟨⟨loaded, succeeded, _, _, same, symbols, _⟩, _⟩ := load_render_inverse valid chosen
  rw [letter] at succeeded
  refine ⟨valid, chosen, loaded, succeeded, same, ?_⟩
  rw [symbols, not_or]
  exact ⟨by decide, by simp only [Occurs]; decide⟩

end Grammar

end ContextFree
