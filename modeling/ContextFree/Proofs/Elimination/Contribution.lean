import ContextFree.Proofs.Elimination.Useless

/-! Useless elimination removes the symbols that contribute to no word.

A symbol contributes where it stands in a form on the way from the start symbol to a
word. All symbols of such a form are productive, so the rules on the way there are those
that reachability follows; and a reached symbol stands in a form of productive symbols,
which derives a word.
-/

set_option autoImplicit false

namespace ContextFree

namespace Grammar

variable {g : Grammar} {start s : Symbol}

/-- The symbol stands in a form that the start symbol derives and that derives a word. -/
def Contributes (g : Grammar) (start s : Symbol) : Prop :=
  ∃ left right word, g.Derives [start] (left ++ s :: right) ∧ g.Derives (left ++ s :: right) word ∧
    ∀ t ∈ word, t ∈ g.terminals

/-- The symbol is not the start symbol and contributes to no word. -/
def Useless (g : Grammar) (start s : Symbol) : Prop :=
  s ≠ start ∧ ¬ g.Contributes start s

/-! ### Forms on the way to a word -/

theorem productive_of_derives (valid : g.Valid) {form word : List Symbol} (derives : g.Derives form word)
    (final : ∀ t ∈ word, t ∈ g.terminals) : ∀ t ∈ form, t ∈ g.productive := by
  intro t inside
  obtain ⟨part, generates, _⟩ := (spells_generates_iff.mpr ⟨derives, final⟩).exists_of_mem inside
  exact (mem_productive_iff valid).mpr ⟨part, generates⟩

theorem derives_of_productive (valid : g.Valid) {form : List Symbol}
    (productive : ∀ t ∈ form, t ∈ g.productive) :
    ∃ word, g.Derives form word ∧ ∀ t ∈ word, t ∈ g.terminals := by
  have words : ∀ t ∈ form, ∃ part, g.Generates t part := fun t inside =>
    (mem_productive_iff valid).mp (productive t inside)
  obtain ⟨word, spells⟩ := Spells.exists_of_forall words
  exact ⟨word, Derives.of_spells spells⟩

theorem exists_reaches (valid : g.Valid) {first last word : List Symbol} (derives : g.Derives first last)
    (rest : g.Derives last word) (final : ∀ t ∈ word, t ∈ g.terminals) (member : s ∈ last) :
    ∃ t ∈ first, g.Reaches t s := by
  induction derives with
  | refl => exact ⟨s, member, .refl⟩
  | step expands later ih =>
    obtain ⟨t, inside, reaches⟩ := ih rest member
    have productive := productive_of_derives valid (later.trans rest) final
    cases expands with
    | @applied rule left right listed =>
      rcases List.mem_append.mp inside with before | inside
      · exact ⟨t, List.mem_append_left _ before, reaches⟩
      · rcases List.mem_append.mp inside with below | after
        · -- the rule leads to productive symbols only
          have step : g.UsefulStep rule.lhs t := by
            refine ⟨rule.rhs, listed, fun u found => productive u ?_, below⟩
            exact List.mem_append_right _ (List.mem_append_left _ found)
          exact ⟨rule.lhs, by simp, reaches.head step⟩
        · exact ⟨t, List.mem_append_right _ (List.mem_cons_of_mem _ after), reaches⟩

theorem Reaches.exists_form (productive : start ∈ g.productive) (reaches : g.Reaches start s) :
    ∃ left right, g.Derives [start] (left ++ s :: right) ∧
      ∀ t ∈ left ++ s :: right, t ∈ g.productive := by
  induction reaches with
  | refl =>
    refine ⟨[], [], .refl _, fun t inside => ?_⟩
    rwa [List.mem_singleton.mp inside]
  | tail _ step ih =>
    obtain ⟨left, right, derives, all⟩ := ih
    obtain ⟨rhs, listed, within, inside⟩ := step
    obtain ⟨front, back, shape⟩ := List.append_of_mem inside
    have expands := Expands.applied left right listed
    simp only [shape] at expands within
    refine ⟨left ++ front, back ++ right, ?_, ?_⟩
    · simpa using derives.trans (.step expands (.refl _))
    · simp only [List.forall_mem_append, List.forall_mem_cons] at all within ⊢
      exact ⟨⟨all.1, within.1⟩, within.2.1, within.2.2, all.2.2⟩

theorem contributes_iff (valid : g.Valid) :
    g.Contributes start s ↔ start ∈ g.productive ∧ g.Reaches start s := by
  constructor
  · rintro ⟨left, right, word, derives, rest, final⟩
    have productive := productive_of_derives valid (derives.trans rest) final
    have within : s ∈ left ++ s :: right := List.mem_append_right left List.mem_cons_self
    obtain ⟨t, inside, reaches⟩ := exists_reaches valid derives rest final within
    rw [List.mem_singleton.mp inside] at reaches
    exact ⟨productive start List.mem_cons_self, reaches⟩
  · rintro ⟨productive, reaches⟩
    obtain ⟨left, right, derives, all⟩ := reaches.exists_form productive
    obtain ⟨word, rest, final⟩ := derives_of_productive valid all
    exact ⟨left, right, word, derives, rest, final⟩

theorem useless_iff (valid : g.Valid) : g.Useless start s ↔ ¬ g.Reaches start s := by
  constructor
  · rintro ⟨other, idle⟩ reaches
    by_cases productive : start ∈ g.productive
    · exact idle ((contributes_iff valid).mpr ⟨productive, reaches⟩)
    · exact other (reaches.eq_start valid productive)
  · intro unreached
    refine ⟨fun same => unreached ?_, fun contributes => unreached ((contributes_iff valid).mp contributes).2⟩
    rw [same]
    exact .refl

/-! ### What is removed -/

theorem useless_filter (valid : g.Valid) (start : Symbol) (test : Symbol → Bool) :
    (((Usefulness.analyze g start).useless g).toList.filter test).Pairwise
        (fun a b => Ordered.before a b = true) ∧
      ∀ s, s ∈ ((Usefulness.analyze g start).useless g).toList.filter test ↔
        (s ∈ g.symbols ∧ g.Useless start s) ∧ test s = true := by
  refine ⟨(SymbolSet.pairwise_toList _).filter test, fun s => ?_⟩
  rw [List.mem_filter, SymbolSet.mem_toList, mem_useless, useless_iff valid]

theorem mem_symbols_useful : s ∈ (g.useful start).symbols ↔ s ∈ g.symbols ∧ g.Reaches start s := by
  rw [mem_symbols, mem_nonterminals_useful, mem_terminals_useful, mem_symbols, or_and_right]

/-- Useless elimination removes the useless symbols: it reports the nonterminals among
them, then the terminals. The start symbol stays and keeps its words; the rules over
symbols that are left stay, none if there is no word; and nothing useless is left. -/
theorem removeUselessSymbols_removes_useless (valid : g.Valid) (chosen : g.start = some start) :
    (∃ nonterminals terminals, g.removeUselessSymbols.report = .ok (nonterminals ++ terminals) ∧
      (nonterminals.Pairwise (fun a b => Ordered.before a b = true) ∧
        ∀ s, s ∈ nonterminals ↔ s ∈ g.nonterminals ∧ g.Useless start s) ∧
      (terminals.Pairwise (fun a b => Ordered.before a b = true) ∧
        ∀ s, s ∈ terminals ↔ s ∈ g.terminals ∧ g.Useless start s)) ∧
    (∀ s, s ∈ g.removeUselessSymbols.grammar.nonterminals ↔ s ∈ g.nonterminals ∧ ¬ g.Useless start s) ∧
    (∀ s, s ∈ g.removeUselessSymbols.grammar.terminals ↔ s ∈ g.terminals ∧ ¬ g.Useless start s) ∧
    start ∈ g.removeUselessSymbols.grammar.nonterminals ∧
    g.removeUselessSymbols.grammar.start = some start ∧
    (∀ word, g.removeUselessSymbols.grammar.Generates start word ↔ g.Generates start word) ∧
    (∀ rule, rule ∈ g.removeUselessSymbols.grammar.rules ↔
      (∃ word, g.Generates start word) ∧ rule ∈ g.rules ∧
        rule.lhs ∈ g.removeUselessSymbols.grammar.symbols ∧
          ∀ s ∈ rule.rhs.toList, s ∈ g.removeUselessSymbols.grammar.symbols) ∧
    g.removeUselessSymbols.grammar.hasUselessSymbols = .ok false := by
  obtain ⟨succeeded, result⟩ := removeUselessSymbols_of_start chosen
  rw [succeeded, result]
  refine ⟨⟨_, _, rfl, ?_, ?_⟩, ?_, ?_, ?_, start_useful chosen, fun word => generates_start_useful valid,
    ?_, ?_⟩
  · obtain ⟨ascending, members⟩ := useless_filter valid start g.nonterminals.contains
    refine ⟨ascending, fun s => ?_⟩
    rw [members, mem_symbols, ← SymbolSet.mem_iff]
    constructor
    · rintro ⟨⟨_, useless⟩, declared⟩
      exact ⟨declared, useless⟩
    · rintro ⟨declared, useless⟩
      exact ⟨⟨.inl declared, useless⟩, declared⟩
  · obtain ⟨ascending, members⟩ := useless_filter valid start fun s => !g.nonterminals.contains s
    refine ⟨ascending, fun s => ?_⟩
    rw [members, mem_symbols, Bool.not_eq_true', ← Bool.not_eq_true, ← SymbolSet.mem_iff]
    constructor
    · rintro ⟨⟨declared, useless⟩, other⟩
      exact ⟨declared.resolve_left other, useless⟩
    · rintro ⟨declared, useless⟩
      exact ⟨⟨.inr declared, useless⟩, fun member => valid.not_terminal member declared⟩
  · intro s
    rw [mem_nonterminals_useful, useless_iff valid, not_not]
  · intro s
    rw [mem_terminals_useful, useless_iff valid, not_not]
  · exact mem_nonterminals_useful.mpr ⟨valid.start_declared start chosen, .refl⟩
  · intro rule
    rw [mem_rules_useful valid, mem_productive_iff valid]
    simp only [mem_symbols_useful]
    refine and_congr_right fun _ => and_congr_right fun member => ?_
    have admits := valid.admits member
    rw [and_iff_right (mem_symbols.mpr (.inl admits.lhs))]
    exact and_congr_right fun _ => forall₂_congr fun s inside =>
      (and_iff_right (admits.declared s inside)).symm
  · rw [hasUselessSymbols_of_start (start_useful chosen), findsUseless_useful valid]

/-- The rules `S ::= a`, `S ::= XB`, `X ::= X` and `B ::= b`. Symbol 28 is `S`, 33 and 11
are `X` and `B`, 36 and 37 are `a` and `b`. -/
def blocked : Grammar :=
  let nonterminals := ((empty.declare ⟨28⟩ .nonterminal).declare ⟨33⟩ .nonterminal).declare ⟨11⟩ .nonterminal
  let symbols := (nonterminals.declare ⟨36⟩ .terminal).declare ⟨37⟩ .terminal
  (symbols.addRules
    [⟨⟨28⟩, .sequence [⟨36⟩]⟩, ⟨⟨28⟩, .sequence [⟨33⟩, ⟨11⟩]⟩, ⟨⟨33⟩, .sequence [⟨33⟩]⟩,
      ⟨⟨11⟩, .sequence [⟨37⟩]⟩]).withStart ⟨28⟩

/-- The symbol `B` has a word and stands on a right-hand side of `S`, but beside `X`,
which has none. -/
theorem removeUselessSymbols_unblocks :
    blocked.Valid ∧ blocked.start = some ⟨28⟩ ∧
      blocked.removeUselessSymbols.report = .ok [⟨11⟩, ⟨33⟩, ⟨37⟩] ∧ blocked.Useless ⟨28⟩ ⟨11⟩ ∧
        blocked.removeUselessSymbols.grammar.Generates ⟨28⟩ [⟨36⟩] := by
  have valid : blocked.Valid := by decide +kernel
  obtain ⟨_, kept, _, _, _, words, _⟩ := removeUselessSymbols_removes_useless valid rfl
  have word : blocked.Generates ⟨28⟩ [⟨36⟩] := by
    refine .of_rule (show (⟨⟨28⟩, .sequence [⟨36⟩]⟩ : Rule) ∈ blocked.rules by decide +kernel) ?_
    exact Spells.singleton_iff.mpr (.of_terminal (by decide))
  have gone : (⟨11⟩ : Symbol) ∉ blocked.removeUselessSymbols.grammar.nonterminals := by decide +kernel
  refine ⟨valid, rfl, by decide +kernel, ?_, (words _).mpr word⟩
  by_contra useful
  exact gone ((kept ⟨11⟩).mpr ⟨by decide +kernel, useful⟩)

end Grammar

end ContextFree
