import ContextFree.Elimination.Epsilon
import ContextFree.Proofs.Closure
import ContextFree.Proofs.Elimination.Variants

/-! Epsilon elimination keeps all words but the empty one.

A rule whose nullable symbols generate the empty word is replaced by the variant
without them. A variant may be missing where it is one nonterminal whose
right-hand sides are all there: then the derivation continues with one of these
right-hand sides and the same words below it.
-/

set_option autoImplicit false

namespace ContextFree

/-! ### Words of the symbols that are left -/

section Deletions

variable {nullable : SymbolSet} {symbols kept : List Symbol}

theorem spells_of_mem_deletions {reading : Reading} (null : ∀ s ∈ nullable, reading s [])
    (member : kept ∈ deletions nullable symbols) {word : List Symbol}
    (spells : Spells reading kept word) : Spells reading symbols word := by
  induction symbols generalizing kept word with
  | nil =>
    rw [deletions, List.mem_singleton] at member
    rwa [member] at spells
  | cons s rest ih =>
    rcases mem_deletions_cons.mp member with ⟨tail, found, rfl⟩ | ⟨inside, found⟩
    · obtain ⟨first, second, rfl, head, spells⟩ := Spells.cons_iff.mp spells
      exact .cons head (ih found spells)
    · exact .cons (null s inside) (ih found spells)

theorem exists_deletion {reading : Reading} (null : ∀ s, reading s [] → s ∈ nullable)
    {word : List Symbol} (spells : Spells reading symbols word) :
    ∃ kept ∈ deletions nullable symbols,
      Spells (fun s part => part ≠ [] ∧ reading s part) kept word := by
  induction spells with
  | nil => exact ⟨[], mem_deletions_self nullable [], .nil⟩
  | @cons s rest first second head _ ih =>
    obtain ⟨kept, member, spells⟩ := ih
    by_cases empty : first = []
    · subst empty
      exact ⟨kept, mem_deletions_cons.mpr (.inr ⟨null s head, member⟩), spells⟩
    · refine ⟨s :: kept, mem_deletions_cons.mpr (.inl ⟨kept, member, rfl⟩), ?_⟩
      exact .cons ⟨empty, head⟩ spells

end Deletions

namespace Grammar

variable {g : Grammar}

/-! ### Lacking variants -/

/-- Every right-hand side of the target but the empty one is there already. -/
structure Subsumes (g : Grammar) (lhs target : Symbol) : Prop where
  nonterminal : target ∈ g.nonterminals
  rules : ∀ rhs, (⟨target, rhs⟩ : Rule) ∈ g.rules → rhs ≠ .epsilon → (⟨lhs, rhs⟩ : Rule) ∈ g.rules

/-- The symbols need no further rule as a variant. -/
def Covers (g : Grammar) (lhs : Symbol) (kept : List Symbol) : Prop :=
  (⟨lhs, Rhs.ofList kept⟩ : Rule) ∈ g.rules ∨ ∃ target, kept = [target] ∧ g.Subsumes lhs target

/-- No rule lacks a variant. -/
def Covered (g : Grammar) : Prop :=
  ∀ rule ∈ g.rules, ∀ kept ∈ deletions g.nullable rule.rhs.toList, kept ≠ [] →
    kept ≠ rule.rhs.toList → g.Covers rule.lhs kept

theorem subsumes_iff {lhs target : Symbol} :
    g.Subsumes lhs target ↔
      (g.nonterminals.contains target && (g.properProductions target).all (g.hasRule lhs)) = true := by
  simp only [Bool.and_eq_true, List.all_eq_true, hasRule_iff, properProductions, List.mem_filter,
    Bool.not_eq_true', and_imp]
  constructor
  · intro subsumes
    refine ⟨subsumes.nonterminal, fun rhs member proper => subsumes.rules rhs (mem_rules.mpr member) ?_⟩
    rintro rfl
    cases proper
  · rintro ⟨nonterminal, rules⟩
    refine ⟨nonterminal, fun rhs member proper => rules rhs (mem_rules.mp member) ?_⟩
    rw [← Bool.not_eq_true, Rhs.isEpsilon_iff]
    exact proper

theorem lacksVariant_eq_false {lhs : Symbol} {kept : List Symbol} :
    g.lacksVariant lhs (Rhs.ofList kept) = false ↔ g.Covers lhs kept := by
  rw [lacksVariant, Covers, ← hasRule_iff]
  cases g.hasRule lhs (Rhs.ofList kept) with
  | true => simp
  | false =>
    rcases kept with _ | ⟨target, _ | ⟨next, rest⟩⟩
    · simp [Rhs.ofList, Rhs.single?, Rhs.toList]
    · simp [Rhs.ofList, Rhs.single?, Rhs.toList, subsumes_iff]
    · simp [Rhs.ofList, Rhs.single?, Rhs.toList]

theorem mem_lackingVariants {rule : Rule} :
    rule ∈ g.lackingVariants ↔ ∃ rhs, (⟨rule.lhs, rhs⟩ : Rule) ∈ g.rules ∧
      ∃ kept ∈ deletions g.nullable rhs.toList, kept ≠ [] ∧ kept ≠ rhs.toList ∧
        rule.rhs = Rhs.ofList kept ∧ ¬ g.Covers rule.lhs kept := by
  obtain ⟨lhs, variant⟩ := rule
  simp only [lackingVariants, List.mem_flatMap, List.mem_map, List.mem_filter, mem_variants,
    Rule.mk.injEq]
  constructor
  · rintro ⟨⟨_, rhs⟩, member, _, ⟨⟨kept, inside, filled, other, rfl⟩, lacks⟩, rfl, rfl⟩
    refine ⟨rhs, member, kept, inside, filled, other, rfl, ?_⟩
    rw [← lacksVariant_eq_false, lacks]
    exact Bool.noConfusion
  · rintro ⟨rhs, member, kept, inside, filled, other, rfl, uncovered⟩
    refine ⟨⟨lhs, rhs⟩, member, _, ⟨⟨kept, inside, filled, other, rfl⟩, ?_⟩, rfl, rfl⟩
    rw [← lacksVariant_eq_false, Bool.not_eq_false] at uncovered
    exact uncovered

theorem hasEpsilonRules_eq_false :
    g.hasEpsilonRules = false ↔
      (∀ rule ∈ g.rules, rule.rhs = .epsilon → g.start = some rule.lhs) ∧ g.Covered := by
  simp only [hasEpsilonRules, Bool.or_eq_false_iff, anyVariant_eq, List.any_eq_false,
    Bool.and_eq_true, decide_eq_true_eq, Rhs.isEpsilon_iff, Bool.not_eq_true]
  apply and_congr
  · refine forall₂_congr fun rule _ => ?_
    rw [not_and, not_not]
  · refine forall₂_congr fun rule _ => ?_
    constructor
    · intro none_lacks kept member filled other
      exact lacksVariant_eq_false.mp
        (none_lacks _ (mem_variants.mpr ⟨kept, member, filled, other, rfl⟩))
    · intro covered variant member
      obtain ⟨kept, inside, filled, other, rfl⟩ := mem_variants.mp member
      exact lacksVariant_eq_false.mpr (covered kept inside filled other)

/-! ### Words without epsilon rules -/

def withoutEpsilon (g : Grammar) : Grammar :=
  g.retain fun _ rhs => !rhs.isEpsilon

theorem mem_rules_withoutEpsilon {rule : Rule} :
    rule ∈ g.withoutEpsilon.rules ↔ rule ∈ g.rules ∧ rule.rhs ≠ .epsilon := by
  rw [withoutEpsilon, mem_rules_retain, Bool.not_eq_true', ← Bool.not_eq_true, Rhs.isEpsilon_iff]

theorem generates_of_withoutEpsilon {s : Symbol} {word : List Symbol}
    (generates : g.withoutEpsilon.Generates s word) : g.Generates s word := by
  apply generates.of_rules_subset
  · intro t member
    exact member
  · intro rule member
    exact (mem_rules_withoutEpsilon.mp member).1

theorem ne_nil_of_withoutEpsilon (valid : g.Valid) {s : Symbol} {word : List Symbol}
    (generates : g.withoutEpsilon.Generates s word) : word ≠ [] := by
  refine Generates.induct (fun _ word => word ≠ []) (fun t _ => List.cons_ne_nil t []) ?_ generates
  intro rule member part spells
  obtain ⟨old, proper⟩ := mem_rules_withoutEpsilon.mp member
  have filled : rule.rhs.toList ≠ [] := by
    apply valid.toList_ne_nil old
    rw [← Bool.not_eq_true, Rhs.isEpsilon_iff]
    exact proper
  -- a symbol on the right-hand side has a nonempty part of the word
  obtain ⟨s, inside⟩ := List.exists_mem_of_ne_nil _ filled
  rintro rfl
  exact (spells.forall_nil s inside).2 rfl

/-- Where every variant is a rule of the target or subsumed, the target generates
every word but the empty one. -/
theorem generates_of_variants {target : Grammar} (valid : g.Valid)
    (terminals : target.terminals = g.terminals)
    (variant : ∀ rule ∈ g.rules, ∀ kept ∈ deletions g.nullable rule.rhs.toList, kept ≠ [] →
      (⟨rule.lhs, Rhs.ofList kept⟩ : Rule) ∈ target.rules ∨
        ∃ single, kept = [single] ∧ g.Subsumes rule.lhs single)
    {s : Symbol} {word : List Symbol} (generates : g.Generates s word) (filled : word ≠ []) :
    target.Generates s word := by
  -- A nonempty word is read off a right-hand side, for every symbol that has it: this is
  -- what a subsumed variant needs, whose symbol is passed over.
  let reading : Reading := fun s word => word ≠ [] → (s ∈ g.terminals ∧ word = [s]) ∨
    ∃ rhs, (⟨s, rhs⟩ : Rule) ∈ g.rules ∧ rhs ≠ .epsilon ∧
      ∀ lhs, (⟨lhs, rhs⟩ : Rule) ∈ g.rules → target.Generates lhs word
  have generated {s : Symbol} {word : List Symbol} (filled : word ≠ []) (reads : reading s word) :
      target.Generates s word := by
    rcases reads filled with ⟨terminal, rfl⟩ | ⟨rhs, member, _, all⟩
    · exact .of_terminal (terminals ▸ terminal)
    · exact all s member
  refine generated filled (Generates.induct reading ?_ ?_ generates)
  · intro t member _
    exact .inl ⟨member, rfl⟩
  · intro rule member part spells filled
    refine .inr ⟨rule.rhs, member, ?_, fun lhs same => ?_⟩
    · intro empty
      rw [empty] at spells
      exact filled (Spells.nil_iff.mp spells)
    · -- the symbols that keep a nonempty part make up the variant
      obtain ⟨kept, inside, solid⟩ :=
        exists_deletion (fun t reads => (mem_nullable_iff valid).mpr reads.1) spells
      have nonempty : kept ≠ [] := by
        rintro rfl
        exact filled (Spells.nil_iff.mp solid)
      rcases variant ⟨lhs, rule.rhs⟩ same kept inside nonempty with found | ⟨single, rfl, subsumes⟩
      · apply Generates.of_rule found
        rw [Rhs.toList_ofList]
        exact solid.mono fun t _ part reads => generated reads.1 reads.2.2
      · -- the right-hand side below the subsumed symbol is one of its own
        have reads := (Spells.singleton_iff.mp solid).2.2
        rcases reads filled with ⟨terminal, _⟩ | ⟨rhs, below, proper, all⟩
        · exact absurd terminal (valid.not_terminal subsumes.nonterminal)
        · exact all lhs (subsumes.rules rhs below proper)

/-! ### The elimination -/

theorem mem_rules_restoreEpsilon {nullable : SymbolSet} {rule : Rule} :
    rule ∈ (g.restoreEpsilon nullable).rules ↔ rule ∈ g.rules ∨
      rule.rhs = .epsilon ∧ g.start = some rule.lhs ∧ rule.lhs ∈ nullable := by
  obtain ⟨lhs, rhs⟩ := rule
  unfold restoreEpsilon
  split
  · rename_i start chosen
    split
    · rename_i null
      rw [mem_rules_addRule, or_comm, Rule.mk.injEq, chosen, Option.some.injEq]
      refine or_congr_right ⟨?_, ?_⟩
      · rintro ⟨rfl, rfl⟩
        exact ⟨rfl, rfl, null⟩
      · rintro ⟨rfl, rfl, _⟩
        exact ⟨rfl, rfl⟩
    · rename_i other
      refine ⟨.inl, fun member => member.resolve_right ?_⟩
      rintro ⟨_, same, null⟩
      rw [chosen, Option.some.injEq] at same
      subst same
      exact other null
  · rename_i missing
    simp [missing]

theorem restoreEpsilon_eq (g : Grammar) (nullable : SymbolSet) :
    g.restoreEpsilon nullable = g ∨ ∃ s, g.restoreEpsilon nullable = g.addRule s .epsilon := by
  unfold restoreEpsilon
  split
  · split
    · exact .inr ⟨_, rfl⟩
    · exact .inl rfl
  · exact .inl rfl

theorem same_restoreEpsilon (g : Grammar) (nullable : SymbolSet) :
    SameDeclarations g (g.restoreEpsilon nullable) := by
  rcases g.restoreEpsilon_eq nullable with unchanged | ⟨s, added⟩
  · rw [unchanged]
    exact .refl g
  · rw [added]
    exact same_addRule g s .epsilon

theorem pruned_restoreEpsilon (pruned : g.Pruned) (nullable : SymbolSet) :
    (g.restoreEpsilon nullable).Pruned := by
  rcases g.restoreEpsilon_eq nullable with unchanged | ⟨s, added⟩
  · rw [unchanged]
    exact pruned
  · rw [added]
    exact pruned_addRule pruned s .epsilon

theorem new_of_lackingVariants {rule : Rule} (lacking : rule ∈ g.lackingVariants) :
    rule.rhs ≠ .epsilon ∧ rule ∉ g.rules := by
  obtain ⟨_, _, kept, _, filled, _, variant, uncovered⟩ := mem_lackingVariants.mp lacking
  refine ⟨fun empty => filled (Rhs.ofList_eq_epsilon.mp (variant.symm.trans empty)), fun member => ?_⟩
  apply uncovered
  left
  rw [← variant]
  exact member

theorem Growth.grammar_add (growth : Growth) (rule : Rule) :
    (growth.add rule).grammar = growth.grammar.addRule rule.lhs rule.rhs := by
  unfold Growth.add insertRule
  cases growth.grammar.hasRule rule.lhs rule.rhs <;> rfl

theorem Growth.grammar_foldl_add (rules : List Rule) (growth : Growth) :
    (rules.foldl Growth.add growth).grammar = growth.grammar.addRules rules := by
  induction rules generalizing growth with
  | nil => rfl
  | cons rule rest ih =>
    rw [List.foldl_cons, ih, Growth.grammar_add]
    rfl

theorem Growth.mem_modified_add {growth : Growth} {rule : Rule} {s : Symbol} :
    s ∈ (growth.add rule).modified ↔ s ∈ growth.modified ∨ rule ∉ growth.grammar.rules ∧ rule.lhs = s := by
  rw [← hasRule_iff]
  unfold Growth.add insertRule
  cases growth.grammar.hasRule rule.lhs rule.rhs with
  | true => simp
  | false => simp [SymbolSet.mem_put, eq_comm]

theorem Growth.mem_modified_foldl_add {rules : List Rule} {growth : Growth} {s : Symbol} :
    s ∈ (rules.foldl Growth.add growth).modified ↔
      s ∈ growth.modified ∨ ∃ rule ∈ rules, rule ∉ growth.grammar.rules ∧ rule.lhs = s := by
  -- a rule that is added twice counts the first time
  induction rules generalizing growth with
  | nil => simp
  | cons rule rest ih =>
    rw [List.foldl_cons, ih, Growth.mem_modified_add, Growth.grammar_add, or_assoc]
    refine or_congr_right ?_
    simp only [mem_rules_addRule, List.exists_mem_cons_iff, not_or]
    constructor
    · rintro (first | ⟨other, listed, ⟨_, new⟩, lhs⟩)
      · exact .inl first
      · exact .inr ⟨other, listed, new, lhs⟩
    · rintro (first | ⟨other, listed, new, lhs⟩)
      · exact .inl first
      · by_cases same : other = rule
        · subst same
          exact .inl ⟨new, lhs⟩
        · exact .inr ⟨other, listed, ⟨same, new⟩, lhs⟩

theorem grammar_removeEpsilonRules (g : Grammar) : g.removeEpsilonRules.grammar =
    ((g.addRules g.lackingVariants).retain fun _ rhs => !rhs.isEpsilon).restoreEpsilon g.nullable := by
  rw [removeEpsilonRules, Growth.grammar_foldl_add]

theorem same_removeEpsilonRules (g : Grammar) : SameDeclarations g g.removeEpsilonRules.grammar := by
  rw [grammar_removeEpsilonRules]
  exact ((same_addRules g _).trans (same_retain _ _)).trans (same_restoreEpsilon _ _)

/-- Proper rules stay, lacking variants come, and the start keeps the empty word. -/
theorem mem_rules_removeEpsilonRules {rule : Rule} :
    rule ∈ g.removeEpsilonRules.grammar.rules ↔
      rule.rhs ≠ .epsilon ∧ (rule ∈ g.rules ∨ rule ∈ g.lackingVariants) ∨
        rule.rhs = .epsilon ∧ g.start = some rule.lhs ∧ rule.lhs ∈ g.nullable := by
  have start : ((g.addRules g.lackingVariants).retain fun _ rhs => !rhs.isEpsilon).start = g.start :=
    ((same_addRules g _).trans (same_retain _ _)).start
  rw [grammar_removeEpsilonRules, mem_rules_restoreEpsilon, mem_rules_retain, mem_rules_addRules,
    start, Bool.not_eq_true', ← Bool.not_eq_true, Rhs.isEpsilon_iff]
  apply or_congr_left
  rw [and_comm, or_comm (a := rule ∈ g.lackingVariants)]

theorem admits_lackingVariants (valid : g.Valid) {rule : Rule} (member : rule ∈ g.lackingVariants) :
    g.Admits rule := by
  obtain ⟨rhs, old, kept, inside, _, _, variant, _⟩ := mem_lackingVariants.mp member
  have admits := valid.admits old
  refine ⟨admits.lhs, ?_, fun s found => ?_⟩
  · rw [variant]
    exact Rhs.ofList_ne_sequence_nil kept
  · rw [variant, Rhs.toList_ofList] at found
    exact admits.declared s (subset_of_mem_deletions inside s found)

theorem Valid.removeEpsilonRules (valid : g.Valid) : g.removeEpsilonRules.grammar.Valid := by
  have pruned : g.removeEpsilonRules.grammar.Pruned := by
    rw [grammar_removeEpsilonRules]
    exact pruned_restoreEpsilon (pruned_retain _ _) _
  refine valid.of_same (same_removeEpsilonRules g) pruned fun rule member => ?_
  rcases mem_rules_removeEpsilonRules.mp member with ⟨_, old | new⟩ | ⟨empty, chosen, _⟩
  · exact valid.admits old
  · exact admits_lackingVariants valid new
  · refine ⟨valid.start_declared _ chosen, ?_, ?_⟩
    · rw [empty]
      exact Rhs.noConfusion
    · rw [empty]
      intro s inside
      cases inside

/-- Nothing is left to be added: a variant is a rule now or was subsumed. -/
theorem variant_of_removeEpsilonRules (valid : g.Valid) {lhs : Symbol} {rhs : Rhs}
    (member : (⟨lhs, rhs⟩ : Rule) ∈ g.rules) {kept : List Symbol}
    (inside : kept ∈ deletions g.nullable rhs.toList) (filled : kept ≠ []) :
    (⟨lhs, Rhs.ofList kept⟩ : Rule) ∈ g.removeEpsilonRules.grammar.rules ∨
      ∃ single, kept = [single] ∧ g.Subsumes lhs single := by
  have proper : Rhs.ofList kept ≠ .epsilon := fun empty => filled (Rhs.ofList_eq_epsilon.mp empty)
  by_cases same : kept = rhs.toList
  · left
    refine mem_rules_removeEpsilonRules.mpr (.inl ⟨proper, .inl ?_⟩)
    rw [same, Rhs.ofList_toList (valid.admits member).proper]
    exact member
  · by_cases covered : g.Covers lhs kept
    · refine covered.imp_left fun found => ?_
      exact mem_rules_removeEpsilonRules.mpr (.inl ⟨proper, .inl found⟩)
    · left
      refine mem_rules_removeEpsilonRules.mpr (.inl ⟨proper, .inr ?_⟩)
      exact mem_lackingVariants.mpr ⟨rhs, member, kept, inside, filled, same, rfl, covered⟩

theorem not_mem_deletions_nil {nullable : SymbolSet} {kept : List Symbol} (filled : kept ≠ []) :
    kept ∉ deletions nullable [] := by
  rw [deletions, List.mem_singleton]
  exact filled

theorem variant_of_mem_removeEpsilonRules (valid : g.Valid) {lhs : Symbol} {rhs : Rhs}
    (member : (⟨lhs, rhs⟩ : Rule) ∈ g.removeEpsilonRules.grammar.rules) {kept : List Symbol}
    (inside : kept ∈ deletions g.nullable rhs.toList) (filled : kept ≠ []) :
    (⟨lhs, Rhs.ofList kept⟩ : Rule) ∈ g.removeEpsilonRules.grammar.rules ∨
      ∃ single, kept = [single] ∧ g.Subsumes lhs single := by
  rcases mem_rules_removeEpsilonRules.mp member with ⟨_, old | new⟩ | ⟨empty, _⟩
  · exact variant_of_removeEpsilonRules valid old inside filled
  · obtain ⟨source, old, first, deleted, _, _, same, _⟩ := mem_lackingVariants.mp new
    simp only at same
    rw [same, Rhs.toList_ofList] at inside
    exact variant_of_removeEpsilonRules valid old (deletions_trans deleted inside) filled
  · simp only at empty
    rw [empty] at inside
    exact absurd inside (not_mem_deletions_nil filled)

/-- What a symbol subsumes, it goes on to subsume after the elimination, up to unit
variants that are subsumed in turn. -/
theorem Subsumes.rules_removeEpsilonRules (valid : g.Valid) {lhs target : Symbol}
    (subsumes : g.Subsumes lhs target) {rhs : Rhs}
    (member : (⟨target, rhs⟩ : Rule) ∈ g.removeEpsilonRules.grammar.rules) (proper : rhs ≠ .epsilon) :
    (⟨lhs, rhs⟩ : Rule) ∈ g.removeEpsilonRules.grammar.rules ∨
      ∃ single, rhs = .sequence [single] ∧ g.Subsumes lhs single := by
  rcases mem_rules_removeEpsilonRules.mp member with ⟨_, old | new⟩ | ⟨empty, _⟩
  · left
    exact mem_rules_removeEpsilonRules.mpr (.inl ⟨proper, .inl (subsumes.rules rhs old proper)⟩)
  · obtain ⟨source, old, kept, deleted, filled, _, same, _⟩ := mem_lackingVariants.mp new
    -- the rule that the variant comes from is shared, and so are its variants
    have nonempty : source ≠ .epsilon := by
      intro empty
      rw [empty] at deleted
      exact not_mem_deletions_nil filled deleted
    simp only at same
    rw [same]
    rcases variant_of_removeEpsilonRules valid (subsumes.rules source old nonempty) deleted filled
      with found | ⟨single, shape, below⟩
    · exact .inl found
    · right
      rw [shape]
      exact ⟨single, rfl, below⟩
  · exact absurd empty proper

theorem generates_of_removeEpsilonRules (valid : g.Valid) {s : Symbol} {word : List Symbol}
    (generates : g.removeEpsilonRules.grammar.Generates s word) : g.Generates s word := by
  have terminals := (same_removeEpsilonRules g).terminals
  refine generates.mono (fun t member => terminals ▸ member) ?_
  intro rule member part spells
  rcases mem_rules_removeEpsilonRules.mp member with ⟨_, old | new⟩ | ⟨empty, _, null⟩
  · exact .of_rule old spells
  · obtain ⟨rhs, old, kept, inside, _, _, variant, _⟩ := mem_lackingVariants.mp new
    rw [variant, Rhs.toList_ofList] at spells
    have filled := spells_of_mem_deletions (fun t null => (mem_nullable_iff valid).mp null) inside spells
    exact Generates.of_rule old filled
  · rw [empty] at spells
    rw [Spells.nil_iff.mp spells]
    exact (mem_nullable_iff valid).mp null

theorem withoutEpsilon_removeEpsilonRules (valid : g.Valid) {s : Symbol} {word : List Symbol}
    (generates : g.Generates s word) (filled : word ≠ []) :
    g.removeEpsilonRules.grammar.withoutEpsilon.Generates s word := by
  have terminals : g.removeEpsilonRules.grammar.withoutEpsilon.terminals = g.terminals :=
    (same_removeEpsilonRules g).terminals
  refine generates_of_variants valid terminals ?_ generates filled
  intro rule member kept inside nonempty
  refine (variant_of_removeEpsilonRules valid member inside nonempty).imp_left fun found => ?_
  refine mem_rules_withoutEpsilon.mpr ⟨found, fun empty => nonempty ?_⟩
  exact Rhs.ofList_eq_epsilon.mp empty

theorem epsilon_mem_removeEpsilonRules (valid : g.Valid) {s : Symbol} :
    (⟨s, .epsilon⟩ : Rule) ∈ g.removeEpsilonRules.grammar.rules ↔
      g.start = some s ∧ g.Generates s [] := by
  rw [mem_rules_removeEpsilonRules, mem_nullable_iff valid]
  simp

/-- Every symbol keeps its words but the empty one, and gains none. Only the start
symbol can have an epsilon rule left, and it has one if it derived the empty word: so
it keeps this word, too. -/
theorem removeEpsilonRules_keeps_words (valid : g.Valid) :
    (∀ s ∈ g.nonterminals, ∀ word,
      (g.Generates s word → word ≠ [] → g.removeEpsilonRules.grammar.Generates s word) ∧
        (g.removeEpsilonRules.grammar.Generates s word → g.Generates s word)) ∧
      (∀ rule ∈ g.removeEpsilonRules.grammar.rules, rule.rhs.toList = [] →
        rule.rhs = .epsilon ∧ g.start = some rule.lhs) ∧
        g.removeEpsilonRules.grammar.start = g.start ∧
          ∀ start, g.start = some start →
            ((⟨start, .epsilon⟩ : Rule) ∈ g.removeEpsilonRules.grammar.rules ↔ g.Generates start []) ∧
              ∀ word, g.removeEpsilonRules.grammar.Generates start word ↔ g.Generates start word := by
  have kept {s : Symbol} {word : List Symbol} (generates : g.Generates s word) (filled : word ≠ []) :
      g.removeEpsilonRules.grammar.Generates s word :=
    generates_of_withoutEpsilon (withoutEpsilon_removeEpsilonRules valid generates filled)
  refine ⟨?_, ?_, (same_removeEpsilonRules g).start, ?_⟩
  · intro s _ word
    exact ⟨kept, generates_of_removeEpsilonRules valid⟩
  · rintro ⟨lhs, rhs⟩ member nothing
    have empty : rhs = .epsilon :=
      Rhs.eq_epsilon_of_toList (valid.removeEpsilonRules.admits member).proper nothing
    subst empty
    exact ⟨rfl, ((epsilon_mem_removeEpsilonRules valid).mp member).1⟩
  · intro start chosen
    have epsilon : (⟨start, .epsilon⟩ : Rule) ∈ g.removeEpsilonRules.grammar.rules ↔
        g.Generates start [] := by
      rw [epsilon_mem_removeEpsilonRules valid, and_iff_right chosen]
    refine ⟨epsilon, fun word => ⟨generates_of_removeEpsilonRules valid, fun generates => ?_⟩⟩
    by_cases empty : word = []
    · subst empty
      exact generates_nil_of_epsilon (epsilon.mpr generates)
    · exact kept generates empty

/-- The rules `S ::= AB`, `S ::= a`, `S ::= b`, `A ::= a`, `A ::= l`, `B ::= b` and
`B ::= l`. Symbol 28 is `S`, 10 and 11 are `A` and `B`, 36 and 37 are `a` and `b`. -/
def optional : Grammar :=
  let nonterminals := ((empty.declare ⟨28⟩ .nonterminal).declare ⟨10⟩ .nonterminal).declare ⟨11⟩ .nonterminal
  let symbols := (nonterminals.declare ⟨36⟩ .terminal).declare ⟨37⟩ .terminal
  (symbols.addRules
    [⟨⟨28⟩, .sequence [⟨10⟩, ⟨11⟩]⟩, ⟨⟨28⟩, .sequence [⟨36⟩]⟩, ⟨⟨28⟩, .sequence [⟨37⟩]⟩,
      ⟨⟨10⟩, .sequence [⟨36⟩]⟩, ⟨⟨10⟩, .epsilon⟩, ⟨⟨11⟩, .sequence [⟨37⟩]⟩, ⟨⟨11⟩, .epsilon⟩]).withStart ⟨28⟩

/-- The derivation of `a` by way of `AB` loses its epsilon rule and gets no variant
`S ::= A`, for this one is subsumed. -/
theorem removeEpsilonRules_keeps_optional :
    optional.Valid ∧ (⟨⟨28⟩, .sequence [⟨10⟩]⟩ : Rule) ∉ optional.removeEpsilonRules.grammar.rules ∧
      (⟨⟨11⟩, .epsilon⟩ : Rule) ∉ optional.removeEpsilonRules.grammar.rules ∧
        optional.removeEpsilonRules.grammar.Generates ⟨28⟩ [⟨36⟩] := by
  have valid : optional.Valid := by decide +kernel
  have first : optional.Generates ⟨10⟩ [⟨36⟩] := by
    refine .of_rule (show (⟨⟨10⟩, .sequence [⟨36⟩]⟩ : Rule) ∈ optional.rules by decide +kernel) ?_
    exact Spells.singleton_iff.mpr (.of_terminal (by decide))
  have second : optional.Generates ⟨11⟩ [] := generates_nil_of_epsilon (by decide +kernel)
  have both : optional.Generates ⟨28⟩ [⟨36⟩] := by
    refine .of_rule (show (⟨⟨28⟩, .sequence [⟨10⟩, ⟨11⟩]⟩ : Rule) ∈ optional.rules by decide +kernel) ?_
    exact .cons first (Spells.singleton_iff.mpr second)
  refine ⟨valid, by decide +kernel, by decide +kernel, ?_⟩
  exact ((removeEpsilonRules_keeps_words valid).1 ⟨28⟩ (by decide +kernel) _).1 both (by decide)

/-! ### The report -/

theorem mem_properProductions {s : Symbol} {rhs : Rhs} :
    rhs ∈ g.properProductions s ↔ (⟨s, rhs⟩ : Rule) ∈ g.rules ∧ rhs ≠ .epsilon := by
  rw [properProductions, List.mem_filter, Bool.not_eq_true', ← Bool.not_eq_true, Rhs.isEpsilon_iff,
    mem_rules]

theorem mem_report_removeEpsilonRules {s : Symbol} :
    s ∈ g.removeEpsilonRules.report ↔ (⟨s, .epsilon⟩ : Rule) ∈ g.rules ∨
      ∃ rhs ∈ g.removeEpsilonRules.grammar.properProductions s, rhs ∉ g.properProductions s := by
  have listed : s ∈ g.removeEpsilonRules.report ↔
      s ∈ SymbolSet.ofList g.epsilonLhs ∨ ∃ rule ∈ g.lackingVariants, rule ∉ g.rules ∧ rule.lhs = s :=
    SymbolSet.mem_toList.trans Growth.mem_modified_foldl_add
  rw [listed, SymbolSet.mem_ofList, mem_epsilonLhs]
  simp only [mem_properProductions, mem_rules_removeEpsilonRules]
  apply or_congr_right
  constructor
  · rintro ⟨⟨lhs, rhs⟩, lacking, new, rfl⟩
    have proper := (new_of_lackingVariants lacking).1
    exact ⟨rhs, ⟨.inl ⟨proper, .inr lacking⟩, proper⟩, fun old => new old.1⟩
  · rintro ⟨rhs, ⟨found, proper⟩, new⟩
    rcases found with ⟨_, old | lacking⟩ | ⟨empty, _⟩
    · exact absurd ⟨old, proper⟩ new
    · exact ⟨_, lacking, (new_of_lackingVariants lacking).2, rfl⟩
    · exact absurd empty proper

theorem productionsOf_removeEpsilonRules {s : Symbol} (silent : s ∉ g.removeEpsilonRules.report) :
    g.removeEpsilonRules.grammar.productionsOf s =
      if g.start = some s ∧ s ∈ g.nullable then .epsilon :: g.productionsOf s else g.productionsOf s := by
  simp only [mem_report_removeEpsilonRules, not_or, not_exists, not_and, not_not] at silent
  obtain ⟨solid, grown⟩ := silent
  have proper {rhs : Rhs} (member : (⟨s, rhs⟩ : Rule) ∈ g.rules) : rhs ≠ .epsilon := by
    rintro rfl
    exact solid member
  have members (rhs : Rhs) : (⟨s, rhs⟩ : Rule) ∈ g.removeEpsilonRules.grammar.rules ↔
      (⟨s, rhs⟩ : Rule) ∈ g.rules ∨ rhs = .epsilon ∧ g.start = some s ∧ s ∈ g.nullable := by
    constructor
    · intro member
      by_cases empty : rhs = .epsilon
      · refine .inr ⟨empty, ?_⟩
        rcases mem_rules_removeEpsilonRules.mp member with ⟨filled, _⟩ | ⟨_, restored⟩
        · exact absurd empty filled
        · exact restored
      · have listed := grown rhs (mem_properProductions.mpr ⟨member, empty⟩)
        exact .inl (mem_properProductions.mp listed).1
    · rintro (old | ⟨empty, restored⟩)
      · exact mem_rules_removeEpsilonRules.mpr (.inl ⟨proper old, .inl old⟩)
      · exact mem_rules_removeEpsilonRules.mpr (.inr ⟨empty, restored⟩)
  have before : (g.productionsOf s).Pairwise fun a b => Ordered.before a b = true :=
    pairwise_productionsOf g s
  symm
  split
  · rename_i restored
    apply eq_productionsOf
    · refine List.pairwise_cons.mpr ⟨fun rhs member => ?_, before⟩
      -- the empty string is the least right-hand side
      cases rhs with
      | epsilon => exact absurd (mem_rules.mpr member) solid
      | sequence symbols => rfl
    · intro rhs
      rw [members, List.mem_cons, and_iff_left restored, mem_rules, or_comm]
  · rename_i kept
    apply eq_productionsOf before
    intro rhs
    rw [members, mem_rules]
    refine ⟨.inl, fun member => member.resolve_right fun restored => kept restored.2⟩

/-- The report lists, in ascending order, the nonterminals that had an epsilon rule or
whose other right-hand sides became more. No such right-hand side is lost, the declared
symbols and the start are the same, and what is not listed keeps its productions, but a
start symbol that derives the empty word gains an epsilon rule. -/
theorem removeEpsilonRules_reports_growth (valid : g.Valid) :
    g.removeEpsilonRules.report.Pairwise (fun a b => Ordered.before a b = true) ∧
      (∀ s, s ∈ g.removeEpsilonRules.report ↔ s ∈ g.nonterminals ∧
        (.epsilon ∈ g.productionsOf s ∨
          ∃ rhs ∈ g.removeEpsilonRules.grammar.properProductions s, rhs ∉ g.properProductions s)) ∧
      (∀ s, ∀ rhs ∈ g.properProductions s, rhs ∈ g.removeEpsilonRules.grammar.properProductions s) ∧
      SameDeclarations g g.removeEpsilonRules.grammar ∧
      ∀ s ∉ g.removeEpsilonRules.report,
        g.removeEpsilonRules.grammar.productionsOf s = g.productionsOf s ∨
          g.start = some s ∧ g.Generates s [] ∧
            g.removeEpsilonRules.grammar.productionsOf s = .epsilon :: g.productionsOf s := by
  refine ⟨SymbolSet.pairwise_toList _, fun s => ?_, fun s rhs member => ?_, same_removeEpsilonRules g,
    fun s silent => ?_⟩
  · have declared {rhs : Rhs} (member : (⟨s, rhs⟩ : Rule) ∈ g.removeEpsilonRules.grammar.rules) :
        s ∈ g.nonterminals := by
      rw [← (same_removeEpsilonRules g).nonterminals]
      exact (valid.removeEpsilonRules.admits member).lhs
    have empty : .epsilon ∈ g.productionsOf s ↔ (⟨s, .epsilon⟩ : Rule) ∈ g.rules := by
      rw [mem_rules]
    rw [mem_report_removeEpsilonRules, empty, iff_and_self]
    rintro (member | ⟨rhs, grown, _⟩)
    · exact (valid.admits member).lhs
    · exact declared (mem_properProductions.mp grown).1
  · obtain ⟨old, proper⟩ := mem_properProductions.mp member
    exact mem_properProductions.mpr
      ⟨mem_rules_removeEpsilonRules.mpr (.inl ⟨proper, .inl old⟩), proper⟩
  · rw [productionsOf_removeEpsilonRules silent]
    split
    · rename_i restored
      exact .inr ⟨restored.1, (mem_nullable_iff valid).mp restored.2, rfl⟩
    · exact .inl rfl

/-- The start symbol is not reported, for its variants `A` and `B` are subsumed; all it
gains is the epsilon rule. -/
theorem removeEpsilonRules_reports_optional :
    optional.Valid ∧ optional.removeEpsilonRules.report = [⟨10⟩, ⟨11⟩] ∧
      optional.removeEpsilonRules.grammar.productionsOf ⟨28⟩ = .epsilon :: optional.productionsOf ⟨28⟩ := by
  have valid : optional.Valid := by decide +kernel
  have report : optional.removeEpsilonRules.report = [⟨10⟩, ⟨11⟩] := by decide +kernel
  obtain ⟨_, _, _, _, silent⟩ := removeEpsilonRules_reports_growth valid
  have other : (⟨28⟩ : Symbol) ∉ optional.removeEpsilonRules.report := by
    rw [report]
    decide
  refine ⟨valid, report, ?_⟩
  rcases silent ⟨28⟩ other with same | ⟨_, _, gained⟩
  · exact absurd same (by decide +kernel)
  · exact gained

end Grammar

end ContextFree
