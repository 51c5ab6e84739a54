import ContextFree.Proofs.Normalization.Language

/-! The well-formed grammars are the fixed points of normalization.

The later steps must not undo the work of epsilon elimination. A variant that was
subsumed before unit elimination is subsumed after it, since a symbol then has
the rules at the end of all chains of what it subsumes; and the removal of
symbols takes a rule from both sides.
-/

set_option autoImplicit false

namespace ContextFree

namespace Grammar

open Relation (ReflTransGen)

variable {g : Grammar} {start : Symbol}

/-- Every variant over the nullable symbols is there or subsumed. -/
def Saturated (g : Grammar) (nullable : SymbolSet) : Prop :=
  ∀ rule ∈ g.rules, ∀ kept ∈ deletions nullable rule.rhs.toList, kept ≠ [] → g.Covers rule.lhs kept

/-! ### After unit elimination -/

section Chains

variable {lhs target final : Symbol} {rhs : Rhs}

/-- Chains of a subsumed symbol end in right-hand sides that chains of the other
symbol end in, too. -/
theorem Subsumes.chain (valid : g.Valid)
    (chain : ReflTransGen g.removeEpsilonRules.grammar.UnitStep target final)
    (subsumes : g.Subsumes lhs target)
    (member : (⟨final, rhs⟩ : Rule) ∈ g.removeEpsilonRules.grammar.rules) (proper : rhs ≠ .epsilon)
    (last : g.removeEpsilonRules.grammar.unitTarget? rhs = none) :
    ∃ other, ReflTransGen g.removeEpsilonRules.grammar.UnitStep lhs other ∧
      (⟨other, rhs⟩ : Rule) ∈ g.removeEpsilonRules.grammar.rules := by
  have nonterminals := (same_removeEpsilonRules g).nonterminals
  induction chain using ReflTransGen.head_induction_on with
  | refl =>
    rcases subsumes.rules_removeEpsilonRules valid member proper with found | ⟨single, shape, below⟩
    · exact ⟨lhs, .refl, found⟩
    · have unit : g.removeEpsilonRules.grammar.unitTarget? rhs = some single :=
        unitTarget?_eq_some.mpr ⟨shape, nonterminals ▸ below.nonterminal⟩
      rw [last] at unit
      cases unit
  | @head source next step rest ih =>
    -- the first unit rule of the chain is there, or its target is subsumed as well
    rcases subsumes.rules_removeEpsilonRules valid step.1 Rhs.noConfusion with found | ⟨_, shape, below⟩
    · exact ⟨final, rest.head ⟨found, step.2⟩, member⟩
    · cases shape
      exact ih below

end Chains

theorem saturated_removeUnitRules (valid : g.Valid) :
    g.removeEpsilonRules.grammar.removeUnitRules.grammar.Saturated g.nullable := by
  have noEpsilon := valid.removeEpsilonRules
  have inherits {lhs : Symbol} {rhs : Rhs} := @mem_rules_removeUnitRules_of_proper _ noEpsilon lhs rhs
  have nonterminals : g.removeEpsilonRules.grammar.removeUnitRules.grammar.nonterminals =
      g.nonterminals :=
    ((same_removeEpsilonRules g).trans (same_removeUnitRules _)).nonterminals
  intro ⟨lhs, rhs⟩ member kept inside filled
  have proper : rhs ≠ .epsilon := by
    intro empty
    rw [empty] at inside
    exact not_mem_deletions_nil filled inside
  have variant : Rhs.ofList kept ≠ .epsilon := fun empty => filled (Rhs.ofList_eq_epsilon.mp empty)
  obtain ⟨_, source, chain, below⟩ := (inherits proper).mp member
  rcases variant_of_mem_removeEpsilonRules valid below inside filled with found | ⟨single, rfl, subsumes⟩
  · cases unit : g.removeEpsilonRules.grammar.unitTarget? (Rhs.ofList kept) with
    | none => exact .inl ((inherits variant).mpr ⟨unit, source, chain, found⟩)
    | some single =>
      obtain ⟨shape, declared⟩ := unitTarget?_eq_some.mp unit
      have same : kept = [single] := by
        rw [← Rhs.toList_ofList kept, shape]
        rfl
      rw [shape] at found
      refine .inr ⟨single, same, ?_, fun other below proper => ?_⟩
      · rw [(same_removeUnitRules _).nonterminals]
        exact declared
      · obtain ⟨last, final, rest, owned⟩ := (inherits proper).mp below
        have longer := chain.trans (rest.head ⟨found, declared⟩)
        exact (inherits proper).mpr ⟨last, final, longer, owned⟩
  · refine .inr ⟨single, rfl, ?_, fun other below proper => ?_⟩
    · rw [nonterminals]
      exact subsumes.nonterminal
    · obtain ⟨last, final, rest, found⟩ := (inherits proper).mp below
      obtain ⟨owner, longer, owned⟩ := Subsumes.chain valid rest subsumes found proper last
      exact (inherits proper).mpr ⟨last, owner, chain.trans longer, owned⟩

/-! ### After useless elimination -/

theorem saturated_useful (valid : g.Valid) {nullable fewer : SymbolSet}
    (subset : ∀ s ∈ fewer, s ∈ nullable) (saturated : g.Saturated nullable) :
    (g.useful start).Saturated fewer := by
  intro ⟨lhs, rhs⟩ member kept inside filled
  obtain ⟨productive, old, source, reached⟩ := (mem_rules_useful valid).mp member
  have within : ∀ s ∈ kept, g.Reaches start s := fun s found =>
    reached s (subset_of_mem_deletions inside s found)
  rcases saturated _ old kept (deletions_mono subset inside) filled with found | ⟨single, rfl, subsumes⟩
  · left
    apply (mem_rules_useful valid).mpr
    rw [Rhs.toList_ofList]
    exact ⟨productive, found, source, within⟩
  · have single_reached : g.Reaches start single := within single List.mem_cons_self
    refine .inr ⟨single, rfl, ?_, fun other below proper => ?_⟩
    · exact mem_nonterminals_useful.mpr ⟨subsumes.nonterminal, single_reached⟩
    · obtain ⟨_, below, _, reached⟩ := (mem_rules_useful valid).mp below
      exact (mem_rules_useful valid).mpr ⟨productive, subsumes.rules other below proper, source, reached⟩

/-! ### Well-formed grammars -/

theorem isWellFormed_iff (valid : g.Valid) (chosen : g.start = some start) :
    g.isWellFormed = true ↔
      (∀ rule ∈ g.rules, rule.rhs = .epsilon → rule.lhs = start) ∧
        (∀ rule ∈ g.rules, g.unitTarget? rule.rhs = none) ∧
          g.Covered ∧ (Usefulness.analyze g start).findsUseless g = false := by
  have self_is_unit : g.hasUnitRules = false → g.hasSelfRules = false := by
    rw [hasUnitRules_eq_false, hasSelfRules, List.any_eq_false]
    intro none_unit rule member self
    have shape := Rhs.single?_eq_some.mp (of_decide_eq_true self)
    have unit := unitTarget?_eq_some.mpr ⟨shape, (valid.admits member).lhs⟩
    rw [none_unit rule member] at unit
    cases unit
  have epsilon : (g.rules.all fun rule => !rule.rhs.isEpsilon || decide (rule.lhs = start)) = true ↔
      ∀ rule ∈ g.rules, rule.rhs = .epsilon → rule.lhs = start := by
    simp only [List.all_eq_true, Bool.or_eq_true, Bool.not_eq_true', decide_eq_true_eq,
      ← Bool.not_eq_true, Rhs.isEpsilon_iff, or_iff_not_imp_left, not_not]
  simp only [isWellFormed, chosen, Bool.and_eq_true, Bool.not_eq_true', epsilon,
    hasEpsilonRules_eq_false, Option.some.injEq]
  constructor
  · rintro ⟨⟨⟨⟨_, _, covered⟩, starts⟩, units⟩, useless⟩
    exact ⟨starts, hasUnitRules_eq_false.mp units, covered, useless⟩
  · rintro ⟨starts, units, covered, useless⟩
    have unitless := hasUnitRules_eq_false.mpr units
    refine ⟨⟨⟨⟨self_is_unit unitless, ?_, covered⟩, starts⟩, unitless⟩, useless⟩
    intro rule member empty
    exact (starts rule member empty).symm

theorem isWellFormed_normalize (valid : g.Valid) (chosen : g.start = some start) :
    g.normalize.grammar.isWellFormed = true := by
  have noSelf := valid.removeSelfRules
  have unitFree := valid.unitFree
  have saturated := saturated_removeUnitRules noSelf
  rw [isWellFormed_iff valid.normalize (start_normalize chosen), grammar_normalize chosen]
  refine ⟨?_, ?_, ?_, findsUseless_useful unitFree⟩
  · intro ⟨lhs, rhs⟩ member empty
    cases empty
    have old := ((mem_rules_useful unitFree).mp member).2.1
    have starts := ((epsilon_mem_unitFree valid).mp old).1
    rw [chosen, Option.some.injEq] at starts
    exact starts.symm
  · intro rule member
    have old := ((mem_rules_useful unitFree).mp member).2.1
    cases unit : (g.unitFree.useful start).unitTarget? rule.rhs with
    | none => rfl
    | some target =>
      obtain ⟨shape, declared⟩ := unitTarget?_eq_some.mp unit
      have before := unitTarget?_eq_some.mpr ⟨shape, (mem_nonterminals_useful.mp declared).1⟩
      rw [hasUnitRules_eq_false.mp (hasUnitRules_removeUnitRules noSelf.removeEpsilonRules) rule old]
        at before
      cases before
  · intro rule member kept inside filled _
    refine saturated_useful unitFree ?_ saturated rule member kept inside filled
    -- what derives the empty word in the end derived it before epsilon elimination
    intro s null
    have empty := (mem_nullable_iff (unitFree.useful start)).mp null
    have before := generates_of_removeUnitRules noSelf.removeEpsilonRules
      (generates_of_useful unitFree empty)
    exact (mem_nullable_iff noSelf).mpr (generates_of_removeEpsilonRules noSelf before)

theorem withoutEpsilon_of_covered (valid : g.Valid) (covered : g.Covered) {s : Symbol}
    {word : List Symbol} (generates : g.Generates s word) (filled : word ≠ []) :
    g.withoutEpsilon.Generates s word := by
  have terminals : g.withoutEpsilon.terminals = g.terminals := rfl
  refine generates_of_variants valid terminals ?_ generates filled
  intro rule member kept inside nonempty
  have proper : Rhs.ofList kept ≠ .epsilon := fun empty => nonempty (Rhs.ofList_eq_epsilon.mp empty)
  by_cases same : kept = rule.rhs.toList
  · left
    rw [same, Rhs.ofList_toList (valid.admits member).proper] at proper ⊢
    exact mem_rules_withoutEpsilon.mpr ⟨member, proper⟩
  · exact (covered rule member kept inside nonempty same).imp_left fun found =>
      mem_rules_withoutEpsilon.mpr ⟨found, proper⟩

/-! ### Fixed points -/

theorem removeSelfRules_eq (none_self : g.hasSelfRules = false) :
    g.selfRules = [] ∧ g.removeSelfRules.grammar = g := by
  have nothing : g.selfRules = [] := by
    rw [selfRules, List.filter_eq_nil_iff]
    rw [hasSelfRules, List.any_eq_false] at none_self
    exact none_self
  refine ⟨nothing, ?_⟩
  rw [removeSelfRules, nothing]
  rfl

theorem not_nullable_of_no_epsilon (valid : g.Valid)
    (none_epsilon : ∀ s, (⟨s, .epsilon⟩ : Rule) ∉ g.rules) (s : Symbol) : s ∉ g.nullable := by
  intro null
  have empty := (mem_nullable_iff valid).mp null
  have without : g.withoutEpsilon.Generates s [] := by
    apply empty.of_rules_subset
    · intro t member
      exact member
    · intro rule member
      refine mem_rules_withoutEpsilon.mpr ⟨member, fun epsilon => ?_⟩
      apply none_epsilon rule.lhs
      rw [← epsilon]
      exact member
  exact ne_nil_of_withoutEpsilon valid without rfl

theorem epsilon_mem_of_nullable (valid : g.Valid)
    (starts : ∀ rule ∈ g.rules, rule.rhs = .epsilon → rule.lhs = start) {s : Symbol}
    (null : s ∈ g.nullable) : (⟨start, .epsilon⟩ : Rule) ∈ g.rules := by
  by_contra missing
  refine not_nullable_of_no_epsilon valid (fun other epsilon => missing ?_) s null
  have same : other = start := starts _ epsilon rfl
  rw [← same]
  exact epsilon

theorem removeEpsilonRules_eq (valid : g.Valid) (settled : g.hasEpsilonRules = false) :
    g.removeEpsilonRules.grammar = g := by
  obtain ⟨starts, covered⟩ := hasEpsilonRules_eq_false.mp settled
  have none_lacking : ∀ rule, rule ∉ g.lackingVariants := by
    intro rule lacking
    obtain ⟨rhs, member, kept, inside, filled, other, _, uncovered⟩ := mem_lackingVariants.mp lacking
    exact uncovered (covered _ member kept inside filled other)
  apply eq_of_rules valid.pruned valid.removeEpsilonRules.pruned (same_removeEpsilonRules g)
  intro rule
  rw [mem_rules_removeEpsilonRules]
  constructor
  · intro found
    rcases found with ⟨_, old | lacking⟩ | ⟨empty, first, null⟩
    · exact old
    · exact absurd lacking (none_lacking rule)
    · obtain ⟨lhs, rhs⟩ := rule
      cases empty
      refine epsilon_mem_of_nullable valid (fun rule member empty => ?_) null
      have same := starts rule member empty
      rw [first, Option.some.injEq] at same
      exact same.symm
  · intro member
    by_cases empty : rule.rhs = .epsilon
    · refine .inr ⟨empty, starts rule member empty, (mem_nullable_iff valid).mpr ?_⟩
      apply generates_nil_of_epsilon
      rw [← empty]
      exact member
    · exact .inl ⟨empty, .inl member⟩

theorem removeUnitRules_eq (valid : g.Valid) (units : ∀ rule ∈ g.rules, g.unitTarget? rule.rhs = none) :
    g.unitRules = [] ∧ g.removeUnitRules.grammar = g := by
  have no_step (source target : Symbol) : ¬ g.UnitStep source target := by
    intro step
    have unit := unitTarget?_eq_some.mpr ⟨rfl, step.2⟩
    rw [units _ step.1] at unit
    cases unit
  constructor
  · rw [List.eq_nil_iff_forall_not_mem]
    intro rule unit
    obtain ⟨member, found⟩ := mem_unitRules.mp unit
    exact found (units rule member)
  · apply eq_of_rules valid.pruned valid.removeUnitRules.pruned (same_removeUnitRules g)
    intro rule
    rw [mem_rules_removeUnitRules valid]
    constructor
    · intro ⟨_, found⟩
      rcases found with old | ⟨_, target, chain, below⟩
      · exact old
      · rcases chain.cases_head with same | ⟨next, step, _⟩
        · rw [← same] at below
          exact below
        · exact absurd step (no_step _ _)
    · intro member
      exact ⟨units rule member, .inl member⟩

theorem useful_eq (valid : g.Valid) (chosen : g.start = some start)
    (useless : (Usefulness.analyze g start).findsUseless g = false) :
    ((Usefulness.analyze g start).useless g).toList = [] ∧ g.useful start = g := by
  obtain ⟨reached, rules⟩ := (findsUseless_eq_false valid).mp useless
  have same : SameDeclarations g (g.useful start) := by
    have frames := valid.useful start
    constructor
    · apply SymbolSet.Grown.antisymm
      · refine ⟨by rw [frames.nonterminals_frame, valid.nonterminals_frame], fun s declared => ?_⟩
        exact mem_nonterminals_useful.mpr ⟨declared, reached s (mem_symbols.mpr (.inl declared))⟩
      · intro s declared
        exact (mem_nonterminals_useful.mp declared).1
    · apply SymbolSet.Grown.antisymm
      · refine ⟨by rw [frames.terminals_frame, valid.terminals_frame], fun s declared => ?_⟩
        exact mem_terminals_useful.mpr ⟨declared, reached s (mem_symbols.mpr (.inr declared))⟩
      · intro s declared
        exact (mem_terminals_useful.mp declared).1
    · rw [start_useful chosen, chosen]
  constructor
  · rw [List.eq_nil_iff_forall_not_mem]
    intro s member
    obtain ⟨declared, other⟩ := mem_useless.mp (SymbolSet.mem_toList.mp member)
    exact other (reached s declared)
  · apply eq_of_rules valid.pruned (valid.useful start).pruned same
    intro ⟨lhs, rhs⟩
    rw [mem_rules_useful valid]
    constructor
    · intro found
      exact found.2.1
    · intro member
      have admits := valid.admits member
      have source : g.Reaches start lhs := reached lhs (mem_symbols.mpr (.inl admits.lhs))
      refine ⟨?_, member, source, fun s inside => reached s (admits.declared s inside)⟩
      rcases rules with productive | none_left
      · exact productive
      · -- without rules of its own an unproductive start reaches no left-hand side
        by_contra unproductive
        rw [source.eq_start valid unproductive] at member
        exact none_left rhs member

/-- A well-formed grammar passes every step unchanged, and the report is empty but for
epsilon elimination. -/
theorem normalize_eq (valid : g.Valid) (wellFormed : g.isWellFormed = true) :
    g.normalize.grammar = g ∧
      ∃ report, g.normalize.report = .ok report ∧ report.removedNothing = true := by
  cases chosen : g.start with
  | none =>
    rw [isWellFormed, chosen] at wellFormed
    cases wellFormed
  | some start =>
    obtain ⟨_, units, _, useless⟩ := (isWellFormed_iff valid chosen).mp wellFormed
    obtain ⟨none_self, settled⟩ : g.hasSelfRules = false ∧ g.hasEpsilonRules = false := by
      simp only [isWellFormed, chosen, Bool.and_eq_true, Bool.not_eq_true'] at wellFormed
      exact wellFormed.1.1.1
    obtain ⟨selfReport, self⟩ := removeSelfRules_eq none_self
    have epsilon := removeEpsilonRules_eq valid settled
    obtain ⟨unitReport, unit⟩ := removeUnitRules_eq valid units
    obtain ⟨uselessReport, useful⟩ := useful_eq valid chosen useless
    have whole : g.unitFree = g := by rw [unitFree, self, epsilon, unit]
    constructor
    · rw [grammar_normalize chosen, whole, useful]
    · obtain ⟨⟨report, succeeded, noSelf, noUnit, noUseless⟩, _⟩ := normalize_of_start chosen
      refine ⟨report, succeeded, ?_⟩
      simp only [NormalizationReport.removedNothing, noSelf, noUnit, noUseless, self, epsilon, whole,
        Bool.and_eq_true]
      refine ⟨⟨?_, ?_⟩, ?_⟩
      · rw [removeSelfRules, selfReport]
        rfl
      · rw [removeUnitRules, unitReport]
        rfl
      · rw [removeUseless, uselessReport]
        rfl

/-- Normalization ends at a well-formed grammar, and the well-formed grammars are
those it leaves as they are. -/
theorem normalize_fixed_iff_wellFormed (valid : g.Valid) :
    (∀ start, g.start = some start → g.normalize.grammar.isWellFormed = true) ∧
      (g.isWellFormed = true ↔
        ∃ report, g.normalize.report = .ok report ∧ g.normalize.grammar = g) ∧
        (∀ report, g.normalize.report = .ok report → g.normalize.grammar = g →
          report.removedNothing = true) ∧
          g.normalize.grammar.normalize.grammar = g.normalize.grammar := by
  have fixed : g.isWellFormed = true ↔
      ∃ report, g.normalize.report = .ok report ∧ g.normalize.grammar = g := by
    constructor
    · intro wellFormed
      obtain ⟨same, report, succeeded, _⟩ := normalize_eq valid wellFormed
      exact ⟨report, succeeded, same⟩
    · intro ⟨report, succeeded, same⟩
      cases chosen : g.start with
      | none =>
        rw [normalize_of_no_start chosen] at succeeded
        cases succeeded
      | some start =>
        rw [← same]
        exact isWellFormed_normalize valid chosen
  refine ⟨fun start chosen => isWellFormed_normalize valid chosen, fixed, ?_, ?_⟩
  · intro report succeeded same
    obtain ⟨_, other, again, nothing⟩ := normalize_eq valid (fixed.mpr ⟨report, succeeded, same⟩)
    rw [succeeded, Except.ok.injEq] at again
    rw [again]
    exact nothing
  · cases chosen : g.start with
    | none =>
      have same : g.normalize.grammar = g := by
        rw [normalize_of_no_start chosen]
        rfl
      rw [same, same]
    | some start => exact (normalize_eq valid.normalize (isWellFormed_normalize valid chosen)).1

/-- The rule `S ::= ab` is missing before normalization. -/
theorem normalize_balanced_wellFormed :
    balanced.isWellFormed = false ∧ balanced.normalize.grammar.isWellFormed = true :=
  ⟨by decide +kernel, (normalize_fixed_iff_wellFormed valid_balanced).1 ⟨28⟩ rfl⟩

end Grammar

end ContextFree
