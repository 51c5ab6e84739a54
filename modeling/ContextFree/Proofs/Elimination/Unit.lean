import ContextFree.Elimination.Unit
import ContextFree.Proofs.Elimination.Epsilon
import Mathlib.Logic.Relation

/-! Unit elimination follows chains of unit rules to the rules they end in.

Every word that is generated without epsilon rules is kept. The empty word is not
inherited along a chain, so only a symbol with an epsilon rule keeps it.
-/

set_option autoImplicit false

namespace ContextFree

namespace Grammar

open Relation (ReflTransGen)

variable {g : Grammar}

def UnitStep (g : Grammar) (source target : Symbol) : Prop :=
  (⟨source, .sequence [target]⟩ : Rule) ∈ g.rules ∧ target ∈ g.nonterminals

theorem unitTarget?_eq_some {rhs : Rhs} {target : Symbol} :
    g.unitTarget? rhs = some target ↔ rhs = .sequence [target] ∧ target ∈ g.nonterminals := by
  rw [unitTarget?, Option.filter_eq_some_iff, Rhs.single?_eq_some, SymbolSet.mem_iff]

theorem unitTarget?_ne_none {rhs : Rhs} :
    g.unitTarget? rhs ≠ none ↔ ∃ target ∈ g.nonterminals, rhs = .sequence [target] := by
  rw [Option.ne_none_iff_exists']
  constructor
  · rintro ⟨target, unit⟩
    obtain ⟨shape, declared⟩ := unitTarget?_eq_some.mp unit
    exact ⟨target, declared, shape⟩
  · rintro ⟨target, declared, shape⟩
    exact ⟨target, unitTarget?_eq_some.mpr ⟨shape, declared⟩⟩

theorem unitTarget?_same {other : Grammar} (same : SameDeclarations g other) (rhs : Rhs) :
    other.unitTarget? rhs = g.unitTarget? rhs := by
  rw [unitTarget?, same.nonterminals, ← unitTarget?]

theorem mem_unitRules {rule : Rule} :
    rule ∈ g.unitRules ↔ rule ∈ g.rules ∧ g.unitTarget? rule.rhs ≠ none := by
  rw [unitRules, List.mem_filter, isUnitRule, Option.isSome_iff_ne_none]

/-! ### Chains -/

theorem mem_unitTargets {source target : Symbol} :
    target ∈ g.unitTargets source ↔ g.UnitStep source target := by
  simp only [unitTargets, List.mem_filterMap, unitTarget?_eq_some, UnitStep, mem_rules]
  constructor
  · rintro ⟨_, member, rfl, declared⟩
    exact ⟨member, declared⟩
  · rintro ⟨member, declared⟩
    exact ⟨_, member, rfl, declared⟩

/-- The rows done so far hold what their symbols reach, the others nothing. The stack
is empty between two rows. -/
structure Filled (g : Grammar) (done : List Symbol) (filling : UnitFilling) : Prop where
  pending : filling.pending = []
  row : ∀ s t, t ∈ filling.matrix.row s ↔ s ∈ done ∧ ReflTransGen g.UnitStep s t

theorem filled_blank (g : Grammar) : g.Filled [] ⟨.blank, []⟩ where
  pending := rfl
  row s t := by
    rw [UnitMatrix.row_blank]
    simp

def rowSearch (filling : UnitFilling) (origin : Symbol) : Search :=
  ⟨(filling.matrix.row origin).put origin, origin :: filling.pending⟩

theorem fillRow_eq (g : Grammar) (filling : UnitFilling) (origin : Symbol) :
    g.fillRow filling origin =
      let search := Search.run (.along g.unitTargets) (rowSearch filling origin)
      ⟨filling.matrix.setRow origin search.found, search.pending⟩ :=
  rfl

variable {done : List Symbol} {filling : UnitFilling} {origin : Symbol}

theorem Filled.within (filled : g.Filled done filling) :
    (rowSearch filling origin).Within (ReflTransGen g.UnitStep origin)
      (ReflTransGen g.UnitStep origin) where
  found s member := by
    rcases SymbolSet.mem_put.mp member with old | rfl
    · exact ((filled.row origin s).mp old).2
    · exact .refl
  pending s member := by
    rw [rowSearch, filled.pending, List.mem_singleton] at member
    rw [member]

theorem Filled.covered (filled : g.Filled done filling) :
    Search.Covered (.along g.unitTargets) (rowSearch filling origin) [] := by
  -- a row that is filled again is closed already; only its origin is pending
  intro s found target member t gained
  cases gained
  rcases SymbolSet.mem_put.mp found with old | rfl
  · obtain ⟨listed, reached⟩ := (filled.row origin s).mp old
    refine .inl (SymbolSet.mem_put.mpr (.inl ((filled.row origin target).mpr ⟨listed, ?_⟩)))
    exact reached.tail (mem_unitTargets.mp member)
  · exact .inr (.inr ⟨s, List.mem_cons_self, member⟩)

/-- The search for a row finds what the origin reaches. -/
theorem Filled.mem_run_rowSearch (filled : g.Filled done filling) {t : Symbol} :
    t ∈ (Search.run (.along g.unitTargets) (rowSearch filling origin)).found ↔
      ReflTransGen g.UnitStep origin t := by
  refine Search.mem_run_along (fun _ _ => mem_unitTargets) ?_ filled.covered filled.within
  rw [rowSearch]
  exact SymbolSet.mem_put.mpr (.inr rfl)

theorem Filled.fillRow (filled : g.Filled done filling) (origin : Symbol) :
    g.Filled (origin :: done) (g.fillRow filling origin) where
  pending := Search.pending_run _ _
  row s t := by
    simp only [fillRow_eq, UnitMatrix.row_setRow, List.mem_cons]
    split
    · rename_i same
      rw [same, filled.mem_run_rowSearch]
      simp
    · rename_i other
      rw [filled.row s t]
      simp [other]

theorem Filled.foldl (filled : g.Filled done filling) (origins : List Symbol) :
    g.Filled (origins.reverse ++ done) (origins.foldl g.fillRow filling) := by
  induction origins generalizing done filling with
  | nil => exact filled
  | cons origin rest ih => simpa using ih (filled.fillRow origin)

theorem mem_unitReach {source target : Symbol} :
    target ∈ g.unitReach source ↔
      source ∈ g.nonterminals.listing ∧ ReflTransGen g.UnitStep source target := by
  have filled := (filled_blank g).foldl g.nonterminals.listing
  rw [unitReach, unitMatrix, filled.row]
  simp

theorem Valid.narrow_nonterminals (valid : g.Valid) : g.nonterminals.frame.width ≤ 256 := by
  rw [valid.nonterminals_frame]
  decide

theorem listing_nonterminals (valid : g.Valid) : g.nonterminals.listing = g.nonterminals.toList :=
  SymbolSet.listing_eq_toList valid.narrow_nonterminals

theorem mem_nonterminals_listing (narrow : g.nonterminals.frame.width ≤ 256) {s : Symbol} :
    s ∈ g.nonterminals.listing ↔ s ∈ g.nonterminals := by
  rw [SymbolSet.listing_eq_toList narrow, SymbolSet.mem_toList]

theorem mem_targets_unitMatrix {source target : Symbol} :
    target ∈ g.unitMatrix.targets source ↔
      source ∈ g.nonterminals.listing ∧ ReflTransGen g.UnitStep source target := by
  rw [UnitMatrix.targets, SymbolSet.mem_toList]
  exact mem_unitReach

/-- The matrix is the reflexive and transitive closure of the unit rules on the declared
nonterminals, and shows each row in ascending order. A document may bring a set of more
than 256 bits, whose listing can hold more than the members: then the rows are those of
the listing. -/
theorem unitMatrix_exact (g : Grammar) :
    (g.nonterminals.frame.width ≤ 256 → ∀ source target,
      (g.unitMatrix.derives source target = true ↔
        source ∈ g.nonterminals ∧ ReflTransGen g.UnitStep source target)) ∧
      (∀ source target, g.unitMatrix.derives source target = true ↔
        source ∈ g.nonterminals.listing ∧ ReflTransGen g.UnitStep source target) ∧
      (∀ source, (g.unitMatrix.targets source).Pairwise (fun a b => Ordered.before a b = true) ∧
        ∀ target, target ∈ g.unitMatrix.targets source ↔ g.unitMatrix.derives source target = true) := by
  have closed (source target : Symbol) : g.unitMatrix.derives source target = true ↔
      source ∈ g.nonterminals.listing ∧ ReflTransGen g.UnitStep source target :=
    mem_unitReach
  refine ⟨?_, closed, fun source => ⟨SymbolSet.pairwise_toList _, fun target => SymbolSet.mem_toList⟩⟩
  intro narrow source target
  rw [closed, mem_nonterminals_listing narrow]

/-- The rules `S ::= A`, `A ::= B`, `A ::= a`, `B ::= A`, `B ::= S` and `B ::= b`. Symbol 28
is `S`, 10 and 11 are `A` and `B`, 36 and 37 are `a` and `b`. -/
def circular : Grammar :=
  let nonterminals := [⟨28⟩, ⟨10⟩, ⟨11⟩].foldl (fun g s => declare g s .nonterminal) empty
  let symbols := [⟨36⟩, ⟨37⟩].foldl (fun g s => declare g s .terminal) nonterminals
  (symbols.addRules
    [⟨⟨28⟩, .sequence [⟨10⟩]⟩, ⟨⟨10⟩, .sequence [⟨11⟩]⟩, ⟨⟨10⟩, .sequence [⟨36⟩]⟩,
      ⟨⟨11⟩, .sequence [⟨10⟩]⟩, ⟨⟨11⟩, .sequence [⟨28⟩]⟩, ⟨⟨11⟩, .sequence [⟨37⟩]⟩]).withStart ⟨28⟩

theorem unitMatrix_exact_circular :
    circular.unitMatrix.targets ⟨10⟩ = [⟨10⟩, ⟨11⟩, ⟨28⟩] ∧
      ReflTransGen circular.UnitStep ⟨10⟩ ⟨28⟩ ∧ ¬ ReflTransGen circular.UnitStep ⟨10⟩ ⟨37⟩ := by
  have row : circular.unitMatrix.targets ⟨10⟩ = [⟨10⟩, ⟨11⟩, ⟨28⟩] := by decide +kernel
  have declared : (⟨10⟩ : Symbol) ∈ circular.nonterminals := by decide +kernel
  obtain ⟨closed, _, rows⟩ := unitMatrix_exact circular
  have narrow : circular.nonterminals.frame.width ≤ 256 := by decide +kernel
  have reaches (target : Symbol) : target ∈ circular.unitMatrix.targets ⟨10⟩ ↔
      ReflTransGen circular.UnitStep ⟨10⟩ target := by
    rw [(rows ⟨10⟩).2, closed narrow, and_iff_right declared]
  refine ⟨row, (reaches ⟨28⟩).mp ?_, fun chain => ?_⟩
  · rw [row]
    decide
  · have listed := (reaches ⟨37⟩).mpr chain
    rw [row] at listed
    exact absurd listed (by decide)

theorem mem_unitChains (valid : g.Valid) {source target : Symbol} :
    (source, target) ∈ g.unitChains ↔
      source ∈ g.nonterminals ∧ target ≠ source ∧ ReflTransGen g.UnitStep source target := by
  simp only [unitChains, List.mem_flatMap, List.mem_map, List.mem_filter, decide_eq_true_eq, Prod.mk.injEq,
    mem_nonterminals_listing valid.narrow_nonterminals, mem_targets_unitMatrix]
  constructor
  · rintro ⟨_, declared, _, ⟨⟨_, reached⟩, other⟩, rfl, rfl⟩
    exact ⟨declared, other, reached⟩
  · rintro ⟨declared, other, chain⟩
    exact ⟨source, declared, target, ⟨⟨declared, chain⟩, other⟩, rfl, rfl⟩

theorem mem_inheritance {source target : Symbol} {rule : Rule} :
    rule ∈ g.inheritance (source, target) ↔
      rule.lhs = source ∧ (⟨target, rule.rhs⟩ : Rule) ∈ g.rules ∧ rule.rhs ≠ .epsilon ∧
        g.unitTarget? rule.rhs = none := by
  obtain ⟨lhs, rhs⟩ := rule
  simp only [inheritance, List.mem_map, List.mem_filter, Bool.and_eq_true, Bool.not_eq_true',
    Option.isNone_iff_eq_none, Rule.mk.injEq, mem_rules, ← Bool.not_eq_true, Rhs.isEpsilon_iff]
  constructor
  · rintro ⟨_, ⟨member, proper, final⟩, rfl, rfl⟩
    exact ⟨rfl, member, proper, final⟩
  · rintro ⟨rfl, member, proper, final⟩
    exact ⟨rhs, ⟨member, proper, final⟩, rfl, rfl⟩

/-! ### The elimination -/

theorem same_removeUnitRules (g : Grammar) : SameDeclarations g g.removeUnitRules.grammar :=
  (same_addRules g _).trans (same_removeRules _ _)

/-- The rules that are not unit rules stay and are inherited along chains. -/
theorem mem_rules_removeUnitRules (valid : g.Valid) {rule : Rule} :
    rule ∈ g.removeUnitRules.grammar.rules ↔ g.unitTarget? rule.rhs = none ∧
      (rule ∈ g.rules ∨ rule.rhs ≠ .epsilon ∧ ∃ target, ReflTransGen g.UnitStep rule.lhs target ∧
        (⟨target, rule.rhs⟩ : Rule) ∈ g.rules) := by
  have removed : rule ∈ g.removeUnitRules.grammar.rules ↔
      (rule ∈ g.unitChains.flatMap g.inheritance ∨ rule ∈ g.rules) ∧ rule ∉ g.unitRules := by
    rw [removeUnitRules, mem_rules_removeRules, mem_rules_addRules]
  rw [removed]
  constructor
  · rintro ⟨inherited | old, final⟩
    · obtain ⟨⟨source, target⟩, chain, member⟩ := List.mem_flatMap.mp inherited
      obtain ⟨rfl, below, proper, single⟩ := mem_inheritance.mp member
      exact ⟨single, .inr ⟨proper, target, ((mem_unitChains valid).mp chain).2.2, below⟩⟩
    · refine ⟨?_, .inl old⟩
      by_contra unit
      exact final (mem_unitRules.mpr ⟨old, unit⟩)
  · rintro ⟨single, found⟩
    refine ⟨?_, fun unit => (mem_unitRules.mp unit).2 single⟩
    rcases found with old | ⟨proper, target, chain, below⟩
    · exact .inr old
    · -- a chain that ends where it starts inherits nothing new
      rcases chain.cases_head with same | ⟨next, step, _⟩
      · right
        rwa [← same] at below
      · by_cases same : target = rule.lhs
        · right
          rwa [same] at below
        · left
          apply List.mem_flatMap.mpr
          refine ⟨(rule.lhs, target), ?_, mem_inheritance.mpr ⟨rfl, below, proper, single⟩⟩
          exact (mem_unitChains valid).mpr ⟨(valid.admits step.1).lhs, same, chain⟩

theorem mem_rules_removeUnitRules_of_proper (valid : g.Valid) {lhs : Symbol} {rhs : Rhs}
    (proper : rhs ≠ .epsilon) :
    (⟨lhs, rhs⟩ : Rule) ∈ g.removeUnitRules.grammar.rules ↔ g.unitTarget? rhs = none ∧
      ∃ target, ReflTransGen g.UnitStep lhs target ∧ (⟨target, rhs⟩ : Rule) ∈ g.rules := by
  rw [mem_rules_removeUnitRules valid]
  constructor
  · intro ⟨single, found⟩
    refine ⟨single, ?_⟩
    rcases found with old | ⟨_, inherited⟩
    · exact ⟨lhs, .refl, old⟩
    · exact inherited
  · intro ⟨single, inherited⟩
    exact ⟨single, .inr ⟨proper, inherited⟩⟩

theorem Valid.removeUnitRules (valid : g.Valid) : g.removeUnitRules.grammar.Valid := by
  apply valid.of_same (same_removeUnitRules g)
  · exact pruned_removeRules (pruned_addRules valid.pruned _) _
  · intro rule member
    rcases ((mem_rules_removeUnitRules valid).mp member).2 with old | ⟨_, target, chain, below⟩
    · exact valid.admits old
    · rcases chain.cases_head with same | ⟨next, step, _⟩
      · rw [← same] at below
        exact valid.admits below
      · -- the first unit rule of the chain declares its start
        have admits := valid.admits below
        exact ⟨(valid.admits step.1).lhs, admits.proper, admits.declared⟩

theorem epsilon_mem_removeUnitRules (valid : g.Valid) {s : Symbol} :
    (⟨s, .epsilon⟩ : Rule) ∈ g.removeUnitRules.grammar.rules ↔ (⟨s, .epsilon⟩ : Rule) ∈ g.rules := by
  rw [mem_rules_removeUnitRules valid]
  simp [unitTarget?, Rhs.single?, Rhs.toList]

theorem hasUnitRules_eq_false :
    g.hasUnitRules = false ↔ ∀ rule ∈ g.rules, g.unitTarget? rule.rhs = none := by
  simp [hasUnitRules, isUnitRule]

theorem hasUnitRules_removeUnitRules (valid : g.Valid) :
    g.removeUnitRules.grammar.hasUnitRules = false := by
  rw [hasUnitRules_eq_false]
  intro rule member
  rw [unitTarget?_same (same_removeUnitRules g)]
  exact ((mem_rules_removeUnitRules valid).mp member).1

/-! ### Words -/

theorem generates_of_chain {source target : Symbol} (chain : ReflTransGen g.UnitStep source target)
    {word : List Symbol} (generates : g.Generates target word) : g.Generates source word := by
  induction chain using ReflTransGen.head_induction_on with
  | refl => exact generates
  | head step _ ih => exact .of_rule step.1 (Spells.singleton_iff.mpr ih)

theorem generates_of_removeUnitRules (valid : g.Valid) {s : Symbol} {word : List Symbol}
    (generates : g.removeUnitRules.grammar.Generates s word) : g.Generates s word := by
  have terminals := (same_removeUnitRules g).terminals
  refine generates.mono (fun t member => terminals ▸ member) ?_
  intro rule member part spells
  rcases ((mem_rules_removeUnitRules valid).mp member).2 with old | ⟨_, target, chain, below⟩
  · exact .of_rule old spells
  · exact generates_of_chain chain (.of_rule below spells)

/-- It keeps the words that need no epsilon rule. -/
theorem withoutEpsilon_removeUnitRules (valid : g.Valid) {s : Symbol} {word : List Symbol}
    (generates : g.withoutEpsilon.Generates s word) :
    g.removeUnitRules.grammar.withoutEpsilon.Generates s word := by
  have terminals : g.removeUnitRules.grammar.withoutEpsilon.terminals = g.terminals :=
    (same_removeUnitRules g).terminals
  -- the words of a symbol belong to all symbols that have a chain to it
  let reading : Reading := fun s word => ∀ lhs, ReflTransGen g.UnitStep lhs s →
    g.removeUnitRules.grammar.withoutEpsilon.Generates lhs word
  refine Generates.induct reading ?_ ?_ generates s .refl
  · intro t member lhs chain
    rcases chain.cases_tail with same | ⟨_, _, step⟩
    · rw [← same]
      exact .of_terminal (terminals ▸ member)
    · exact absurd member (valid.not_terminal step.2)
  · intro rule member part spells lhs chain
    obtain ⟨old, proper⟩ := mem_rules_withoutEpsilon.mp member
    cases unit : g.unitTarget? rule.rhs with
    | some target =>
      obtain ⟨shape, nonterminal⟩ := unitTarget?_eq_some.mp unit
      rw [shape] at spells
      apply (Spells.singleton_iff.mp spells).2
      refine chain.tail ⟨?_, nonterminal⟩
      rw [← shape]
      exact old
    | none =>
      -- the chain ends here, and its start inherits the rule
      have inherited : (⟨lhs, rule.rhs⟩ : Rule) ∈ g.removeUnitRules.grammar.withoutEpsilon.rules := by
        apply mem_rules_withoutEpsilon.mpr
        refine ⟨(mem_rules_removeUnitRules valid).mpr ⟨unit, .inr ?_⟩, proper⟩
        exact ⟨proper, rule.lhs, chain, old⟩
      apply Generates.of_rule inherited
      exact spells.mono fun t _ part reads => reads.2 t .refl

end Grammar

end ContextFree
