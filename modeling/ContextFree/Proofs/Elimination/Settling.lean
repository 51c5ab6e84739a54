import ContextFree.Grammar.Load
import ContextFree.Proofs.Elimination.Checks
import Mathlib.Data.List.ProdSigma

/-! Grammars in which epsilon elimination has nothing to do.

One run of the elimination need not settle a grammar. It passes over a variant whose
right-hand sides are all there, and asks so before it adds anything: the nonterminal
that is passed over may gain a unit variant, which the left-hand side is again spared.
What is left are unit rules, so unit elimination settles the grammar, and so do further
runs. In a settled grammar, unit elimination keeps all words but the empty one.
-/

set_option autoImplicit false

namespace ContextFree

namespace Grammar

variable {g : Grammar} {lhs target : Symbol}

/-! ### What the second run adds -/

/-- The first run passes over the variant, since the target is subsumed, and makes it
lacking: the target gains a unit variant that the left-hand side does not gain. -/
structure Outgrown (g : Grammar) (lhs target : Symbol) : Prop where
  variant : ∃ rhs, (⟨lhs, rhs⟩ : Rule) ∈ g.removeEpsilonRules.grammar.rules ∧
    [target] ∈ deletions g.removeEpsilonRules.grammar.nullable rhs.toList
  subsumes : g.Subsumes lhs target
  absent : (⟨lhs, .sequence [target]⟩ : Rule) ∉ g.rules
  gains : ∃ single, (⟨target, .sequence [single]⟩ : Rule) ∈ g.lackingVariants ∧
    g.Subsumes lhs single ∧ (⟨lhs, .sequence [single]⟩ : Rule) ∉ g.rules

theorem mem_removeEpsilonRules_of_proper {rule : Rule} (member : rule ∈ g.rules)
    (proper : rule.rhs ≠ .epsilon) : rule ∈ g.removeEpsilonRules.grammar.rules :=
  mem_rules_removeEpsilonRules.mpr (.inl ⟨proper, .inl member⟩)

theorem Subsumes.not_mem_removeEpsilonRules (subsumes : g.Subsumes lhs target)
    (absent : (⟨lhs, .sequence [target]⟩ : Rule) ∉ g.rules) :
    (⟨lhs, .sequence [target]⟩ : Rule) ∉ g.removeEpsilonRules.grammar.rules := by
  intro member
  rcases mem_rules_removeEpsilonRules.mp member with ⟨_, old | lacking⟩ | ⟨empty, _⟩
  · exact absent old
  · obtain ⟨_, _, kept, _, _, _, shape, uncovered⟩ := mem_lackingVariants.mp lacking
    have same : [target] = kept := by
      rw [← Rhs.toList_ofList kept, ← shape]
      rfl
    exact uncovered (.inr ⟨target, same.symm, subsumes⟩)
  · cases empty

theorem nullable_of_removeEpsilonRules (valid : g.Valid) {s : Symbol}
    (null : s ∈ g.removeEpsilonRules.grammar.nullable) : s ∈ g.nullable := by
  have empty := (mem_nullable_iff valid.removeEpsilonRules).mp null
  exact (mem_nullable_iff valid).mpr (generates_of_removeEpsilonRules valid empty)

/-- A variant that the first run leaves uncovered is one that it passed over. -/
theorem covers_or_outgrown (valid : g.Valid) {rhs : Rhs} {kept : List Symbol}
    (member : (⟨lhs, rhs⟩ : Rule) ∈ g.removeEpsilonRules.grammar.rules)
    (inside : kept ∈ deletions g.removeEpsilonRules.grammar.nullable rhs.toList) (filled : kept ≠ []) :
    g.removeEpsilonRules.grammar.Covers lhs kept ∨ ∃ target, kept = [target] ∧ g.Outgrown lhs target := by
  have wider := deletions_mono (fun s => nullable_of_removeEpsilonRules valid) inside
  rcases variant_of_mem_removeEpsilonRules valid member wider filled with found | ⟨target, rfl, subsumes⟩
  · exact .inl (.inl found)
  · by_cases gains : ∃ single, (⟨target, .sequence [single]⟩ : Rule) ∈ g.lackingVariants ∧
        g.Subsumes lhs single ∧ (⟨lhs, .sequence [single]⟩ : Rule) ∉ g.rules
    · by_cases absent : (⟨lhs, .sequence [target]⟩ : Rule) ∈ g.rules
      · exact .inl (.inl (mem_removeEpsilonRules_of_proper absent Rhs.noConfusion))
      · exact .inr ⟨target, rfl, ⟨rhs, member, inside⟩, subsumes, absent, gains⟩
    · -- all that the target has gained, the left-hand side has gained as well
      refine .inl (.inr ⟨target, rfl, ?_, fun other below proper => ?_⟩)
      · rw [(same_removeEpsilonRules g).nonterminals]
        exact subsumes.nonterminal
      · rcases subsumes.rules_removeEpsilonRules valid below proper with found | ⟨single, rfl, again⟩
        · exact found
        · by_cases missing : (⟨lhs, .sequence [single]⟩ : Rule) ∈ g.rules
          · exact mem_removeEpsilonRules_of_proper missing proper
          · rcases mem_rules_removeEpsilonRules.mp below with ⟨_, old | lacking⟩ | ⟨empty, _⟩
            · exact absurd (subsumes.rules _ old proper) missing
            · exact absurd ⟨single, lacking, again, missing⟩ gains
            · cases empty

theorem Outgrown.lacking (outgrown : g.Outgrown lhs target) :
    (⟨lhs, .sequence [target]⟩ : Rule) ∈ g.removeEpsilonRules.grammar.lackingVariants := by
  obtain ⟨rhs, member, inside⟩ := outgrown.variant
  obtain ⟨single, gained, again, missing⟩ := outgrown.gains
  have absent := outgrown.subsumes.not_mem_removeEpsilonRules outgrown.absent
  refine mem_lackingVariants.mpr ⟨rhs, member, [target], inside, List.cons_ne_nil _ _, ?_, rfl, ?_⟩
  · intro same
    rw [Rhs.toList_eq_singleton.mp same.symm] at member
    exact absent member
  · rintro (found | ⟨_, same, subsumes⟩)
    · exact absent found
    · -- the new rule of the target is not shared
      cases same
      have below : (⟨target, .sequence [single]⟩ : Rule) ∈ g.removeEpsilonRules.grammar.rules :=
        mem_rules_removeEpsilonRules.mpr (.inl ⟨Rhs.noConfusion, .inr gained⟩)
      exact again.not_mem_removeEpsilonRules missing (subsumes.rules _ below Rhs.noConfusion)

theorem mem_lackingVariants_removeEpsilonRules (valid : g.Valid) {rule : Rule} :
    rule ∈ g.removeEpsilonRules.grammar.lackingVariants ↔
      ∃ target, rule.rhs = .sequence [target] ∧ g.Outgrown rule.lhs target := by
  obtain ⟨lhs, rhs⟩ := rule
  constructor
  · intro lacking
    obtain ⟨source, member, kept, inside, filled, _, shape, uncovered⟩ := mem_lackingVariants.mp lacking
    rcases covers_or_outgrown valid member inside filled with covers | ⟨target, rfl, outgrown⟩
    · exact absurd covers uncovered
    · exact ⟨target, shape, outgrown⟩
  · rintro ⟨target, rfl, outgrown⟩
    exact outgrown.lacking

theorem start_of_epsilon_mem (valid : g.Valid) {rule : Rule}
    (member : rule ∈ g.removeEpsilonRules.grammar.rules) (empty : rule.rhs = .epsilon) :
    g.removeEpsilonRules.grammar.start = some rule.lhs := by
  obtain ⟨lhs, rhs⟩ := rule
  cases empty
  rw [(same_removeEpsilonRules g).start]
  exact ((epsilon_mem_removeEpsilonRules valid).mp member).1

theorem hasEpsilonRules_removeEpsilonRules (valid : g.Valid) :
    g.removeEpsilonRules.grammar.hasEpsilonRules = true ↔ ∃ lhs target, g.Outgrown lhs target := by
  rw [← Bool.not_eq_false, hasEpsilonRules_eq_false]
  constructor
  · intro pending
    by_contra none_outgrown
    refine pending ⟨fun rule => start_of_epsilon_mem valid, fun rule member kept inside filled _ => ?_⟩
    rcases covers_or_outgrown valid member inside filled with covers | ⟨target, _, outgrown⟩
    · exact covers
    · exact absurd ⟨rule.lhs, target, outgrown⟩ none_outgrown
  · rintro ⟨lhs, target, outgrown⟩ ⟨_, covered⟩
    obtain ⟨rhs, member, kept, inside, filled, other, _, uncovered⟩ :=
      mem_lackingVariants.mp outgrown.lacking
    exact uncovered (covered _ member kept inside filled other)

/-- The second run takes nothing away. -/
theorem mem_rules_second_run (valid : g.Valid) {rule : Rule} :
    rule ∈ g.removeEpsilonRules.grammar.removeEpsilonRules.grammar.rules ↔
      rule ∈ g.removeEpsilonRules.grammar.rules ∨
        ∃ target, rule.rhs = .sequence [target] ∧ g.Outgrown rule.lhs target := by
  rw [mem_rules_removeEpsilonRules, mem_lackingVariants_removeEpsilonRules valid]
  constructor
  · rintro (⟨_, found⟩ | ⟨empty, chosen, null⟩)
    · exact found
    · left
      obtain ⟨lhs, rhs⟩ := rule
      cases empty
      rw [(same_removeEpsilonRules g).start] at chosen
      have before := nullable_of_removeEpsilonRules valid null
      exact (epsilon_mem_removeEpsilonRules valid).mpr ⟨chosen, (mem_nullable_iff valid).mp before⟩
  · intro found
    by_cases empty : rule.rhs = .epsilon
    · right
      have member : rule ∈ g.removeEpsilonRules.grammar.rules := by
        refine found.resolve_right ?_
        rintro ⟨target, shape, _⟩
        rw [shape] at empty
        cases empty
      refine ⟨empty, start_of_epsilon_mem valid member empty, ?_⟩
      apply (mem_nullable_iff valid.removeEpsilonRules).mpr
      apply generates_nil_of_epsilon
      rw [← empty]
      exact member
    · exact .inl ⟨empty, found⟩

theorem not_outgrown_of_solid_start (valid : g.Valid)
    (solid : ∀ start, g.start = some start → ¬ g.Generates start []) : ¬ g.Outgrown lhs target := by
  intro outgrown
  obtain ⟨rhs, member, kept, inside, _, other, _⟩ := mem_lackingVariants.mp outgrown.lacking
  obtain ⟨s, _, null⟩ := exists_nullable_of_mem_deletions inside other
  refine not_nullable_of_no_epsilon valid.removeEpsilonRules (fun t empty => ?_) s null
  obtain ⟨chosen, generates⟩ := (epsilon_mem_removeEpsilonRules valid).mp empty
  exact solid t chosen generates

/-! ### Further runs -/

def afterRuns (g : Grammar) : Nat → Grammar
  | 0 => g
  | runs + 1 => g.removeEpsilonRules.grammar.afterRuns runs

/-- The pairs of symbols that no unit rule joins. -/
def unitGaps (g : Grammar) : List (Symbol × Symbol) :=
  (Symbol.all ×ˢ Symbol.all).filter fun pair => !g.hasRule pair.1 (.sequence [pair.2])

theorem mem_unitGaps : (lhs, target) ∈ g.unitGaps ↔ (⟨lhs, .sequence [target]⟩ : Rule) ∉ g.rules := by
  simp [unitGaps, List.mem_product, Symbol.mem_all, ← hasRule_iff]

theorem length_unitGaps_lt {other : Grammar} (kept : ∀ rule ∈ g.rules, rule ∈ other.rules)
    (new : (⟨lhs, .sequence [target]⟩ : Rule) ∈ other.rules)
    (absent : (⟨lhs, .sequence [target]⟩ : Rule) ∉ g.rules) :
    other.unitGaps.length < g.unitGaps.length := by
  have fewer : other.unitGaps.Sublist g.unitGaps := by
    refine List.monotone_filter_right _ fun pair gap => ?_
    rw [Bool.not_eq_true', ← Bool.not_eq_true, hasRule_iff] at gap ⊢
    exact fun member => gap (kept _ member)
  refine Nat.lt_of_le_of_ne fewer.length_le fun same => ?_
  have gap := mem_unitGaps.mpr absent
  rw [← fewer.eq_of_length same] at gap
  exact mem_unitGaps.mp gap new

/-- Every run after the first that changes the grammar closes a gap. -/
theorem exists_settled (valid : g.Valid) :
    ∃ runs, (g.removeEpsilonRules.grammar.afterRuns runs).hasEpsilonRules = false := by
  induction size : g.removeEpsilonRules.grammar.unitGaps.length using Nat.strongRecOn
    generalizing g with
  | _ gaps ih =>
    cases pending : g.removeEpsilonRules.grammar.hasEpsilonRules with
    | false => exact ⟨0, pending⟩
    | true =>
      obtain ⟨lhs, target, outgrown⟩ := (hasEpsilonRules_removeEpsilonRules valid).mp pending
      have closes := length_unitGaps_lt (fun rule member => (mem_rules_second_run valid).mpr (.inl member))
        ((mem_rules_second_run valid).mpr (.inr ⟨target, rfl, outgrown⟩))
        (outgrown.subsumes.not_mem_removeEpsilonRules outgrown.absent)
      rw [size] at closes
      obtain ⟨runs, settled⟩ := ih _ closes valid.removeEpsilonRules rfl
      refine ⟨runs + 1, ?_⟩
      rw [afterRuns]
      exact settled

/-! ### Unit elimination afterwards -/

theorem hasEpsilonRules_unitFree (valid : g.Valid) :
    g.removeEpsilonRules.grammar.removeUnitRules.grammar.hasEpsilonRules = false := by
  have noEpsilon := valid.removeEpsilonRules
  rw [hasEpsilonRules_eq_false]
  constructor
  · rintro ⟨lhs, rhs⟩ member empty
    cases empty
    rw [(same_removeUnitRules _).start]
    exact start_of_epsilon_mem valid ((epsilon_mem_removeUnitRules noEpsilon).mp member) rfl
  · intro rule member kept inside filled _
    refine saturated_removeUnitRules valid rule member kept (deletions_mono ?_ inside) filled
    intro s null
    have empty := (mem_nullable_iff noEpsilon.removeUnitRules).mp null
    have before := generates_of_removeUnitRules noEpsilon empty
    exact nullable_of_removeEpsilonRules valid ((mem_nullable_iff noEpsilon).mpr before)

/-- A run of epsilon elimination leaves work where, and only where, a variant was
outgrown; a second run then adds just these variants. Nothing is left if the start
symbol does not derive the empty word, after unit elimination, or after further runs. -/
theorem removeEpsilonRules_settles (valid : g.Valid) :
    (g.removeEpsilonRules.grammar.hasEpsilonRules = true ↔ ∃ lhs target, g.Outgrown lhs target) ∧
      (g.removeEpsilonRules.grammar.removeEpsilonRules.grammar = g.removeEpsilonRules.grammar ↔
        g.removeEpsilonRules.grammar.hasEpsilonRules = false) ∧
        (∀ rule, rule ∈ g.removeEpsilonRules.grammar.removeEpsilonRules.grammar.rules ↔
          rule ∈ g.removeEpsilonRules.grammar.rules ∨
            ∃ target, rule.rhs = .sequence [target] ∧ g.Outgrown rule.lhs target) ∧
          ((∀ start, g.start = some start → ¬ g.Generates start []) →
            g.removeEpsilonRules.grammar.hasEpsilonRules = false) ∧
            g.removeEpsilonRules.grammar.removeUnitRules.grammar.hasEpsilonRules = false ∧
              ∃ runs, (g.afterRuns (runs + 1)).hasEpsilonRules = false := by
  refine ⟨hasEpsilonRules_removeEpsilonRules valid, removeEpsilonRules_eq_iff valid.removeEpsilonRules,
    fun rule => mem_rules_second_run valid, fun solid => ?_, hasEpsilonRules_unitFree valid,
    exists_settled valid⟩
  rw [← Bool.not_eq_true, hasEpsilonRules_removeEpsilonRules valid]
  rintro ⟨lhs, target, outgrown⟩
  exact not_outgrown_of_solid_start valid solid outgrown

/-- The rules `S ::= l`, `S ::= SB`, `S ::= SC`, `S ::= c`, `B ::= SC` and `C ::= c`.
Symbol 28 is `S`, 11 and 12 are `B` and `C`, 38 is `c`. -/
def overtaken : Grammar :=
  let nonterminals := ((empty.declare ⟨28⟩ .nonterminal).declare ⟨11⟩ .nonterminal).declare ⟨12⟩ .nonterminal
  ((nonterminals.declare ⟨38⟩ .terminal).addRules
    [⟨⟨28⟩, .epsilon⟩, ⟨⟨28⟩, .sequence [⟨28⟩, ⟨11⟩]⟩, ⟨⟨28⟩, .sequence [⟨28⟩, ⟨12⟩]⟩,
      ⟨⟨28⟩, .sequence [⟨38⟩]⟩, ⟨⟨11⟩, .sequence [⟨28⟩, ⟨12⟩]⟩, ⟨⟨12⟩, .sequence [⟨38⟩]⟩]).withStart ⟨28⟩

theorem settles_overtaken :
    overtaken.Valid ∧ (∃ lhs target, overtaken.Outgrown lhs target) ∧
      overtaken.removeEpsilonRules.grammar.removeUnitRules.grammar.hasEpsilonRules = false ∧
        ∃ runs, (overtaken.afterRuns (runs + 1)).hasEpsilonRules = false := by
  have valid : overtaken.Valid := by decide +kernel
  obtain ⟨pending, _, _, _, unitFree, settled⟩ := removeEpsilonRules_settles valid
  exact ⟨valid, pending.mp (by decide +kernel), unitFree, settled⟩

/-- The grammar can be read from a text, and the second run adds `S ::= B`. -/
theorem first_run_leaves_work :
    load "S::=l|SB|SC|c\nB::=SC\nC::=c" 'S' = .ok overtaken ∧ overtaken.Valid ∧
      overtaken.removeEpsilonRules.grammar.hasEpsilonRules = true ∧
        overtaken.removeEpsilonRules.grammar.removeEpsilonRules.grammar ≠
          overtaken.removeEpsilonRules.grammar := by
  refine ⟨?_, by decide +kernel, by decide +kernel, by decide +kernel⟩
  decide +kernel

/-! ### Unit elimination of a settled grammar -/

theorem generates_removeUnitRules (valid : g.Valid) (settled : g.hasEpsilonRules = false) {s : Symbol}
    {word : List Symbol} (filled : word ≠ []) :
    g.removeUnitRules.grammar.Generates s word ↔ g.Generates s word := by
  constructor
  · exact generates_of_removeUnitRules valid
  · intro generates
    obtain ⟨_, covered⟩ := hasEpsilonRules_eq_false.mp settled
    -- the word needs no epsilon rule, so it survives along the chains
    have without := withoutEpsilon_of_covered valid covered generates filled
    exact generates_of_withoutEpsilon (withoutEpsilon_removeUnitRules valid without)

theorem generates_start_removeUnitRules (valid : g.Valid) (settled : g.hasEpsilonRules = false)
    {start : Symbol} (chosen : g.start = some start) {word : List Symbol} :
    g.removeUnitRules.grammar.Generates start word ↔ g.Generates start word := by
  by_cases filled : word = []
  · subst filled
    refine ⟨generates_of_removeUnitRules valid, fun generates => ?_⟩
    obtain ⟨starts, _⟩ := hasEpsilonRules_eq_false.mp settled
    -- the empty word rests on a rule of the start, which is not inherited but stays
    have epsilon : (⟨start, .epsilon⟩ : Rule) ∈ g.rules := by
      refine epsilon_mem_of_nullable valid (fun rule member empty => ?_)
        ((mem_nullable_iff valid).mpr generates)
      have same := starts rule member empty
      rw [chosen, Option.some.injEq] at same
      exact same.symm
    exact generates_nil_of_epsilon ((epsilon_mem_removeUnitRules valid).mpr epsilon)
  · exact generates_removeUnitRules valid settled filled

/-- No unit rule is left, the report lists the unit rules there were in rule order, and
no symbol gains a word. In a settled grammar every symbol keeps its words but the empty
one, and the start symbol keeps this one, too. -/
theorem removeUnitRules_keeps_words (valid : g.Valid) :
    (∀ rule ∈ g.removeUnitRules.grammar.rules, ∀ target ∈ g.removeUnitRules.grammar.nonterminals,
      rule.rhs ≠ .sequence [target]) ∧
      (g.removeUnitRules.report.Sublist g.rules ∧
        g.removeUnitRules.report.Pairwise (fun a b => Ordered.before a b = true) ∧
          ∀ rule, rule ∈ g.removeUnitRules.report ↔
            rule ∈ g.rules ∧ ∃ target ∈ g.nonterminals, rule.rhs = .sequence [target]) ∧
        (∀ s word, g.removeUnitRules.grammar.Generates s word → g.Generates s word) ∧
          (g.hasEpsilonRules = false →
            (∀ s ∈ g.nonterminals, ∀ word, word ≠ [] →
              (g.removeUnitRules.grammar.Generates s word ↔ g.Generates s word)) ∧
              ∀ start, g.start = some start → g.removeUnitRules.grammar.start = some start ∧
                ∀ word, g.removeUnitRules.grammar.Generates start word ↔ g.Generates start word) := by
  have listed : g.removeUnitRules.report.Sublist g.rules := List.filter_sublist
  refine ⟨?_, ⟨listed, g.pairwise_rules.sublist listed, fun rule => ?_⟩, ?_, ?_⟩
  · intro rule member target declared shape
    have unit := unitTarget?_eq_some.mpr ⟨shape, declared⟩
    rw [hasUnitRules_eq_false.mp (hasUnitRules_removeUnitRules valid) rule member] at unit
    cases unit
  · rw [← unitTarget?_ne_none]
    exact mem_unitRules
  · intro s word
    exact generates_of_removeUnitRules valid
  · intro settled
    refine ⟨fun s _ word filled => generates_removeUnitRules valid settled filled, ?_⟩
    intro start chosen
    rw [(same_removeUnitRules g).start]
    exact ⟨chosen, fun word => generates_start_removeUnitRules valid settled chosen⟩

/-- The rules `S ::= l`, `S ::= a`, `S ::= A`, `A ::= S`, `B ::= Ac` and `B ::= c`. Symbol
28 is `S`, 10 and 11 are `A` and `B`, 36 and 38 are `a` and `c`. -/
def linked : Grammar :=
  let nonterminals := ((empty.declare ⟨28⟩ .nonterminal).declare ⟨10⟩ .nonterminal).declare ⟨11⟩ .nonterminal
  let symbols := (nonterminals.declare ⟨36⟩ .terminal).declare ⟨38⟩ .terminal
  (symbols.addRules
    [⟨⟨28⟩, .epsilon⟩, ⟨⟨28⟩, .sequence [⟨36⟩]⟩, ⟨⟨28⟩, .sequence [⟨10⟩]⟩, ⟨⟨10⟩, .sequence [⟨28⟩]⟩,
      ⟨⟨11⟩, .sequence [⟨10⟩, ⟨38⟩]⟩, ⟨⟨11⟩, .sequence [⟨38⟩]⟩]).withStart ⟨28⟩

/-- The symbol `A` loses the empty word, which it had by the chain to `S`. The word `c`
of `B` stays, though its derivation by way of `Ac` is lost. -/
theorem removeUnitRules_keeps_linked :
    linked.Valid ∧ linked.hasEpsilonRules = false ∧ linked.Generates ⟨10⟩ [] ∧
      ¬ linked.removeUnitRules.grammar.Generates ⟨10⟩ [] ∧
        linked.removeUnitRules.grammar.Generates ⟨11⟩ [⟨38⟩] := by
  have valid : linked.Valid := by decide +kernel
  have settled : linked.hasEpsilonRules = false := by decide +kernel
  have empty : linked.Generates ⟨10⟩ [] := (mem_nullable_iff valid).mp (by decide +kernel)
  have word : linked.Generates ⟨11⟩ [⟨38⟩] := by
    refine .of_rule (show (⟨⟨11⟩, .sequence [⟨10⟩, ⟨38⟩]⟩ : Rule) ∈ linked.rules by decide +kernel) ?_
    exact .cons empty (Spells.singleton_iff.mpr (.of_terminal (by decide)))
  refine ⟨valid, settled, empty, ?_, ?_⟩
  · rw [← mem_nullable_iff valid.removeUnitRules]
    decide +kernel
  · obtain ⟨kept, _⟩ := (removeUnitRules_keeps_words valid).2.2.2 settled
    exact (kept ⟨11⟩ (by decide +kernel) _ (by decide)).mpr word

end Grammar

end ContextFree
