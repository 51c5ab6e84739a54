import ContextFree.Proofs.Chomsky.Terminals
import ContextFree.Proofs.Normalization.FixedPoint

/-! A start symbol that occurs on no right-hand side.

A fresh start symbol takes over the right-hand sides of the old one. The old one
loses the empty word, and so do the symbols that derive it through the old one;
their other words stay, since a well-formed grammar has the variants of its rules.
-/

set_option autoImplicit false

namespace ContextFree

namespace Draft

variable {g : Grammar} {start letter : Symbol}

/-- The grammar after the first stage, with its letters. -/
structure Isolated (g : Grammar) (start : Symbol) (draft : Draft) : Prop extends Supplied draft where
  valid : draft.grammar.Valid
  ready : ∀ rule ∈ draft.grammar.rules, Ready draft.grammar rule
  terminals : draft.grammar.terminals = g.terminals
  nonterminals : ∀ s ∈ g.nonterminals, s ∈ draft.grammar.nonterminals
  generates_start : ∃ chosen, draft.grammar.start = some chosen ∧
    ∀ word, draft.grammar.Generates chosen word ↔ g.Generates start word
  generates : ∀ s ∈ g.nonterminals, ∀ word ≠ [], draft.grammar.Generates s word ↔ g.Generates s word

theorem supplied_ofGrammar (g : Grammar) : (ofGrammar g).Supplied where
  letters letter listed := by
    obtain ⟨upper, unused⟩ := Supply.mem_letters_avoiding.mp listed
    exact ⟨Kind.ofChar?_eq_nonterminal.mpr upper, unused⟩
  distinct := (Supply.pairwise_letters_avoiding g.symbols).imp fun less => (Ordered.ne_of_before less).symm

/-! ### A fresh start symbol -/

/-- The letter takes the place of the start symbol. -/
abbrev takeOver (g : Grammar) (start letter : Symbol) : Grammar :=
  (((g.declare letter .nonterminal).addRules ((g.productionsOf start).map (Rule.mk letter))).removeRule
    start .epsilon).withStart letter

theorem mem_rules_takeOver {rule : Rule} :
    rule ∈ (takeOver g start letter).rules ↔
      (rule.lhs = letter ∧ (⟨start, rule.rhs⟩ : Rule) ∈ g.rules ∨ rule ∈ g.rules) ∧
        rule ≠ ⟨start, .epsilon⟩ := by
  have rules : (takeOver g start letter).rules = (((g.declare letter .nonterminal).addRules
      ((g.productionsOf start).map (Rule.mk letter))).removeRule start .epsilon).rules := rfl
  rw [rules, Grammar.mem_rules_removeRule, Grammar.mem_rules_addRules, Grammar.rules_declare, List.mem_map]
  have copied : (∃ rhs ∈ g.productionsOf start, Rule.mk letter rhs = rule) ↔
      rule.lhs = letter ∧ (⟨start, rule.rhs⟩ : Rule) ∈ g.rules := by
    constructor
    · intro ⟨rhs, inside, same⟩
      rw [← same]
      exact ⟨rfl, Grammar.mem_rules.mpr inside⟩
    · intro ⟨same, inside⟩
      refine ⟨rule.rhs, Grammar.mem_rules.mp inside, ?_⟩
      rw [← same]
  rw [copied]

theorem same_takeOver (g : Grammar) (start letter : Symbol) :
    (takeOver g start letter).nonterminals = (g.declare letter .nonterminal).nonterminals ∧
      (takeOver g start letter).terminals = g.terminals := by
  have same := (Grammar.same_addRules (g.declare letter .nonterminal)
    ((g.productionsOf start).map (Rule.mk letter))).trans (Grammar.same_removeRule _ start .epsilon)
  exact ⟨same.nonterminals, same.terminals⟩

theorem valid_takeOver (valid : g.Valid) (allowed : Kind.ofChar? letter.toChar = some .nonterminal) :
    (takeOver g start letter).Valid := by
  have declared := valid.declare allowed
  have new : letter ∈ (g.declare letter .nonterminal).nonterminals :=
    Grammar.mem_nonterminals_declare.mpr (.inr rfl)
  have admitted : ∀ rule ∈ (g.productionsOf start).map (Rule.mk letter),
      (g.declare letter .nonterminal).Admits rule := by
    intro rule listed
    obtain ⟨rhs, inside, rfl⟩ := List.mem_map.mp listed
    have source : (⟨start, rhs⟩ : Rule) ∈ (g.declare letter .nonterminal).rules := by
      rw [Grammar.rules_declare]
      exact Grammar.mem_rules.mpr inside
    have admits := declared.admits source
    exact ⟨new, admits.proper, admits.declared⟩
  apply ((declared.addRules admitted).removeRule start .epsilon).withStart
  rw [(Grammar.same_removeRule _ _ _).nonterminals, (Grammar.same_addRules _ _).nonterminals]
  exact new

section Words

variable (valid : g.Valid) (unused : letter ∉ g.symbols)

include valid unused

/-- The letter derives what the old start symbol did, any other symbol no more than
before. -/
theorem generates_of_takeOver {s : Symbol} {word : List Symbol}
    (generates : (takeOver g start letter).Generates s word) :
    g.Generates (if s = letter then start else s) word := by
  have old {t : Symbol} (declared : t ∈ g.symbols) : (if t = letter then start else t) = t := by
    apply if_neg
    intro same
    rw [same] at declared
    exact unused declared
  refine Grammar.Generates.induct (fun s word => g.Generates (if s = letter then start else s) word)
    ?_ ?_ generates
  · intro t terminal
    rw [(same_takeOver g start letter).2] at terminal
    rw [old (Grammar.mem_symbols.mpr (.inr terminal))]
    exact .of_terminal terminal
  · intro rule member part spells
    obtain ⟨source, _⟩ := mem_rules_takeOver.mp member
    -- the right-hand side has old symbols only, which are read as they were
    have inner (lhs : Symbol) (member : (⟨lhs, rule.rhs⟩ : Rule) ∈ g.rules) : g.Generates lhs part := by
      apply Grammar.Generates.of_rule member
      apply spells.mono
      intro s inside part ⟨_, reads⟩
      rwa [old ((valid.admits member).declared s inside)] at reads
    rcases source with ⟨same, copied⟩ | kept
    · rw [if_pos same]
      exact inner start copied
    · rw [old (Grammar.mem_symbols.mpr (.inl (valid.admits kept).lhs))]
      exact inner rule.lhs kept

theorem generates_takeOver (covered : g.Covered) {s : Symbol} (declared : s ∈ g.nonterminals) {word : List Symbol} (filled : word ≠ []) :
    (takeOver g start letter).Generates s word ↔ g.Generates s word := by
  constructor
  · intro generates
    have before := generates_of_takeOver valid unused generates
    rwa [if_neg] at before
    intro same
    rw [same] at declared
    exact unused (Grammar.mem_symbols.mpr (.inl declared))
  · intro generates
    apply (Grammar.withoutEpsilon_of_covered valid covered generates filled).of_rules_subset
    · intro t terminal
      rw [(same_takeOver g start letter).2]
      exact terminal
    · intro rule member
      obtain ⟨old, proper⟩ := Grammar.mem_rules_withoutEpsilon.mp member
      refine mem_rules_takeOver.mpr ⟨.inr old, fun same => proper ?_⟩
      rw [same]

theorem generates_letter (chosen : g.start = some start)
    (starts : ∀ rule ∈ g.rules, rule.rhs = .epsilon → rule.lhs = start) (covered : g.Covered)
    {word : List Symbol} : (takeOver g start letter).Generates letter word ↔ g.Generates start word := by
  have declared := valid.start_declared start chosen
  have other : letter ≠ start := by
    intro same
    rw [← same] at declared
    exact unused (Grammar.mem_symbols.mpr (.inl declared))
  have copied {rhs : Rhs} (member : (⟨start, rhs⟩ : Rule) ∈ g.rules) :
      (⟨letter, rhs⟩ : Rule) ∈ (takeOver g start letter).rules := by
    refine mem_rules_takeOver.mpr ⟨.inl ⟨rfl, member⟩, fun same => other ?_⟩
    cases same
    rfl
  constructor
  · intro generates
    have before := generates_of_takeOver valid unused generates
    rwa [if_pos rfl] at before
  · intro generates
    by_cases empty : word = []
    · subst empty
      have null := (Grammar.mem_nullable_iff valid).mpr generates
      exact Grammar.generates_nil_of_epsilon (copied (Grammar.epsilon_mem_of_nullable valid starts null))
    · -- the first rule of a derivation from the old start symbol is copied
      have kept : (takeOver g start letter).Generates start word :=
        (generates_takeOver valid unused covered declared empty).mpr generates
      rcases Grammar.generates_iff.mp kept with ⟨terminal, _⟩ | ⟨rhs, member, spells⟩
      · rw [(same_takeOver g start letter).2] at terminal
        exact absurd terminal (valid.not_terminal declared)
      · rcases mem_rules_takeOver.mp member with ⟨⟨same, _⟩ | old, _⟩
        · exact absurd same.symm other
        · exact .of_rule (copied old) spells

end Words

/-! ### The stage -/

theorem terminal_of_single (valid : g.Valid) (units : ∀ rule ∈ g.rules, g.unitTarget? rule.rhs = none)
    {rule : Rule} (member : rule ∈ g.rules) {s : Symbol} (single : rule.rhs.toList = [s]) :
    s ∈ g.terminals := by
  have inside : s ∈ rule.rhs.toList := by
    rw [single]
    exact List.mem_singleton_self s
  refine (Grammar.mem_symbols.mp ((valid.admits member).declared s inside)).resolve_left fun declared => ?_
  have unit := Grammar.unitTarget?_eq_some.mpr ⟨Rhs.toList_eq_singleton.mp single, declared⟩
  rw [units rule member] at unit
  cases unit

theorem Isolated.of_not_occurs (valid : g.Valid) (chosen : g.start = some start)
    (wellFormed : g.isWellFormed = true) (isolated : g.occursOnRhs start = false) :
    Isolated g start (ofGrammar g) := by
  obtain ⟨starts, units, _, _⟩ := (Grammar.isWellFormed_iff valid chosen).mp wellFormed
  refine ⟨supplied_ofGrammar g, valid, ?_, rfl, fun _ declared => declared, ⟨start, chosen, fun _ => .rfl⟩,
    fun _ _ _ _ => .rfl⟩
  intro rule member
  constructor
  · intro empty
    rw [starts rule member (Rhs.eq_epsilon_of_toList (valid.admits member).proper empty)]
    exact chosen
  · intro s single
    exact terminal_of_single valid units member single
  · intro s inside same
    have other : s = start := Option.some.inj (same.symm.trans chosen)
    rw [Grammar.occursOnRhs, List.any_eq_false] at isolated
    rw [other] at inside
    exact isolated rule member (List.contains_iff_mem.mpr inside)

theorem ready_takeOver (valid : g.Valid) (unused : letter ∉ g.symbols)
    (starts : ∀ rule ∈ g.rules, rule.rhs = .epsilon → rule.lhs = start)
    (units : ∀ rule ∈ g.rules, g.unitTarget? rule.rhs = none) :
    ∀ rule ∈ (takeOver g start letter).rules, Ready (takeOver g start letter) rule := by
  intro rule member
  obtain ⟨found, other⟩ := mem_rules_takeOver.mp member
  -- copied or not, the right-hand side is one of the old grammar
  obtain ⟨lhs, source⟩ : ∃ lhs, (⟨lhs, rule.rhs⟩ : Rule) ∈ g.rules := by
    rcases found with ⟨_, copied⟩ | old
    · exact ⟨start, copied⟩
    · exact ⟨rule.lhs, old⟩
  have admits := valid.admits source
  constructor
  · intro empty
    have shape := Rhs.eq_epsilon_of_toList admits.proper empty
    rcases found with ⟨same, _⟩ | old
    · rw [same]
      rfl
    · -- the epsilon rule of the old start symbol is gone
      refine absurd ?_ other
      rw [← starts rule old shape, ← shape]
  · intro s single
    rw [(same_takeOver g start letter).2]
    exact terminal_of_single valid units source single
  · intro s inside same
    cases same
    exact unused (admits.declared letter inside)

theorem Isolated.of_takeOver (valid : g.Valid) (chosen : g.start = some start)
    (wellFormed : g.isWellFormed = true) {draft : Draft} (supplied : draft.Supplied)
    (grammar : draft.grammar = takeOver g start letter)
    (allowed : Kind.ofChar? letter.toChar = some .nonterminal) (unused : letter ∉ g.symbols) :
    Isolated g start draft := by
  obtain ⟨starts, units, covered, _⟩ := (Grammar.isWellFormed_iff valid chosen).mp wellFormed
  obtain ⟨nonterminals, terminals⟩ := same_takeOver g start letter
  refine ⟨supplied, ?_, ?_, ?_, ?_, ⟨letter, ?_, fun word => ?_⟩, fun s declared word filled => ?_⟩
  all_goals rw [grammar]
  · exact valid_takeOver valid allowed
  · exact ready_takeOver valid unused starts units
  · exact terminals
  · rw [nonterminals]
    intro s declared
    exact Grammar.mem_nonterminals_declare.mpr (.inl declared)
  · rfl
  · exact generates_letter valid unused chosen starts covered
  · exact generates_takeOver valid unused covered declared filled

theorem isolated_isolateStart (valid : g.Valid) (chosen : g.start = some start)
    (wellFormed : g.isWellFormed = true) {draft : Draft}
    (succeeded : (ofGrammar g).isolateStart start = .ok draft) : Isolated g start draft := by
  unfold isolateStart at succeeded
  split at succeeded
  · obtain ⟨⟨letter, fresh⟩, taken, result⟩ := bind_eq_ok succeeded
    cases result
    obtain ⟨allowed, unused, supplied, declares⟩ := (supplied_ofGrammar g).fresh taken
    have grammar : fresh.grammar = g.declare letter .nonterminal := declares
    apply Isolated.of_takeOver valid chosen wellFormed _ _ allowed unused
    · apply Supplied.of_symbols supplied
      · rfl
      have same := (Grammar.same_addRules fresh.grammar
        ((fresh.grammar.productionsOf start).map (Rule.mk letter))).trans
          (Grammar.same_removeRule _ start .epsilon)
      exact same.symbols
    · simp only [grammar]
      rfl
  · rename_i absent
    cases succeeded
    exact .of_not_occurs valid chosen wellFormed (Bool.eq_false_iff.mpr absent)

end Draft

end ContextFree
