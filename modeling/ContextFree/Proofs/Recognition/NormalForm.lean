import ContextFree.Proofs.Normalization.FixedPoint
import ContextFree.Proofs.Recognition.Table

/-! Derivations in normal form.

The table composes the words that need no epsilon rule. The empty word has a rule
of its own, so nothing is missed where epsilon elimination has no work left. A
start symbol with an epsilon rule may occur on a right-hand side, and then a word
can rest on both.
-/

set_option autoImplicit false

namespace ContextFree

theorem Composes.withoutEpsilon {g : Grammar} {s : Symbol} {word : List Symbol}
    (composes : Composes g.rules s word) (final : ∀ t ∈ word, t ∈ g.terminals) :
    g.withoutEpsilon.Generates s word := by
  have kept {lhs : Symbol} {rhs : Rhs} (member : (⟨lhs, rhs⟩ : Rule) ∈ g.rules) (filled : rhs.toList ≠ []) :
      (⟨lhs, rhs⟩ : Rule) ∈ g.withoutEpsilon.rules := by
    refine Grammar.mem_rules_withoutEpsilon.mpr ⟨member, fun empty => filled ?_⟩
    rw [show rhs = .epsilon from empty]
    rfl
  induction composes with
  | single member shape =>
    apply Grammar.Generates.of_rule (kept member (by simp [shape]))
    rw [shape, Spells.singleton_iff]
    exact .of_terminal (final _ (List.mem_singleton_self _))
  | pair member shape _ _ first second =>
    apply Grammar.Generates.of_rule (kept member (by simp [shape]))
    rw [shape]
    have left := first fun t inside => final t (List.mem_append_left _ inside)
    have right := second fun t inside => final t (List.mem_append_right _ inside)
    exact .cons left (Spells.singleton_iff.mpr right)

namespace Grammar

variable {g : Grammar} {start : Symbol}

theorem chomsky_cases (chomsky : g.isChomsky = true) {rule : Rule} (member : rule ∈ g.rules) :
    (rule.rhs.toList = [] ∧ g.start = some rule.lhs) ∨ (∃ s ∈ g.terminals, rule.rhs.toList = [s]) ∨
      ∃ left ∈ g.nonterminals, ∃ right ∈ g.nonterminals, rule.rhs.toList = [left, right] := by
  rw [isChomsky, List.all_eq_true] at chomsky
  have allowed := chomsky rule member
  unfold isChomskyRule at allowed
  split at allowed
  · rename_i empty
    exact .inl ⟨empty, of_decide_eq_true allowed⟩
  · rename_i s single
    exact .inr (.inl ⟨s, allowed, single⟩)
  · rename_i left right pair
    obtain ⟨first, second⟩ := Bool.and_eq_true_iff.mp allowed
    exact .inr (.inr ⟨left, first, right, second, pair⟩)
  · cases allowed

theorem eq_start_of_epsilon (chomsky : g.isChomsky = true) (chosen : g.start = some start) {rule : Rule}
    (member : rule ∈ g.rules) (empty : rule.rhs = .epsilon) : rule.lhs = start := by
  rcases chomsky_cases chomsky member with ⟨_, first⟩ | ⟨_, _, single⟩ | ⟨_, _, _, _, pair⟩
  · exact Option.some.inj (first.symm.trans chosen)
  · simp [empty, Rhs.toList] at single
  · simp [empty, Rhs.toList] at pair

theorem hasEpsilonRules_of_chomsky (chomsky : g.isChomsky = true) (chosen : g.start = some start) :
    g.hasEpsilonRules = false ↔ g.Covered := by
  rw [hasEpsilonRules_eq_false, and_iff_right]
  intro rule member empty
  rw [eq_start_of_epsilon chomsky chosen member empty, chosen]

section Normal

variable (valid : g.Valid) (chomsky : g.isChomsky = true)

include valid chomsky

theorem Generates.composes {s : Symbol} {word : List Symbol} (generates : g.withoutEpsilon.Generates s word) :
    (s ∈ g.terminals ∧ word = [s]) ∨ Composes g.rules s word := by
  have letters : ∀ t ∈ g.withoutEpsilon.terminals, t ∈ g.terminals := fun t terminal => terminal
  refine Generates.induct (fun s word => (s ∈ g.terminals ∧ word = [s]) ∨ Composes g.rules s word)
    (fun t terminal => .inl ⟨letters t terminal, rfl⟩) ?_ generates
  intro ⟨lhs, rhs⟩ listed part spells
  obtain ⟨member, proper⟩ := mem_rules_withoutEpsilon.mp listed
  right
  rcases chomsky_cases chomsky member with ⟨empty, _⟩ | ⟨t, terminal, single⟩ | ⟨left, one, right, two, pair⟩
  · exact absurd (Rhs.eq_epsilon_of_toList (valid.admits member).proper empty) proper
  · simp only [single, Spells.singleton_iff] at spells
    rcases spells.2 with ⟨_, itself⟩ | composes
    · rw [itself]
      exact .single member single
    · obtain ⟨_, owned⟩ := composes.exists_rule
      exact absurd terminal (valid.not_terminal (valid.admits owned).lhs)
  · have inner {s : Symbol} {word : List Symbol} (declared : s ∈ g.nonterminals)
        (reads : (s ∈ g.terminals ∧ word = [s]) ∨ Composes g.rules s word) : Composes g.rules s word :=
      reads.resolve_left fun found => valid.not_terminal declared found.1
    simp only [pair] at spells
    obtain ⟨front, back, rfl, ⟨_, head⟩, tail⟩ := Spells.cons_iff.mp spells
    obtain ⟨_, last⟩ := Spells.singleton_iff.mp tail
    exact .pair member pair (inner one head) (inner two last)

theorem composes_iff {s : Symbol} (declared : s ∈ g.nonterminals) {word : List Symbol}
    (final : ∀ t ∈ word, t ∈ g.terminals) :
    Composes g.rules s word ↔ g.withoutEpsilon.Generates s word := by
  constructor
  · intro composes
    exact composes.withoutEpsilon final
  · intro generates
    exact (generates.composes valid chomsky).resolve_left fun found =>
      valid.not_terminal declared found.1

variable (chosen : g.start = some start)

include chosen

/-- The empty word rests on the epsilon rule of the start symbol. -/
theorem epsilon_mem_of_generates_nil {s : Symbol} (generates : g.Generates s []) :
    (⟨start, .epsilon⟩ : Rule) ∈ g.rules :=
  epsilon_mem_of_nullable valid (fun _ => eq_start_of_epsilon chomsky chosen)
    ((mem_nullable_iff valid).mpr generates)

theorem eq_start_of_generates_nil (isolated : g.occursOnRhs start = false) {s : Symbol}
    (generates : g.Generates s []) : s = start := by
  refine Generates.induct (fun s word => word = [] → s = start) ?_ ?_ generates rfl
  · intro t _ impossible
    cases impossible
  · rintro rule member _ spells rfl
    have inner := spells.forall_nil
    -- a symbol on the right-hand side would be the start symbol
    rw [occursOnRhs, List.any_eq_false] at isolated
    have none_inside : ∀ s ∈ rule.rhs.toList, False := by
      intro s inside
      have same : s = start := (inner s inside).2 rfl
      rw [same] at inside
      exact isolated rule member (List.contains_iff_mem.mpr inside)
    have empty := List.eq_nil_iff_forall_not_mem.mpr none_inside
    exact eq_start_of_epsilon chomsky chosen member
      (Rhs.eq_epsilon_of_toList (valid.admits member).proper empty)

/-- Epsilon elimination has no work where the start symbol has no epsilon rule or
occurs on no right-hand side. -/
theorem covered_of_chomsky
    (apart : (⟨start, .epsilon⟩ : Rule) ∉ g.rules ∨ g.occursOnRhs start = false) : g.Covered := by
  intro rule member kept inside _ other
  exfalso
  obtain ⟨s, found, null⟩ := exists_nullable_of_mem_deletions inside other
  have empty := (mem_nullable_iff valid).mp null
  rcases apart with missing | isolated
  · exact missing (epsilon_mem_of_generates_nil valid chomsky chosen empty)
  · have same := eq_start_of_generates_nil valid chomsky chosen isolated empty
    rw [same] at found
    rw [occursOnRhs, List.any_eq_false] at isolated
    exact isolated rule member (List.contains_iff_mem.mpr found)

/-- The table finds the empty word by its rule and any other word without epsilon
rules. -/
theorem derived_tableOf_iff {word : List Symbol} (final : ∀ t ∈ word, t ∈ g.terminals) :
    (g.tableOf start word).derived = true ↔
      word = [] ∧ (⟨start, .epsilon⟩ : Rule) ∈ g.rules ∨ g.withoutEpsilon.Generates start word := by
  have declared := valid.start_declared start chosen
  cases word with
  | nil =>
    have filled : ¬ g.withoutEpsilon.Generates start [] := fun generates =>
      ne_nil_of_withoutEpsilon valid generates rfl
    simp [tableOf, filled]
  | cons t rest =>
    have cell : (g.tableOf start (t :: rest)).derived =
        ((Filling.ofWord g.rules (t :: rest)).grid.cell 0 rest.length).contains start := rfl
    have whole : part (t :: rest) 0 (rest.length + 1 - 0) = t :: rest := by simp [part]
    rw [cell, ← SymbolSet.mem_iff, Filling.mem_cell_ofWord (Nat.zero_le _) (by simp), whole,
      composes_iff valid chomsky declared final]
    simp

theorem derived_tableOf (covered : g.Covered) {word : List Symbol} (final : ∀ t ∈ word, t ∈ g.terminals) :
    (g.tableOf start word).derived = true ↔ g.Generates start word := by
  rw [derived_tableOf_iff valid chomsky chosen final]
  constructor
  · rintro (⟨rfl, member⟩ | generates)
    · exact generates_nil_of_epsilon member
    · exact generates_of_withoutEpsilon generates
  · intro generates
    by_cases empty : word = []
    · subst empty
      exact .inl ⟨rfl, epsilon_mem_of_generates_nil valid chomsky chosen generates⟩
    · exact .inr (withoutEpsilon_of_covered valid covered generates empty)

end Normal

end Grammar

end ContextFree
