import ContextFree.Normalization
import ContextFree.Proofs.Elimination.SelfRules
import ContextFree.Proofs.Elimination.Unit
import ContextFree.Proofs.Elimination.Useless

/-! Normalization keeps the language of the start symbol.

No step adds a word. A nonempty word is derived without epsilon rules from the
second step on, so that the third one keeps it; the empty word hangs on the
epsilon rule of the start symbol alone.
-/

set_option autoImplicit false

namespace ContextFree

namespace Grammar

variable {g : Grammar} {start : Symbol}

/-- The grammar before useless symbols go: without self rules, epsilon rules other
than the start's, and unit rules. -/
abbrev unitFree (g : Grammar) : Grammar :=
  g.removeSelfRules.grammar.removeEpsilonRules.grammar.removeUnitRules.grammar

theorem same_unitFree (g : Grammar) : SameDeclarations g g.unitFree :=
  ((same_removeSelfRules g).trans (same_removeEpsilonRules _)).trans (same_removeUnitRules _)

theorem Valid.unitFree (valid : g.Valid) : g.unitFree.Valid :=
  valid.removeSelfRules.removeEpsilonRules.removeUnitRules

theorem normalize_of_start (chosen : g.start = some start) :
    (∃ report, g.normalize.report = .ok report ∧ report.selfRules = g.removeSelfRules.report ∧
      report.unitRules = g.removeSelfRules.grammar.removeEpsilonRules.grammar.removeUnitRules.report ∧
        report.uselessSymbols = (g.unitFree.removeUseless (Usefulness.analyze g.unitFree start)).report) ∧
      g.normalize.grammar = g.unitFree.useful start := by
  -- the first three steps keep the start symbol, so the last one does not fail
  have kept : g.unitFree.start = some start := by rw [(same_unitFree g).start, chosen]
  obtain ⟨succeeded, result⟩ := removeUselessSymbols_of_start kept
  have required : g.requireStart = .ok start := by rw [requireStart, chosen]
  simp only [normalize, required, succeeded, result]
  exact ⟨⟨_, rfl, rfl, rfl, rfl⟩, trivial⟩

theorem normalize_of_no_start (missing : g.start = none) :
    g.normalize = .refuse g .noStart := by
  have refused : g.requireStart = .error .noStart := by rw [requireStart, missing]
  rw [normalize, refused]

theorem normalize_succeeds (chosen : g.start = some start) :
    ∃ report, g.normalize.report = .ok report := by
  obtain ⟨⟨report, succeeded, _⟩, _⟩ := normalize_of_start chosen
  exact ⟨report, succeeded⟩

theorem grammar_normalize (chosen : g.start = some start) :
    g.normalize.grammar = g.unitFree.useful start :=
  (normalize_of_start chosen).2

theorem Valid.normalize (valid : g.Valid) : g.normalize.grammar.Valid := by
  cases chosen : g.start with
  | none =>
    rw [normalize_of_no_start chosen]
    exact valid
  | some start =>
    rw [grammar_normalize chosen]
    exact valid.unitFree.useful start

theorem start_normalize (chosen : g.start = some start) :
    g.normalize.grammar.start = some start := by
  rw [grammar_normalize chosen]
  apply start_useful
  rw [(same_unitFree g).start, chosen]

theorem generates_of_unitFree (valid : g.Valid) {s : Symbol} {word : List Symbol}
    (generates : g.unitFree.Generates s word) : g.Generates s word := by
  have noSelf := valid.removeSelfRules
  have noEpsilon := noSelf.removeEpsilonRules
  have kept := generates_of_removeUnitRules noEpsilon generates
  exact generates_removeSelfRules.mp (generates_of_removeEpsilonRules noSelf kept)

theorem withoutEpsilon_unitFree (valid : g.Valid) {s : Symbol} {word : List Symbol}
    (generates : g.Generates s word) (filled : word ≠ []) :
    g.unitFree.withoutEpsilon.Generates s word := by
  have noSelf := valid.removeSelfRules
  have kept := withoutEpsilon_removeEpsilonRules noSelf (generates_removeSelfRules.mpr generates) filled
  exact withoutEpsilon_removeUnitRules noSelf.removeEpsilonRules kept

theorem epsilon_mem_unitFree (valid : g.Valid) {s : Symbol} :
    (⟨s, .epsilon⟩ : Rule) ∈ g.unitFree.rules ↔ g.start = some s ∧ g.Generates s [] := by
  have noSelf := valid.removeSelfRules
  rw [epsilon_mem_removeUnitRules noSelf.removeEpsilonRules, epsilon_mem_removeEpsilonRules noSelf,
    generates_removeSelfRules, (same_removeSelfRules g).start]

theorem generates_start_unitFree (valid : g.Valid) (chosen : g.start = some start) {word : List Symbol} :
    g.unitFree.Generates start word ↔ g.Generates start word := by
  constructor
  · exact generates_of_unitFree valid
  · intro generates
    -- the empty word has a rule of its own, the others need none
    by_cases empty : word = []
    · subst empty
      exact generates_nil_of_epsilon ((epsilon_mem_unitFree valid).mpr ⟨chosen, generates⟩)
    · exact generates_of_withoutEpsilon (withoutEpsilon_unitFree valid generates empty)

theorem generates_start_normalize (valid : g.Valid) (chosen : g.start = some start)
    {word : List Symbol} : g.normalize.grammar.Generates start word ↔ g.Generates start word := by
  rw [grammar_normalize chosen, generates_start_useful valid.unitFree,
    generates_start_unitFree valid chosen]

/-- Normalization fails for want of a start symbol only, and then changes nothing;
otherwise the start symbol and its words stay. -/
theorem normalize_keeps_language (valid : g.Valid) :
    ((∃ fault, g.normalize.report = .error fault) ↔ g.start = none) ∧
      (g.start = none → g.normalize.grammar = g) ∧
        ∀ start, g.start = some start → g.normalize.grammar.start = some start ∧
          ∀ word, g.normalize.grammar.Generates start word ↔ g.Generates start word := by
  refine ⟨⟨?_, ?_⟩, ?_, ?_⟩
  · intro ⟨fault, failed⟩
    cases chosen : g.start with
    | none => rfl
    | some start =>
      obtain ⟨report, succeeded⟩ := normalize_succeeds chosen
      rw [succeeded] at failed
      cases failed
  · intro missing
    rw [normalize_of_no_start missing]
    exact ⟨.noStart, rfl⟩
  · intro missing
    rw [normalize_of_no_start missing]
    rfl
  · intro start chosen
    exact ⟨start_normalize chosen, fun word => generates_start_normalize valid chosen⟩

theorem normalize_keeps_balanced :
    balanced.start = some ⟨28⟩ ∧
      ∀ word, balanced.normalize.grammar.Generates ⟨28⟩ word ↔ balanced.Generates ⟨28⟩ word :=
  ⟨rfl, ((normalize_keeps_language valid_balanced).2.2 ⟨28⟩ rfl).2⟩

end Grammar

end ContextFree
