import ContextFree.Proofs.Normalization.FixedPoint

/-! Every check tells whether its elimination would change the grammar.

A check and its elimination are written apart, each with an analysis of its own. They
agree: an elimination leaves a grammar as it is if and only if the check finds nothing.
-/

set_option autoImplicit false

namespace ContextFree

namespace Grammar

variable {g : Grammar} {start : Symbol}

theorem removeSelfRules_eq_iff : g.removeSelfRules.grammar = g ↔ g.hasSelfRules = false := by
  constructor
  · intro same
    rw [hasSelfRules, List.any_eq_false]
    intro rule member self
    rw [← same] at member
    have shape := Rhs.single?_eq_some.mp (of_decide_eq_true self)
    exact (mem_rules_removeSelfRules.mp member).2 shape
  · intro none_self
    exact (removeSelfRules_eq none_self).2

/-- A run that changes nothing finds all variants covered in the grammar it started
from. This need not be so for the result of a run that does change something. -/
theorem removeEpsilonRules_eq_iff (valid : g.Valid) :
    g.removeEpsilonRules.grammar = g ↔ g.hasEpsilonRules = false := by
  constructor
  · intro same
    rw [hasEpsilonRules_eq_false]
    constructor
    · rintro ⟨lhs, rhs⟩ member empty
      cases empty
      rw [← same] at member
      exact ((epsilon_mem_removeEpsilonRules valid).mp member).1
    · intro rule member kept inside filled _
      rcases variant_of_removeEpsilonRules valid member inside filled with found | subsumed
      · rw [same] at found
        exact .inl found
      · exact .inr subsumed
  · exact removeEpsilonRules_eq valid

theorem removeUnitRules_eq_iff (valid : g.Valid) :
    g.removeUnitRules.grammar = g ↔ g.hasUnitRules = false := by
  constructor
  · intro same
    rw [← same]
    exact hasUnitRules_removeUnitRules valid
  · intro none_unit
    exact (removeUnitRules_eq valid (hasUnitRules_eq_false.mp none_unit)).2

theorem useful_eq_iff (valid : g.Valid) (chosen : g.start = some start) :
    g.useful start = g ↔ (Usefulness.analyze g start).findsUseless g = false := by
  constructor
  · intro same
    have nothing := @findsUseless_useful g start valid
    rwa [same] at nothing
  · intro nothing
    exact (useful_eq valid chosen nothing).2

theorem finds_iff_ne {check : Bool} {other : Grammar} (agrees : other = g ↔ check = false) :
    check = true ↔ other ≠ g := by
  rw [ne_eq, agrees, Bool.not_eq_false]

/-- The checks for self rules, epsilon rules and unit rules hold where the elimination
would change the grammar, and so does that for useless symbols if there is a start
symbol. Without one, check and elimination fail alike and nothing changes. -/
theorem checks_agree_with_eliminations (valid : g.Valid) :
    (g.hasSelfRules = true ↔ g.removeSelfRules.grammar ≠ g) ∧
      (g.hasEpsilonRules = true ↔ g.removeEpsilonRules.grammar ≠ g) ∧
        (g.hasUnitRules = true ↔ g.removeUnitRules.grammar ≠ g) ∧
          (∀ start, g.start = some start →
            ∃ found removed, g.hasUselessSymbols = .ok found ∧
              g.removeUselessSymbols.report = .ok removed ∧
                (found = true ↔ g.removeUselessSymbols.grammar ≠ g)) ∧
            (g.start = none → ∃ fault : Fault, fault.kind = .precondition ∧
              g.hasUselessSymbols = .error fault ∧ g.removeUselessSymbols.report = .error fault ∧
                g.removeUselessSymbols.grammar = g) := by
  refine ⟨finds_iff_ne removeSelfRules_eq_iff, finds_iff_ne (removeEpsilonRules_eq_iff valid),
    finds_iff_ne (removeUnitRules_eq_iff valid), ?_, ?_⟩
  · intro start chosen
    obtain ⟨succeeded, result⟩ := removeUselessSymbols_of_start chosen
    refine ⟨_, _, hasUselessSymbols_of_start chosen, succeeded, ?_⟩
    rw [result]
    exact finds_iff_ne (useful_eq_iff valid chosen)
  · intro missing
    have refused : g.usefulness = .error .noStart := by
      rw [usefulness, requireStart, missing]
      rfl
    rw [hasUselessSymbols, removeUselessSymbols, refused]
    exact ⟨.noStart, rfl, rfl, rfl, rfl⟩

/-- The rules `S ::= S`, `S ::= A`, `A ::= a`, `A ::= l` and `B ::= Bb`. Symbol 28 is `S`,
10 and 11 are `A` and `B`, 36 and 37 are `a` and `b`. -/
def cluttered : Grammar :=
  let nonterminals := ((empty.declare ⟨28⟩ .nonterminal).declare ⟨10⟩ .nonterminal).declare ⟨11⟩ .nonterminal
  let symbols := (nonterminals.declare ⟨36⟩ .terminal).declare ⟨37⟩ .terminal
  (symbols.addRules
    [⟨⟨28⟩, .sequence [⟨28⟩]⟩, ⟨⟨28⟩, .sequence [⟨10⟩]⟩, ⟨⟨10⟩, .sequence [⟨36⟩]⟩, ⟨⟨10⟩, .epsilon⟩,
      ⟨⟨11⟩, .sequence [⟨11⟩, ⟨37⟩]⟩]).withStart ⟨28⟩

theorem checks_agree_on_cluttered :
    cluttered.Valid ∧ cluttered.removeSelfRules.grammar ≠ cluttered ∧
      cluttered.removeEpsilonRules.grammar ≠ cluttered ∧
        cluttered.removeUnitRules.grammar ≠ cluttered ∧
          cluttered.removeUselessSymbols.grammar ≠ cluttered := by
  have valid : cluttered.Valid := by decide +kernel
  obtain ⟨self, epsilon, unit, useless, _⟩ := checks_agree_with_eliminations valid
  obtain ⟨found, _, answer, _, changes⟩ := useless ⟨28⟩ rfl
  have positive : cluttered.hasUselessSymbols = .ok true := by decide +kernel
  rw [positive, Except.ok.injEq] at answer
  exact ⟨valid, self.mp (by decide +kernel), epsilon.mp (by decide +kernel),
    unit.mp (by decide +kernel), changes.mp answer.symm⟩

end Grammar

end ContextFree
