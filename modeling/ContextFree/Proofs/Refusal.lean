import ContextFree.Proofs.Document
import ContextFree.Proofs.Reachable

/-! What a failed edit leaves behind.

An edit that fails leaves the grammar as it was, with one exception: to remove a
production that is not there also drops the production set of its left-hand side if
this set is empty. Only a document brings empty sets.
-/

set_option autoImplicit false

namespace ContextFree

namespace Change

variable {α : Type}

def fault? (change : Change (Except Fault α)) : Option Fault :=
  match change.report with
  | .ok _ => none
  | .error fault => some fault

/-- Where the operation fails, the grammar is as before. -/
def Safe (g : Grammar) (change : Change (Except Fault α)) : Prop :=
  ∀ fault, change.fault? = some fault → change.grammar = g

theorem safe_refuse (g : Grammar) (fault : Fault) : Safe g (refuse g fault : Change (Except Fault α)) :=
  fun _ _ => rfl

theorem safe_of_ok {g : Grammar} {change : Change (Except Fault α)} {value : α}
    (succeeded : change.report = .ok value) : Safe g change := by
  intro fault failed
  rw [fault?, succeeded] at failed
  cases failed

end Change

def Edit.fault? (g : Grammar) : Edit → Option Fault
  | clear | removeSelfRules | removeEpsilonRules | removeUnitRules => none
  | addNonterminal c => (g.addNonterminal c).fault?
  | addTerminal c => (g.addTerminal c).fault?
  | removeNonterminal c => (g.removeNonterminal c).fault?
  | removeTerminal c => (g.removeTerminal c).fault?
  | setStart c => (g.setStart c).fault?
  | addProduction lhs rhs => (g.addProduction lhs rhs).fault?
  | removeProduction lhs rhs => (g.removeProduction lhs rhs).fault?
  | removeUselessSymbols => g.removeUselessSymbols.fault?
  | normalize => g.normalize.fault?
  | toChomsky => g.toChomsky.fault?

/-- The edit is to remove a production of the symbol, whose production set is empty. -/
def Edit.MeetsEmptySet (g : Grammar) (edit : Edit) (s : Symbol) : Prop :=
  ∃ lhs rhs body, edit = .removeProduction lhs rhs ∧ g.parseRule lhs rhs = .ok ⟨s, body⟩ ∧
    g.productions.get? s = some .empty

namespace Grammar

variable {g : Grammar}

/-! ### Edits that fail safely -/

theorem safe_addSymbol (g : Grammar) (c : Char) (kind : Kind) : (g.addSymbol c kind).Safe g := by
  unfold addSymbol
  split
  · exact Change.safe_refuse g _
  · split
    · split
      · exact Change.safe_refuse g _
      · exact Change.safe_of_ok rfl
    · exact Change.safe_refuse g _

theorem safe_removeSymbol (g : Grammar) (c : Char) (kind : Kind) : (g.removeSymbol c kind).Safe g := by
  unfold removeSymbol
  split
  · exact Change.safe_refuse g _
  · exact Change.safe_of_ok rfl

theorem safe_setStart (g : Grammar) (c : Char) : (g.setStart c).Safe g := by
  unfold setStart
  split
  · exact Change.safe_refuse g _
  · exact Change.safe_of_ok rfl

theorem safe_addProduction (g : Grammar) (lhs : Char) (rhs : String) : (g.addProduction lhs rhs).Safe g := by
  unfold addProduction
  split
  · exact Change.safe_refuse g _
  · split
    · exact Change.safe_refuse g _
    · exact Change.safe_of_ok rfl

theorem safe_removeUselessSymbols (g : Grammar) : g.removeUselessSymbols.Safe g := by
  unfold removeUselessSymbols
  split
  · exact Change.safe_refuse g _
  · exact Change.safe_of_ok rfl

theorem safe_normalize (g : Grammar) : g.normalize.Safe g := by
  -- only the last step of a normalization could fail late, and it does not fail
  cases chosen : g.start with
  | none =>
    rw [normalize_of_no_start chosen]
    exact Change.safe_refuse g _
  | some start =>
    obtain ⟨report, succeeded⟩ := normalize_succeeds chosen
    exact Change.safe_of_ok succeeded

theorem safe_toChomsky (g : Grammar) : g.toChomsky.Safe g := by
  -- the stages work on a draft, so running out of letters leaves no trace
  unfold toChomsky
  split
  · exact Change.safe_refuse g _
  · split
    · split
      · exact fun _ _ => rfl
      · exact Change.safe_of_ok rfl
    · exact Change.safe_refuse g _

/-! ### Removing a production that is not there -/

theorem removeRule_of_empty {lhs : Symbol} (found : g.productions.get? lhs = some .empty) (rhs : Rhs) :
    g.removeRule lhs rhs = { g with productions := g.productions.erase lhs } := by
  simp [removeRule, found, OrderedSet.empty, OrderedSet.erase, OrderedSet.filter, OrderedSet.isEmpty]

theorem removeRule_of_missing {rule : Rule} (missing : rule ∉ g.rules)
    (filled : g.productions.get? rule.lhs ≠ some .empty) : g.removeRule rule.lhs rule.rhs = g := by
  unfold removeRule
  split
  · rfl
  · rename_i set found
    have same : set.erase rule.rhs = set := by
      refine OrderedSet.ext_mem fun rhs => ?_
      rw [OrderedSet.mem_erase]
      refine ⟨And.left, fun member => ⟨member, ?_⟩⟩
      rintro rfl
      exact missing (mem_rules.mpr (mem_productionsOf.mpr ⟨set, found, member⟩))
    have nonempty : ¬ set.isEmpty = true := by
      intro nothing
      refine filled (found.trans (congrArg some (OrderedSet.ext_mem fun rhs => ?_)))
      rw [← OrderedSet.mem_toList, List.isEmpty_iff.mp nothing]
      simp
    have kept : g.productions.insert rule.lhs set = g.productions := by
      refine OrderedMap.ext_get? fun key => ?_
      rw [OrderedMap.get?_insert]
      split
      · rename_i atKey
        rw [atKey, found]
      · rfl
    simp only [same, if_neg nonempty, kept]

theorem removeProduction_of_fault {lhs : Char} {rhs : String} {fault : Fault}
    (failed : (g.removeProduction lhs rhs).fault? = some fault) :
    (∃ rule, g.parseRule lhs rhs = .ok rule ∧ rule ∉ g.rules ∧
      (g.removeProduction lhs rhs).grammar = g.removeRule rule.lhs rule.rhs) ∨
      (∀ rule, g.parseRule lhs rhs ≠ .ok rule) ∧ (g.removeProduction lhs rhs).grammar = g := by
  unfold removeProduction at failed ⊢
  cases parsed : g.parseRule lhs rhs with
  | error reason =>
    right
    exact ⟨by simp, rfl⟩
  | ok rule =>
    left
    by_cases present : rule ∈ g.rules
    · simp [parsed, present, Change.accept, Change.fault?] at failed
    · exact ⟨rule, rfl, present, by simp [present, Change.refuse]⟩

/-! ### All edits -/

theorem apply_removeProduction_of_fault {lhs : Char} {rhs : String} {fault : Fault}
    (failed : (Edit.removeProduction lhs rhs).fault? g = some fault) :
    (∀ s, ¬ (Edit.removeProduction lhs rhs).MeetsEmptySet g s) ∧
        (Edit.removeProduction lhs rhs).apply g = g ∨
      ∃ s, (Edit.removeProduction lhs rhs).MeetsEmptySet g s ∧
        (Edit.removeProduction lhs rhs).apply g = { g with productions := g.productions.erase s } := by
  rw [Edit.apply]
  rcases removeProduction_of_fault failed with ⟨⟨s, body⟩, parsed, missing, result⟩ | ⟨refused, result⟩
  · rw [result]
    by_cases empty : g.productions.get? s = some .empty
    · exact .inr ⟨s, ⟨lhs, rhs, body, rfl, parsed, empty⟩, removeRule_of_empty empty body⟩
    · refine .inl ⟨?_, removeRule_of_missing missing empty⟩
      rintro _ ⟨_, _, _, same, again, found⟩
      cases same
      rw [parsed] at again
      cases again
      exact empty found
  · refine .inl ⟨?_, result⟩
    rintro s ⟨_, _, body, same, parsed, _⟩
    cases same
    exact refused ⟨s, body⟩ parsed

theorem apply_of_fault {edit : Edit} {fault : Fault} (failed : edit.fault? g = some fault)
    (other : ∀ lhs rhs, edit ≠ .removeProduction lhs rhs) : edit.apply g = g := by
  cases edit with
  | clear | removeSelfRules | removeEpsilonRules | removeUnitRules => cases failed
  | addNonterminal c => exact safe_addSymbol g c .nonterminal fault failed
  | addTerminal c => exact safe_addSymbol g c .terminal fault failed
  | removeNonterminal c => exact safe_removeSymbol g c .nonterminal fault failed
  | removeTerminal c => exact safe_removeSymbol g c .terminal fault failed
  | setStart c => exact safe_setStart g c fault failed
  | addProduction lhs rhs => exact safe_addProduction g lhs rhs fault failed
  | removeProduction lhs rhs => exact absurd rfl (other lhs rhs)
  | removeUselessSymbols => exact safe_removeUselessSymbols g fault failed
  | normalize => exact safe_normalize g fault failed
  | toChomsky => exact safe_toChomsky g fault failed

theorem fault_cases {edit : Edit} {fault : Fault} (failed : edit.fault? g = some fault) :
    (∀ s, ¬ edit.MeetsEmptySet g s) ∧ edit.apply g = g ∨
      ∃ s, edit.MeetsEmptySet g s ∧ edit.apply g = { g with productions := g.productions.erase s } := by
  by_cases removal : ∃ lhs rhs, edit = .removeProduction lhs rhs
  · obtain ⟨lhs, rhs, rfl⟩ := removal
    exact apply_removeProduction_of_fault failed
  · have other (lhs : Char) (rhs : String) : edit ≠ .removeProduction lhs rhs :=
      fun same => removal ⟨lhs, rhs, same⟩
    refine .inl ⟨?_, apply_of_fault failed other⟩
    rintro s ⟨lhs, rhs, _, same, _⟩
    exact other lhs rhs same

theorem agrees_self (g : Grammar) : g.agrees g = true := by
  have words (bits : PackedBits) : bits.agrees bits = true := by
    obtain ⟨words, width⟩ := bits
    simp only [PackedBits.agrees, decide_true, Bool.true_and]
    induction words with
    | nil => rfl
    | cons word rest ih => simp [ih]
  simp [agrees, SymbolSet.agrees, words]

/-- A failed edit leaves the grammar as it was, unless it is to remove a production of a
symbol whose production set is empty: then this set is dropped, and nothing else. So
nothing changes in a grammar without empty sets. -/
theorem failed_edit_keeps_grammar {edit : Edit} {fault : Fault} (failed : edit.fault? g = some fault) :
    ((edit.apply g).agrees g = true ↔ ∀ s, ¬ edit.MeetsEmptySet g s) ∧
      (edit.apply g = g ∨ ∃ s, edit.MeetsEmptySet g s ∧
        edit.apply g = { g with productions := g.productions.erase s }) ∧
        (g.Pruned → edit.apply g = g) := by
  rcases fault_cases failed with ⟨other, same⟩ | ⟨s, meets, dropped⟩
  · rw [same]
    exact ⟨iff_of_true g.agrees_self other, .inl rfl, fun _ => rfl⟩
  · have empty : g.productions.get? s = some .empty := by
      obtain ⟨_, _, _, _, _, found⟩ := meets
      exact found
    refine ⟨iff_of_false ?_ fun other => other s meets, .inr ⟨s, meets, dropped⟩, fun pruned => ?_⟩
    · -- the set that was dropped is missed
      intro still
      rw [dropped, agrees] at still
      simp only [Bool.and_eq_true, decide_eq_true_eq] at still
      have found : (g.productions.erase s).get? s = g.productions.get? s := by rw [still.1.2]
      simp [empty] at found
    · obtain ⟨rhs, member⟩ := pruned s _ empty
      exact absurd member OrderedSet.not_mem_empty

/-- The symbol `S` is declared and has an empty production set. -/
def hollow : Grammar where
  nonterminals := .ofList [⟨28⟩]
  terminals := .empty
  productions := .ofList [(⟨28⟩, .empty)]
  start := some ⟨28⟩

theorem failed_edit_keeps_hollow :
    (Edit.addProduction 'S' "x").fault? hollow = some (.foreignSymbol 'x' "x") ∧
      (Edit.addProduction 'S' "x").apply hollow = hollow ∧
        (Edit.removeProduction 'S' "b").fault? balanced = some (.missing 'S' "b") ∧
          (Edit.removeProduction 'S' "b").apply balanced = balanced := by
  have refused : (Edit.addProduction 'S' "x").fault? hollow = some (.foreignSymbol 'x' "x") := by
    decide +kernel
  have missing : (Edit.removeProduction 'S' "b").fault? balanced = some (.missing 'S' "b") := by
    decide +kernel
  refine ⟨refused, (failed_edit_keeps_grammar refused).2.1.resolve_right ?_, missing,
    (failed_edit_keeps_grammar missing).2.2 valid_balanced.pruned⟩
  rintro ⟨_, ⟨_, _, _, impossible, _⟩, _⟩
  cases impossible

/-- The grammar can be read from a document, and the failed removal changes it. -/
theorem failed_removal_changes_hollow :
    ofJsonText? hollow.toJsonText = some hollow ∧
      (Edit.removeProduction 'S' "l").fault? hollow = some (.missing 'S' "l") ∧
        ((Edit.removeProduction 'S' "l").apply hollow).agrees hollow = false := by
  refine ⟨?_, by decide +kernel, by decide +kernel⟩
  exact Json.decode_text hollow.plain_toJson (ofJson?_toJson (SymbolSet.storedIn_of_blank rfl)
    (SymbolSet.storedIn_of_blank rfl) (by decide))

end Grammar

end ContextFree
