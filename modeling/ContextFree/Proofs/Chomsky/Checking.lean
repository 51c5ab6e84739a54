import ContextFree.Chomsky.Form
import ContextFree.Proofs.Parsing

/-! A production is checked as a text like a rule is checked as it stands.

The texts that are read are those printed for right-hand sides over declared symbols,
and each of them is printed for one right-hand side. So a check of a text fails in one of
two ways: no rule is written there, or the rule is not in normal form.
-/

set_option autoImplicit false

namespace ContextFree

namespace Grammar

variable {g : Grammar}

/-- The right-hand side is the empty string or a filled sequence of declared symbols. -/
def Declares (g : Grammar) (rhs : Rhs) : Prop :=
  rhs = .epsilon ∨ ∃ symbols, symbols ≠ [] ∧ rhs = .sequence symbols ∧
    ∀ s ∈ symbols, s ∈ g.nonterminals ∨ s ∈ g.terminals

/-- One terminal, two nonterminals, or the empty string for the start symbol. -/
def ChomskyShape (g : Grammar) (lhs : Symbol) (rhs : Rhs) : Prop :=
  (∃ t ∈ g.terminals, rhs = .sequence [t]) ∨
    (∃ left ∈ g.nonterminals, ∃ right ∈ g.nonterminals, rhs = .sequence [left, right]) ∨
      (rhs = .epsilon ∧ g.start = some lhs)

theorem declares_iff {rhs : Rhs} :
    g.Declares rhs ↔ rhs ≠ .sequence [] ∧ ∀ s ∈ rhs.toList, s ∈ g.symbols := by
  cases rhs with
  | epsilon => simp [Declares, Rhs.toList]
  | sequence symbols => simp [Declares, Rhs.toList]

theorem isChomskyRule_iff {rule : Rule} (proper : rule.rhs ≠ .sequence []) :
    g.isChomskyRule rule = true ↔ g.ChomskyShape rule.lhs rule.rhs := by
  obtain ⟨lhs, _ | _ | ⟨first, _ | ⟨second, _ | ⟨third, rest⟩⟩⟩⟩ := rule
  · simp [isChomskyRule, ChomskyShape, Rhs.toList]
  · exact absurd rfl proper
  · simp [isChomskyRule, ChomskyShape, Rhs.toList, SymbolSet.mem_iff]
  · simp [isChomskyRule, ChomskyShape, Rhs.toList, SymbolSet.mem_iff]
  · simp [isChomskyRule, ChomskyShape, Rhs.toList]

/-! ### Texts of rules -/

theorem text_eq_iff {text : String} {rhs : Rhs} : text = rhs.text ↔ text.toList = rhs.chars := by
  rw [Rhs.text, ← String.toList_inj, String.toList_ofList]

theorem parseRhs_eq_ok_iff (valid : g.Valid) {text : String} {rhs : Rhs} :
    g.parseRhs text = .ok rhs ↔ g.Declares rhs ∧ text = rhs.text := by
  rw [parseRhs_eq_ok valid, declares_iff, text_eq_iff, and_comm]

theorem parseRule_eq_ok_iff (valid : g.Valid) {c : Char} {text : String} {rule : Rule} :
    g.parseRule c text = .ok rule ↔ (rule.lhs ∈ g.nonterminals ∧ c = rule.lhs.toChar) ∧
      g.Declares rule.rhs ∧ text = rule.rhs.text := by
  rw [parseRule_eq_ok valid, declares_iff, text_eq_iff]
  constructor
  · rintro ⟨letter, spelled, declared, proper, known⟩
    exact ⟨⟨declared, letter⟩, ⟨proper, known⟩, spelled⟩
  · rintro ⟨⟨declared, letter⟩, ⟨proper, known⟩, spelled⟩
    exact ⟨letter, spelled, declared, proper, known⟩

theorem kind_of_readSymbols {text : String} {chars : List Char} {fault : Fault}
    (refused : g.readSymbols text chars = .error fault) : fault.kind = .validation := by
  induction chars with
  | nil => cases refused
  | cons c rest ih =>
    rw [readSymbols] at refused
    split at refused
    · exact ih (map_eq_error refused)
    · cases refused
      rfl

theorem kind_of_parseRhs {text : String} {fault : Fault} (refused : g.parseRhs text = .error fault) :
    fault.kind = .validation := by
  unfold parseRhs at refused
  split at refused
  · cases refused
  · cases refused
    rfl
  · exact kind_of_readSymbols (map_eq_error refused)

theorem kind_of_defined {c : Char} {kind : Kind} {fault : Fault}
    (refused : g.defined c kind = .error fault) : fault.kind = .validation := by
  unfold defined at refused
  split at refused
  · cases refused
  · cases refused
    rfl

/-- A text that is no rule of the grammar is a fault of the arguments. -/
theorem kind_of_parseRule {c : Char} {text : String} {fault : Fault}
    (refused : g.parseRule c text = .error fault) : fault.kind = .validation := by
  rcases bind_eq_error refused with undefined | ⟨lhs, _, refused⟩
  · exact kind_of_defined undefined
  · rcases bind_eq_error refused with unread | ⟨rhs, _, returned⟩
    · exact kind_of_parseRhs unread
    · cases returned

/-! ### The check of a text -/

section Check

variable (valid : g.Valid) {c : Char} {text : String}
include valid

theorem checkChomskyRule_of_rule {rule : Rule} (parsed : g.parseRule c text = .ok rule) :
    (g.ChomskyShape rule.lhs rule.rhs ∧ g.checkChomskyRule c text = .ok ()) ∨
      (¬ g.ChomskyShape rule.lhs rule.rhs ∧
        g.checkChomskyRule c text = .error (.notChomskyRule c text)) := by
  have shape := isChomskyRule_iff (g := g) ((parseRule_eq_ok valid).mp parsed).2.2.proper
  simp only [checkChomskyRule, parsed]
  by_cases passes : g.isChomskyRule rule = true
  · exact .inl ⟨shape.mp passes, if_pos passes⟩
  · exact .inr ⟨mt shape.mpr passes, if_neg passes⟩

theorem checkChomskyRule_eq_ok {rule : Rule} (parsed : g.parseRule c text = .ok rule) :
    g.checkChomskyRule c text = .ok () ↔ g.ChomskyShape rule.lhs rule.rhs := by
  rcases checkChomskyRule_of_rule valid parsed with ⟨shape, answer⟩ | ⟨other, answer⟩
  · exact iff_of_true answer shape
  · rw [answer]
    exact iff_of_false nofun other

/-- A rule of another shape is a fault of the grammar's state. -/
theorem checkChomskyRule_precondition {rule : Rule} (parsed : g.parseRule c text = .ok rule) :
    (∃ fault : Fault, fault.kind = .precondition ∧ g.checkChomskyRule c text = .error fault) ↔
      ¬ g.ChomskyShape rule.lhs rule.rhs := by
  rcases checkChomskyRule_of_rule valid parsed with ⟨shape, answer⟩ | ⟨other, answer⟩
  · refine iff_of_false ?_ (not_not_intro shape)
    rintro ⟨fault, _, refused⟩
    cases answer.symm.trans refused
  · exact iff_of_true ⟨_, rfl, answer⟩ other

theorem checkChomskyRule_validation :
    (∃ fault : Fault, fault.kind = .validation ∧ g.checkChomskyRule c text = .error fault) ↔
      ∀ rule, g.parseRule c text ≠ .ok rule := by
  cases parsed : g.parseRule c text with
  | error fault =>
    have answer : g.checkChomskyRule c text = .error fault := by simp only [checkChomskyRule, parsed]
    exact iff_of_true ⟨fault, kind_of_parseRule parsed, answer⟩ nofun
  | ok rule =>
    refine iff_of_false ?_ fun none_parsed => none_parsed rule rfl
    rintro ⟨fault, kind, refused⟩
    rcases checkChomskyRule_of_rule valid parsed with ⟨_, answer⟩ | ⟨_, answer⟩
    · cases answer.symm.trans refused
    · cases answer.symm.trans refused
      cases kind

end Check

/-- Texts are read if they are printed for right-hand sides over declared symbols. A check
of a text fails for its arguments if it is printed for none of them, or if the character
is no nonterminal; otherwise it passes rules in normal form and fails for the others. All
rules pass if the grammar is in normal form. -/
theorem checks_read_texts (valid : g.Valid) :
    (∀ rhs, g.Declares rhs → g.parseRhs rhs.text = .ok rhs) ∧
    (∀ text rhs, g.parseRhs text = .ok rhs → g.Declares rhs ∧ text = rhs.text) ∧
    (∀ c text,
      ((∃ fault : Fault, fault.kind = .validation ∧ g.checkChomskyRule c text = .error fault) ↔
        (∀ lhs ∈ g.nonterminals, c ≠ lhs.toChar) ∨ ∀ rhs, g.Declares rhs → text ≠ rhs.text) ∧
      ∀ lhs ∈ g.nonterminals, c = lhs.toChar → ∀ rhs, g.Declares rhs → text = rhs.text →
        (g.checkChomskyRule c text = .ok () ↔ g.ChomskyShape lhs rhs) ∧
        ((∃ fault : Fault, fault.kind = .precondition ∧ g.checkChomskyRule c text = .error fault) ↔
          ¬ g.ChomskyShape lhs rhs)) ∧
    (g.isChomsky = true ↔
      ∀ rule ∈ g.rules, g.checkChomskyRule rule.lhs.toChar rule.rhs.text = .ok ()) := by
  refine ⟨fun rhs declares => ?_, fun text rhs => (parseRhs_eq_ok_iff valid).mp, fun c text => ⟨?_, ?_⟩, ?_⟩
  · exact (parseRhs_eq_ok_iff valid).mpr ⟨declares, rfl⟩
  · rw [checkChomskyRule_validation valid]
    simp only [ne_eq, parseRule_eq_ok_iff valid]
    constructor
    · intro unwritten
      by_contra written
      push Not at written
      obtain ⟨⟨lhs, declared, letter⟩, rhs, declares, spelled⟩ := written
      exact unwritten ⟨lhs, rhs⟩ ⟨⟨declared, letter⟩, declares, spelled⟩
    · rintro (other | unspelled) rule ⟨⟨declared, letter⟩, declares, spelled⟩
      · exact other rule.lhs declared letter
      · exact unspelled rule.rhs declares spelled
  · intro lhs declared letter rhs declares spelled
    have parsed : g.parseRule c text = .ok ⟨lhs, rhs⟩ :=
      (parseRule_eq_ok_iff valid).mpr ⟨⟨declared, letter⟩, declares, spelled⟩
    exact ⟨checkChomskyRule_eq_ok valid parsed, checkChomskyRule_precondition valid parsed⟩
  · rw [isChomsky, List.all_eq_true]
    refine forall₂_congr fun rule member => ?_
    have admits := valid.admits member
    have parsed : g.parseRule rule.lhs.toChar rule.rhs.text = .ok rule :=
      (parseRule_eq_ok valid).mpr ⟨rfl, text_eq_iff.mp rfl, admits⟩
    rw [checkChomskyRule_eq_ok valid parsed, isChomskyRule_iff admits.proper]

/-- Of the rules of `balanced`, the epsilon rule passes as a text and the long rule does not. -/
theorem checks_read_balanced :
    balanced.Valid ∧ balanced.parseRhs "aSb" = .ok (.sequence [⟨36⟩, ⟨28⟩, ⟨37⟩]) ∧
      balanced.checkChomskyRule 'S' "l" = .ok () ∧ balanced.isChomsky = false ∧
        (∃ fault : Fault, fault.kind = .precondition ∧ balanced.checkChomskyRule 'S' "aSb" = .error fault) ∧
          ∃ fault : Fault, fault.kind = .validation ∧ balanced.checkChomskyRule 'a' "l" = .error fault := by
  obtain ⟨reads, _, checks, whole⟩ := checks_read_texts valid_balanced
  have long : balanced.Declares (.sequence [⟨36⟩, ⟨28⟩, ⟨37⟩]) := declares_iff.mpr (by decide +kernel)
  have start : (⟨28⟩ : Symbol) ∈ balanced.nonterminals := by decide +kernel
  have refused := ((checks 'S' "aSb").2 ⟨28⟩ start (by decide) _ long (by decide +kernel)).2.mpr
    (by simp [ChomskyShape])
  refine ⟨valid_balanced, reads _ long, ?_, ?_, refused, (checks 'a' "l").1.mpr (.inl fun lhs declared same => ?_)⟩
  · exact ((checks 'S' "l").2 ⟨28⟩ start (by decide) .epsilon (.inl rfl) rfl).1.mpr (.inr (.inr ⟨rfl, rfl⟩))
  · rw [← Bool.not_eq_true]
    intro chomsky
    obtain ⟨fault, _, answer⟩ := refused
    have member : (⟨⟨28⟩, .sequence [⟨36⟩, ⟨28⟩, ⟨37⟩]⟩ : Rule) ∈ balanced.rules := by decide +kernel
    cases answer.symm.trans (whole.mp chomsky _ member)
  · have upper := valid_balanced.nonterminal_case lhs declared
    rw [← same] at upper
    cases upper

end Grammar

end ContextFree
