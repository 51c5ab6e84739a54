import ContextFree.Grammar.Basic

/-! Derivations in a grammar.

A form is a sequence of symbols. Applying a rule expands one occurrence of its
left-hand side, and a form of terminals alone is a derived word.
-/

set_option autoImplicit false

namespace ContextFree

namespace Grammar

inductive Expands (g : Grammar) : List Symbol → List Symbol → Prop where
  | applied {rule : Rule} (left right : List Symbol) : rule ∈ g.rules →
      Expands g (left ++ rule.lhs :: right) (left ++ (rule.rhs.toList ++ right))

inductive Derives (g : Grammar) : List Symbol → List Symbol → Prop where
  | refl (form : List Symbol) : Derives g form form
  | step {first second last : List Symbol} : Expands g first second → Derives g second last →
      Derives g first last

/-- The symbol derives the word, which has terminals only. -/
def Generates (g : Grammar) (s : Symbol) (word : List Symbol) : Prop :=
  g.Derives [s] word ∧ ∀ t ∈ word, t ∈ g.terminals

def InLanguage (g : Grammar) (word : List Symbol) : Prop :=
  ∃ start, g.start = some start ∧ g.Generates start word

variable {g : Grammar}

theorem Expands.append_left {first second : List Symbol} (front : List Symbol)
    (expands : g.Expands first second) : g.Expands (front ++ first) (front ++ second) := by
  cases expands with
  | applied left right member =>
    simpa only [List.append_assoc] using Expands.applied (front ++ left) right member

theorem Expands.append_right {first second : List Symbol} (back : List Symbol)
    (expands : g.Expands first second) : g.Expands (first ++ back) (second ++ back) := by
  cases expands with
  | applied left right member =>
    simpa only [List.append_assoc, List.cons_append] using Expands.applied left (right ++ back) member

theorem Derives.of_rule {rule : Rule} (member : rule ∈ g.rules) :
    g.Derives [rule.lhs] rule.rhs.toList := by
  simpa using Derives.step (Expands.applied [] [] member) (.refl _)

theorem Derives.trans {first second last : List Symbol} (start : g.Derives first second)
    (finish : g.Derives second last) : g.Derives first last := by
  induction start with
  | refl => exact finish
  | step expands _ ih => exact .step expands (ih finish)

theorem Derives.append_left {first last : List Symbol} (front : List Symbol)
    (derives : g.Derives first last) : g.Derives (front ++ first) (front ++ last) := by
  induction derives with
  | refl => exact .refl _
  | step expands _ ih => exact .step (expands.append_left front) ih

theorem Derives.append_right {first last : List Symbol} (back : List Symbol)
    (derives : g.Derives first last) : g.Derives (first ++ back) (last ++ back) := by
  induction derives with
  | refl => exact .refl _
  | step expands _ ih => exact .step (expands.append_right back) ih

theorem Derives.append {first last other final : List Symbol} (left : g.Derives first last)
    (right : g.Derives other final) : g.Derives (first ++ other) (last ++ final) :=
  (left.append_right other).trans (right.append_left last)

end Grammar

end ContextFree
