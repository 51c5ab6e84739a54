import ContextFree.Derivation

/-! Forms read under an interpretation of the symbols.

A reading gives every symbol a set of words, and a form then spells the words
put together from words of its symbols. What a grammar generates is the least
reading that holds the terminals and follows the rules, so a statement about
all generated words is proved by giving a reading that follows the rules.
-/

set_option autoImplicit false

namespace ContextFree

/-- The words of each symbol. -/
abbrev Reading := Symbol → List Symbol → Prop

/-- The word is put together from one word for each symbol of the form. -/
inductive Spells (reading : Reading) : List Symbol → List Symbol → Prop where
  | nil : Spells reading [] []
  | cons {s : Symbol} {rest first second : List Symbol} : reading s first →
      Spells reading rest second → Spells reading (s :: rest) (first ++ second)

namespace Spells

variable {reading other : Reading}

theorem nil_iff {word : List Symbol} : Spells reading [] word ↔ word = [] := by
  constructor
  · intro spells
    cases spells
    rfl
  · rintro rfl
    exact .nil

theorem cons_iff {s : Symbol} {rest word : List Symbol} :
    Spells reading (s :: rest) word ↔
      ∃ first second, word = first ++ second ∧ reading s first ∧ Spells reading rest second := by
  constructor
  · intro spells
    cases spells with
    | cons head tail => exact ⟨_, _, rfl, head, tail⟩
  · rintro ⟨first, second, rfl, head, tail⟩
    exact .cons head tail

theorem singleton_iff {s : Symbol} {word : List Symbol} :
    Spells reading [s] word ↔ reading s word := by
  constructor
  · intro spells
    obtain ⟨first, second, rfl, head, tail⟩ := cons_iff.mp spells
    rw [nil_iff.mp tail, List.append_nil]
    exact head
  · intro head
    have spells := Spells.cons head (.nil : Spells reading [] [])
    rwa [List.append_nil] at spells

theorem append {left right first second : List Symbol} (front : Spells reading left first)
    (back : Spells reading right second) : Spells reading (left ++ right) (first ++ second) := by
  induction front with
  | nil => exact back
  | cons head _ ih =>
    rw [List.append_assoc]
    exact .cons head ih

theorem of_append {left right word : List Symbol} (spells : Spells reading (left ++ right) word) :
    ∃ first second, word = first ++ second ∧ Spells reading left first ∧
      Spells reading right second := by
  induction left generalizing word with
  | nil => exact ⟨[], word, rfl, .nil, spells⟩
  | cons s rest ih =>
    obtain ⟨head, tail, rfl, reads, spells⟩ := cons_iff.mp spells
    obtain ⟨first, second, rfl, front, back⟩ := ih spells
    exact ⟨head ++ first, second, by rw [List.append_assoc], .cons reads front, back⟩

theorem mono {form word : List Symbol} (spells : Spells reading form word)
    (weaken : ∀ s ∈ form, ∀ part, reading s part → other s part) : Spells other form word := by
  induction spells with
  | nil => exact .nil
  | cons head _ ih =>
    refine .cons (weaken _ List.mem_cons_self _ head) (ih fun s member => ?_)
    exact weaken s (List.mem_cons_of_mem _ member)

theorem of_forall_nil {form : List Symbol} (all : ∀ s ∈ form, reading s []) :
    Spells reading form [] := by
  induction form with
  | nil => exact .nil
  | cons s rest ih =>
    have tail := ih fun t member => all t (List.mem_cons_of_mem _ member)
    exact .cons (all s List.mem_cons_self) tail

theorem forall_nil {form : List Symbol} (spells : Spells reading form []) :
    ∀ s ∈ form, reading s [] := by
  generalize empty : ([] : List Symbol) = word at spells
  induction spells with
  | nil =>
    intro s member
    cases member
  | cons head _ ih =>
    obtain ⟨rfl, rfl⟩ := List.append_eq_nil_iff.mp empty.symm
    intro s member
    rcases List.mem_cons.mp member with rfl | member
    · exact head
    · exact ih rfl s member

theorem exists_of_mem {form word : List Symbol} (spells : Spells reading form word) {s : Symbol}
    (member : s ∈ form) : ∃ part, reading s part ∧ ∀ t ∈ part, t ∈ word := by
  induction spells with
  | nil => cases member
  | @cons head rest first second reads _ ih =>
    rcases List.mem_cons.mp member with rfl | member
    · exact ⟨first, reads, fun t inside => List.mem_append_left second inside⟩
    · obtain ⟨part, reads, inside⟩ := ih member
      exact ⟨part, reads, fun t found => List.mem_append_right first (inside t found)⟩

theorem exists_of_forall {form : List Symbol} (all : ∀ s ∈ form, ∃ part, reading s part) :
    ∃ word, Spells reading form word := by
  induction form with
  | nil => exact ⟨[], .nil⟩
  | cons s rest ih =>
    obtain ⟨first, reads⟩ := all s List.mem_cons_self
    obtain ⟨second, spells⟩ := ih fun t member => all t (List.mem_cons_of_mem _ member)
    exact ⟨first ++ second, .cons reads spells⟩

end Spells

namespace Grammar

variable {g : Grammar}

/-- A derivation of terminals is read by every reading that follows the rules. -/
theorem Derives.spells (reading : Reading) {form word : List Symbol} (derives : g.Derives form word)
    (final : ∀ t ∈ word, t ∈ g.terminals) (terminal : ∀ t ∈ g.terminals, reading t [t])
    (follows : ∀ rule ∈ g.rules, ∀ part, Spells reading rule.rhs.toList part → reading rule.lhs part) :
    Spells reading form word := by
  induction derives with
  | refl form =>
    clear follows
    induction form with
    | nil => exact .nil
    | cons t rest ih =>
      have tail := ih fun s member => final s (List.mem_cons_of_mem _ member)
      exact .cons (terminal t (final t List.mem_cons_self)) tail
  | step expands _ ih =>
    cases expands with
    | @applied rule left right member =>
      -- the word is cut into three parts, and the rule reads the middle one
      obtain ⟨front, rest, rfl, before, spells⟩ := (ih final).of_append
      obtain ⟨middle, back, rfl, inner, after⟩ := spells.of_append
      exact before.append (.cons (follows rule member middle inner) after)

theorem Derives.of_spells {form word : List Symbol} (spells : Spells g.Generates form word) :
    g.Derives form word ∧ ∀ t ∈ word, t ∈ g.terminals := by
  induction spells with
  | nil => exact ⟨.refl [], fun t member => absurd member List.not_mem_nil⟩
  | cons head _ ih =>
    refine ⟨Derives.append head.1 ih.1, fun t member => ?_⟩
    rcases List.mem_append.mp member with inside | inside
    · exact head.2 t inside
    · exact ih.2 t inside

theorem Generates.of_terminal {t : Symbol} (member : t ∈ g.terminals) : g.Generates t [t] := by
  refine ⟨.refl [t], fun s inside => ?_⟩
  rwa [List.mem_singleton.mp inside]

theorem Generates.of_rule {lhs : Symbol} {rhs : Rhs} {word : List Symbol}
    (member : (⟨lhs, rhs⟩ : Rule) ∈ g.rules) (spells : Spells g.Generates rhs.toList word) :
    g.Generates lhs word := by
  obtain ⟨derives, final⟩ := Derives.of_spells spells
  exact ⟨(Derives.of_rule member).trans derives, final⟩

/-- Generated words are in every reading that follows the rules. The words of a
right-hand side are known to be generated, too. -/
theorem Generates.induct (reading : Reading) (terminal : ∀ t ∈ g.terminals, reading t [t])
    (follows : ∀ rule ∈ g.rules, ∀ part,
      Spells (fun s word => g.Generates s word ∧ reading s word) rule.rhs.toList part →
        reading rule.lhs part)
    {s : Symbol} {word : List Symbol} (generates : g.Generates s word) : reading s word := by
  -- derivations are carried along, so that the reading may ask for them
  have both := generates.1.spells (fun s word => g.Generates s word ∧ reading s word) generates.2
    (fun t member => ⟨.of_terminal member, terminal t member⟩)
    fun rule member part spells =>
      ⟨.of_rule member (spells.mono fun _ _ _ => And.left), follows rule member part spells⟩
  exact (Spells.singleton_iff.mp both).2

theorem spells_generates_iff {form word : List Symbol} :
    Spells g.Generates form word ↔ g.Derives form word ∧ ∀ t ∈ word, t ∈ g.terminals := by
  constructor
  · exact Derives.of_spells
  · rintro ⟨derives, final⟩
    exact derives.spells g.Generates final (fun t => Generates.of_terminal)
      fun rule member part spells => .of_rule member spells

theorem generates_iff {s : Symbol} {word : List Symbol} :
    g.Generates s word ↔ (s ∈ g.terminals ∧ word = [s]) ∨
      ∃ rhs, (⟨s, rhs⟩ : Rule) ∈ g.rules ∧ Spells g.Generates rhs.toList word := by
  constructor
  · intro generates
    refine Generates.induct (fun s word => (s ∈ g.terminals ∧ word = [s]) ∨
      ∃ rhs, (⟨s, rhs⟩ : Rule) ∈ g.rules ∧ Spells g.Generates rhs.toList word) ?_ ?_ generates
    · intro t member
      exact .inl ⟨member, rfl⟩
    · intro rule member part spells
      exact .inr ⟨rule.rhs, member, spells.mono fun _ _ _ => And.left⟩
  · rintro (⟨member, rfl⟩ | ⟨rhs, member, spells⟩)
    · exact .of_terminal member
    · exact .of_rule member spells

theorem Generates.mono {other : Grammar} (terminals : ∀ t ∈ g.terminals, t ∈ other.terminals)
    (follows : ∀ rule ∈ g.rules, ∀ part,
      Spells other.Generates rule.rhs.toList part → other.Generates rule.lhs part)
    {s : Symbol} {word : List Symbol} (generates : g.Generates s word) : other.Generates s word := by
  refine Generates.induct other.Generates (fun t member => .of_terminal (terminals t member)) ?_
    generates
  intro rule member part spells
  exact follows rule member part (spells.mono fun _ _ _ => And.right)

theorem Generates.of_rules_subset {other : Grammar} (terminals : ∀ t ∈ g.terminals, t ∈ other.terminals)
    (rules : ∀ rule ∈ g.rules, rule ∈ other.rules) {s : Symbol} {word : List Symbol}
    (generates : g.Generates s word) : other.Generates s word :=
  generates.mono terminals fun rule member _ spells => .of_rule (rules rule member) spells

end Grammar

end ContextFree
