import ContextFree.Proofs.Reading
import ContextFree.Proofs.Validity

/-! Grammars that derive what another grammar derives, in other symbols.

Every symbol means a form of the base grammar: an old symbol itself or a form it
derives, a new nonterminal the symbols it was introduced for. The rules of the
grammar are derivations of the base in this meaning, and the rules of the base
are derivations of the grammar.
-/

set_option autoImplicit false

namespace ContextFree

/-- What the symbols of one grammar mean in another one. -/
abbrev Meaning := Symbol → List Symbol

namespace Grammar

variable {g other base : Grammar} {meaning : Meaning}

/-! ### Derivations under a meaning -/

theorem Derives.translate (meaning : Meaning)
    (sound : ∀ rule ∈ g.rules, base.Derives (meaning rule.lhs) (rule.rhs.toList.flatMap meaning))
    {first last : List Symbol} (derives : g.Derives first last) :
    base.Derives (first.flatMap meaning) (last.flatMap meaning) := by
  induction derives with
  | refl form => exact .refl _
  | step expands _ ih =>
    cases expands with
    | @applied rule left right member =>
      -- the rule is a derivation of the base between what stands left and right of it
      refine Derives.trans ?_ ih
      simp only [List.flatMap_append, List.flatMap_cons]
      exact ((sound rule member).append_right _).append_left _

theorem Derives.simulate (follows : ∀ rule ∈ g.rules, other.Derives [rule.lhs] rule.rhs.toList)
    {first last : List Symbol} (derives : g.Derives first last) : other.Derives first last := by
  have sound : ∀ rule ∈ g.rules, other.Derives [rule.lhs] (rule.rhs.toList.flatMap fun s => [s]) := by
    intro rule member
    rw [List.flatMap_singleton']
    exact follows rule member
  have translated := derives.translate (fun s => [s]) sound
  rwa [List.flatMap_singleton', List.flatMap_singleton'] at translated

theorem Derives.of_rules_subset (subset : ∀ rule ∈ g.rules, rule ∈ other.rules)
    {first last : List Symbol} (derives : g.Derives first last) : other.Derives first last :=
  derives.simulate fun rule member => .of_rule (subset rule member)

theorem Derives.pointwise {first second : Meaning} {form : List Symbol}
    (derives : ∀ s ∈ form, g.Derives (first s) (second s)) :
    g.Derives (form.flatMap first) (form.flatMap second) := by
  induction form with
  | nil => exact .refl []
  | cons s rest ih =>
    have tail := ih fun t inside => derives t (List.mem_cons_of_mem s inside)
    exact (derives s List.mem_cons_self).append tail

theorem Derives.flatMap {form : List Symbol} (derives : ∀ s ∈ form, g.Derives [s] (meaning s)) :
    g.Derives form (form.flatMap meaning) := by
  have parted : g.Derives (form.flatMap fun s => [s]) (form.flatMap meaning) := .pointwise derives
  rwa [List.flatMap_singleton'] at parted

theorem flatMap_congr {other : Meaning} {form : List Symbol}
    (same : ∀ s ∈ form, meaning s = other s) : form.flatMap meaning = form.flatMap other := by
  induction form with
  | nil => rfl
  | cons s rest ih =>
    rw [List.flatMap_cons, List.flatMap_cons, same s List.mem_cons_self,
      ih fun t inside => same t (List.mem_cons_of_mem s inside)]

/-- The grammar with its rules of at most so many symbols. -/
def upTo (g : Grammar) (bound : Nat) : Grammar :=
  g.retain fun _ rhs => decide (rhs.length ≤ bound)

theorem mem_rules_upTo {bound : Nat} {rule : Rule} :
    rule ∈ (g.upTo bound).rules ↔ rule ∈ g.rules ∧ rule.rhs.length ≤ bound := by
  rw [upTo, mem_rules_retain, decide_eq_true_eq]

theorem Derives.of_upTo {bound : Nat} {first last : List Symbol}
    (derives : (g.upTo bound).Derives first last) : g.Derives first last :=
  derives.of_rules_subset fun _ member => (mem_rules_upTo.mp member).1

/-- The grammar derives what the base derives, in the given meaning. -/
structure Simulates (base : Grammar) (meaning : Meaning) (g : Grammar) : Prop where
  terminals : g.terminals = base.terminals
  start : g.start = base.start
  nonterminals : ∀ s ∈ base.nonterminals, s ∈ g.nonterminals
  terminal_meaning : ∀ t ∈ base.terminals, meaning t = [t]
  old_meaning : ∀ s ∈ base.nonterminals, base.Derives [s] (meaning s)
  sound : ∀ rule ∈ g.rules, base.Derives (meaning rule.lhs) (rule.rhs.toList.flatMap meaning)
  complete : ∀ rule ∈ base.rules, g.Derives [rule.lhs] rule.rhs.toList

theorem Simulates.symbols (simulates : Simulates base meaning g) {s : Symbol} (declared : s ∈ base.symbols) :
    s ∈ g.symbols := by
  rw [mem_symbols] at declared ⊢
  rw [simulates.terminals]
  exact declared.imp_left (simulates.nonterminals s)

theorem Simulates.generates_iff (simulates : Simulates base meaning g) {s : Symbol}
    (declared : s ∈ base.symbols) {word : List Symbol} :
    g.Generates s word ↔ base.Generates s word := by
  constructor
  · intro ⟨derives, final⟩
    rw [simulates.terminals] at final
    have translated := derives.translate meaning simulates.sound
    -- terminals mean themselves, so the word is not changed by the translation
    have itself : word.flatMap meaning = word := by
      rw [flatMap_congr fun t inside => simulates.terminal_meaning t (final t inside),
        List.flatMap_singleton']
    have first : base.Derives [s] (meaning s) := by
      rcases mem_symbols.mp declared with nonterminal | terminal
      · exact simulates.old_meaning s nonterminal
      · rw [simulates.terminal_meaning s terminal]
        exact .refl [s]
    rw [List.flatMap_singleton, itself] at translated
    exact ⟨first.trans translated, final⟩
  · intro ⟨derives, final⟩
    refine ⟨derives.simulate simulates.complete, ?_⟩
    rw [simulates.terminals]
    exact final

end Grammar

end ContextFree
