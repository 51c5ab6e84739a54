import ContextFree.Closure
import ContextFree.Proofs.Reading
import ContextFree.Proofs.Search
import ContextFree.Proofs.Validity
import Mathlib.Order.Bounds.Defs

/-! Closures under the rules, and the two that the eliminations ask for.

The closure of a seed is the least set that holds it and is closed under the
rules. Nullable symbols are those that generate the empty word, productive ones
those that generate any word.
-/

set_option autoImplicit false

namespace ContextFree

open SymbolSet (Grown)

theorem within_iff {rhs : Rhs} {set : SymbolSet} :
    rhs.within set = true ↔ ∀ s ∈ rhs.toList, s ∈ set := by
  simp [Rhs.within, SymbolSet.mem_iff]

theorem RuleIndex.gain_eq_some {index : RuleIndex} {set : SymbolSet} {rule : Rule} {t : Symbol} :
    index.lead.gain set rule = some t ↔ (∀ s ∈ rule.rhs.toList, s ∈ set) ∧ rule.lhs = t := by
  simp [lead, within_iff]

theorem RuleIndex.mem_rulesWith_ofRules {rules : List Rule} {s : Symbol} {rule : Rule} :
    rule ∈ (ofRules rules).lead.items s ↔ rule ∈ rules ∧ s ∈ rule.rhs.toList := by
  rw [lead, mem_rulesWith, ofRules, mem_filing]

namespace Grammar

variable {g : Grammar} {seed : SymbolSet}

def closing (seed : SymbolSet) : Search :=
  ⟨seed, seed.listing.reverse ++ []⟩

theorem covered_closing (g : Grammar) (seed : SymbolSet) :
    Search.Covered (RuleIndex.ofRules g.rules).lead (closing seed) [] := by
  apply Search.covered_of_pending
  intro s member
  simp only [closing, SymbolSet.listing, List.append_nil, List.mem_reverse, List.mem_append]
  exact .inl (SymbolSet.mem_toList.mpr member)

theorem grown_closure (g : Grammar) (seed : SymbolSet) : Grown seed (g.closure seed) :=
  Search.grown_run (RuleIndex.ofRules g.rules).lead (closing seed)

theorem mem_closure_of_within {rule : Rule} (member : rule ∈ g.rules) (filled : rule.rhs.toList ≠ [])
    (within : ∀ s ∈ rule.rhs.toList, s ∈ g.closure seed) : rule.lhs ∈ g.closure seed := by
  obtain ⟨s, inside⟩ := List.exists_mem_of_ne_nil _ filled
  exact Search.mem_run_of_gain (covered_closing g seed) (within s inside)
    (RuleIndex.mem_rulesWith_ofRules.mpr ⟨member, inside⟩)
    (RuleIndex.gain_eq_some.mpr ⟨within, rfl⟩)

/-- Every property that holds on the seed and passes from right to left holds on
the closure. -/
theorem closure_induct (motive : Symbol → Prop) (initial : ∀ s ∈ seed, motive s)
    (passes : ∀ rule ∈ g.rules, rule.rhs.toList ≠ [] → (∀ s ∈ rule.rhs.toList, motive s) →
      motive rule.lhs) : ∀ s ∈ g.closure seed, motive s := by
  have start : (closing seed).Within motive fun _ => True := ⟨initial, fun _ _ => trivial⟩
  refine (start.run (fun _ _ => trivial) ?_).found
  intro s _ rule member set t holds gained
  obtain ⟨listed, inside⟩ := RuleIndex.mem_rulesWith_ofRules.mp member
  obtain ⟨within, rfl⟩ := RuleIndex.gain_eq_some.mp gained
  exact passes rule listed (List.ne_nil_of_mem inside) fun u found => holds u (within u found)

/-- The set holds the seed, and the left-hand side of every rule whose right-hand side
is not empty and lies in the set. -/
def Closes (g : Grammar) (seed : SymbolSet) (closed : Set Symbol) : Prop :=
  (∀ s ∈ seed, s ∈ closed) ∧ ∀ rule ∈ g.rules, rule.rhs.toList ≠ [] →
    (∀ s ∈ rule.rhs.toList, s ∈ closed) → rule.lhs ∈ closed

/-- A run leaves nothing behind for the next one. -/
theorem run_ofGrammar (g : Grammar) (seed : SymbolSet) :
    (Propagation.ofGrammar g).run seed = (g.closure seed, Propagation.ofGrammar g) := by
  have emptied := Search.pending_run (RuleIndex.ofRules g.rules).lead (closing seed)
  refine Prod.ext rfl ?_
  simp only [Propagation.run, Propagation.ofGrammar, Propagation.mk.injEq, true_and]
  exact emptied

theorem runAll_ofGrammar (g : Grammar) (seeds : List SymbolSet) :
    (Propagation.ofGrammar g).runAll seeds = (seeds.map g.closure, Propagation.ofGrammar g) := by
  induction seeds with
  | nil => rfl
  | cons seed seeds ih => simp only [Propagation.runAll, run_ofGrammar, ih, List.map_cons]

/-- Run for one seed after the other, the same propagation gives each of them the least
set that holds the seed and is closed under the rules, in the frame of the seed. -/
theorem closures_least (g : Grammar) (seeds : List SymbolSet) :
    (Propagation.ofGrammar g).runAll seeds = (seeds.map g.closure, Propagation.ofGrammar g) ∧
      ∀ seed, (g.closure seed).frame = seed.frame ∧
        IsLeast {closed | g.Closes seed closed} {s | s ∈ g.closure seed} := by
  refine ⟨runAll_ofGrammar g seeds, fun seed => ⟨(grown_closure g seed).frame, ⟨?_, ?_⟩⟩⟩
  · exact ⟨(grown_closure g seed).subset, fun rule => mem_closure_of_within⟩
  · intro closed closes s member
    exact closure_induct (· ∈ closed) closes.1 closes.2 s member

theorem lhs_mem_closure (valid : g.Valid) {rule : Rule} (member : rule ∈ g.rules)
    (epsilon : rule.rhs = .epsilon → rule.lhs ∈ seed)
    (within : ∀ s ∈ rule.rhs.toList, s ∈ g.closure seed) : rule.lhs ∈ g.closure seed := by
  by_cases filled : rule.rhs.toList = []
  · have empty := Rhs.eq_epsilon_of_toList (valid.admits member).proper filled
    exact (grown_closure g seed).subset _ (epsilon empty)
  · exact mem_closure_of_within member filled within

theorem mem_epsilonLhs {s : Symbol} : s ∈ g.epsilonLhs ↔ (⟨s, .epsilon⟩ : Rule) ∈ g.rules := by
  simp only [epsilonLhs, List.mem_map, List.mem_filter, Rhs.isEpsilon_iff]
  constructor
  · rintro ⟨⟨lhs, rhs⟩, ⟨member, empty⟩, rfl⟩
    cases empty
    exact member
  · intro member
    exact ⟨⟨s, .epsilon⟩, ⟨member, rfl⟩, rfl⟩

theorem not_generates_of_no_rules (valid : g.Valid) (nothing : g.rules = []) {s : Symbol}
    (declared : s ∈ g.nonterminals) (word : List Symbol) : ¬ g.Generates s word := by
  intro generates
  rcases generates_iff.mp generates with ⟨terminal, _⟩ | ⟨rhs, member, _⟩
  · exact valid.not_terminal declared terminal
  · rw [nothing] at member
    cases member

theorem generates_nil_of_epsilon {s : Symbol} (member : (⟨s, .epsilon⟩ : Rule) ∈ g.rules) :
    g.Generates s [] :=
  .of_rule member .nil

theorem mem_nullable_iff (valid : g.Valid) {s : Symbol} : s ∈ g.nullable ↔ g.Generates s [] := by
  constructor
  · refine closure_induct (fun s => g.Generates s []) ?_ ?_ s
    · intro t member
      exact generates_nil_of_epsilon (mem_epsilonLhs.mp (SymbolSet.mem_ofList.mp member))
    · intro rule member _ all
      exact .of_rule member (.of_forall_nil all)
  · intro generates
    -- a rule that derives the empty word does so with all its symbols
    refine Generates.induct (fun s word => word = [] → s ∈ g.nullable) ?_ ?_ generates rfl
    · intro t _ impossible
      cases impossible
    · rintro rule member _ spells rfl
      refine lhs_mem_closure valid member ?_ fun t inside => (spells.forall_nil t inside).2 rfl
      intro empty
      rw [SymbolSet.mem_ofList, mem_epsilonLhs, ← empty]
      exact member

theorem mem_productive_iff (valid : g.Valid) {s : Symbol} :
    s ∈ g.productive ↔ ∃ word, g.Generates s word := by
  constructor
  · refine closure_induct (fun s => ∃ word, g.Generates s word) ?_ ?_ s
    · intro t member
      rcases SymbolSet.mem_foldl_put.mp member with terminal | lhs
      · exact ⟨[t], .of_terminal terminal⟩
      · exact ⟨[], generates_nil_of_epsilon (mem_epsilonLhs.mp lhs)⟩
    · intro rule member _ all
      obtain ⟨word, spells⟩ := Spells.exists_of_forall all
      exact ⟨word, .of_rule member spells⟩
  · rintro ⟨word, generates⟩
    refine Generates.induct (fun s _ => s ∈ g.productive) ?_ ?_ generates
    · intro t member
      exact (grown_closure g _).subset t (SymbolSet.mem_foldl_put.mpr (.inl member))
    · intro rule member part spells
      refine lhs_mem_closure valid member ?_ fun t inside => ?_
      · intro empty
        rw [SymbolSet.mem_foldl_put, mem_epsilonLhs, ← empty]
        exact .inr member
      · obtain ⟨_, ⟨_, productive⟩, _⟩ := spells.exists_of_mem inside
        exact productive

/-- Both closures are exact. A symbol is nullable if it derives the empty word, and
productive if it is a terminal or a nonterminal that derives a word of terminals. -/
theorem closures_exact (valid : g.Valid) (s : Symbol) :
    (s ∈ g.nullable ↔ g.Derives [s] []) ∧
      (s ∈ g.productive ↔ s ∈ g.terminals ∨
        s ∈ g.nonterminals ∧ ∃ word, g.Derives [s] word ∧ ∀ t ∈ word, t ∈ g.terminals) := by
  rw [mem_nullable_iff valid, mem_productive_iff valid]
  constructor
  · refine ⟨And.left, fun derives => ⟨derives, ?_⟩⟩
    intro t inside
    cases inside
  · constructor
    · rintro ⟨word, generates⟩
      rcases generates_iff.mp generates with ⟨terminal, _⟩ | ⟨rhs, member, _⟩
      · exact .inl terminal
      · exact .inr ⟨(valid.admits member).lhs, word, generates⟩
    · rintro (terminal | ⟨_, word, generates⟩)
      · exact ⟨[s], .of_terminal terminal⟩
      · exact ⟨word, generates⟩

/-- The rules `S ::= AB`, `S ::= a`, `A ::= BB`, `A ::= l`, `B ::= A`, `B ::= b` and
`C ::= Cc`. Symbol 28 is `S`, 10 to 12 are `A` to `C`, 36 to 38 are `a` to `c`. -/
def intertwined : Grammar :=
  let nonterminals := [⟨28⟩, ⟨10⟩, ⟨11⟩, ⟨12⟩].foldl (fun g s => declare g s .nonterminal) empty
  let symbols := [⟨36⟩, ⟨37⟩, ⟨38⟩].foldl (fun g s => declare g s .terminal) nonterminals
  (symbols.addRules
    [⟨⟨28⟩, .sequence [⟨10⟩, ⟨11⟩]⟩, ⟨⟨28⟩, .sequence [⟨36⟩]⟩, ⟨⟨10⟩, .sequence [⟨11⟩, ⟨11⟩]⟩,
      ⟨⟨10⟩, .epsilon⟩, ⟨⟨11⟩, .sequence [⟨10⟩]⟩, ⟨⟨11⟩, .sequence [⟨37⟩]⟩,
      ⟨⟨12⟩, .sequence [⟨12⟩, ⟨38⟩]⟩]).withStart ⟨28⟩

/-- The symbols `A` and `B` are nullable through each other, and with them `S`. All that
`C` derives has a `C` in it. -/
theorem closures_exact_intertwined :
    intertwined.Valid ∧ intertwined.Derives [⟨28⟩] [] ∧
      ∀ word, intertwined.Derives [⟨12⟩] word → ∃ t ∈ word, t ∉ intertwined.terminals := by
  have valid : intertwined.Valid := by decide +kernel
  refine ⟨valid, (closures_exact valid ⟨28⟩).1.mp (by decide +kernel), fun word derives => ?_⟩
  by_contra final
  simp only [not_exists, not_and, not_not] at final
  have productive := (closures_exact valid ⟨12⟩).2.mpr (.inr ⟨by decide +kernel, word, derives, final⟩)
  exact absurd productive (by decide +kernel)

end Grammar

end ContextFree
