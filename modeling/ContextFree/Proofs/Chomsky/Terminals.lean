import ContextFree.Proofs.Chomsky.Steps
import Mathlib.Data.List.Forall2

/-! Nonterminals in place of terminals in longer right-hand sides.

A nonterminal whose only rule is a terminal means this terminal from the start, so
that it can wrap the terminal like a new letter does.
-/

set_option autoImplicit false

namespace ContextFree

namespace Draft

open Grammar (Simulates Derives)

variable {base g next : Grammar} {shape : Rule → Prop} {bound : Nat} {meaning later : Meaning}

/-- The rule is as the first stage leaves it: empty for the start symbol only, single
for terminals only, and without the start symbol on the right. -/
structure Ready (g : Grammar) (rule : Rule) : Prop where
  epsilon : rule.rhs.toList = [] → g.start = some rule.lhs
  single : ∀ s, rule.rhs.toList = [s] → s ∈ g.terminals
  other : ∀ s ∈ rule.rhs.toList, g.start ≠ some s

theorem Ready.of_long {rule : Rule} (long : 2 ≤ rule.rhs.length)
    (other : ∀ s ∈ rule.rhs.toList, g.start ≠ some s) : Ready g rule := by
  rw [Rhs.length] at long
  constructor
  · intro empty
    rw [empty] at long
    contradiction
  · intro s single
    rw [single] at long
    contradiction
  · exact other

theorem Ready.of_terminal (valid : g.Valid) {t : Symbol} (terminal : t ∈ g.terminals) (lhs : Symbol) :
    Ready g ⟨lhs, Rhs.ofList [t]⟩ := by
  constructor
  · intro empty
    cases empty
  · intro s single
    cases single
    exact terminal
  · intro s inside chosen
    rw [List.mem_singleton.mp inside] at chosen
    exact valid.not_terminal (valid.start_declared t chosen) terminal

theorem Ready.of_same {rule : Rule} (ready : Ready g rule) (terminals : g.terminals = base.terminals)
    (start : g.start = base.start) : Ready base rule := by
  constructor
  · rw [← start]
    exact ready.epsilon
  · rw [← terminals]
    exact ready.single
  · rw [← start]
    exact ready.other

theorem isMixed_iff {rule : Rule} :
    isMixed g rule = true ↔ 2 ≤ rule.rhs.length ∧ ∃ s ∈ rule.rhs.toList, s ∈ g.terminals := by
  unfold isMixed
  rw [Bool.and_eq_true, decide_eq_true_eq, List.any_eq_true]
  rfl

/-! ### Wrappers of the grammar -/

theorem wrapped?_eq_some {lhs t : Symbol} :
    wrapped? g lhs = some t ↔
      g.productionsOf lhs = [.sequence [t]] ∧ t ∈ g.terminals ∧ g.start ≠ some lhs := by
  unfold wrapped?
  split
  · rename_i rhs only
    rw [Option.filter_eq_some_iff, Rhs.single?_eq_some, Bool.and_eq_true, decide_eq_true_eq, only,
      List.cons.injEq]
    simp only [and_true]
    rfl
  · rename_i several
    constructor
    · intro impossible
      cases impossible
    · intro ⟨only, _⟩
      exact absurd only (several _)

theorem rule_of_wrapped? {lhs t : Symbol} (found : wrapped? g lhs = some t) :
    (⟨lhs, .sequence [t]⟩ : Rule) ∈ g.rules := by
  rw [Grammar.mem_rules, (wrapped?_eq_some.mp found).1]
  exact List.mem_singleton_self _

/-- A wrapper means its terminal, any other symbol itself. -/
def wrapperMeaning (g : Grammar) : Meaning :=
  fun s => [(wrapped? g s).getD s]

theorem derives_wrapperMeaning (g : Grammar) (s : Symbol) : g.Derives [s] (wrapperMeaning g s) := by
  unfold wrapperMeaning
  cases found : wrapped? g s with
  | none => exact .refl [s]
  | some t => exact .of_rule (rule_of_wrapped? found)

theorem wrapperMeaning_of_terminal (valid : g.Valid) {t : Symbol} (terminal : t ∈ g.terminals) :
    wrapperMeaning g t = [t] := by
  unfold wrapperMeaning
  cases found : wrapped? g t with
  | none => rfl
  | some other =>
    have nonterminal := (valid.admits (rule_of_wrapped? found)).lhs
    exact absurd terminal (valid.not_terminal nonterminal)

theorem simulates_wrapperMeaning (valid : g.Valid) : Simulates g (wrapperMeaning g) g where
  terminals := rfl
  start := rfl
  nonterminals _ declared := declared
  terminal_meaning _ terminal := wrapperMeaning_of_terminal valid terminal
  old_meaning s _ := derives_wrapperMeaning g s
  sound rule member := by
    cases found : wrapped? g rule.lhs with
    | none =>
      have itself : wrapperMeaning g rule.lhs = [rule.lhs] := by rw [wrapperMeaning, found, Option.getD_none]
      rw [itself]
      exact (Derives.of_rule member).trans (.flatMap fun s _ => derives_wrapperMeaning g s)
    | some t =>
      -- the rule is the only one of a wrapper
      obtain ⟨only, terminal, _⟩ := wrapped?_eq_some.mp found
      have shape := Grammar.mem_rules.mp member
      rw [only, List.mem_singleton] at shape
      have named : wrapperMeaning g rule.lhs = [t] := by rw [wrapperMeaning, found, Option.getD_some]
      rw [named, shape, Rhs.toList, List.flatMap_singleton, wrapperMeaning_of_terminal valid terminal]
      exact .refl [t]
  complete _ member := .of_rule member

def Wraps (meaning : Meaning) (g : Grammar) (known : Wrappers) : Prop :=
  ∀ entry ∈ known, Names meaning 1 g entry.2 [entry.1]

theorem Wraps.extend {known : Wrappers} (wraps : Wraps meaning g known)
    (step : Extends 1 meaning g later next) : Wraps later next known :=
  fun entry listed => (wraps entry listed).extend step

theorem wraps_wrappers (valid : g.Valid) : Wraps (wrapperMeaning g) g (wrappers g) := by
  intro ⟨t, wrapper⟩ listed
  unfold wrappers at listed
  obtain ⟨lhs, declared, found⟩ := List.mem_filterMap.mp listed
  rw [Option.map_eq_some_iff] at found
  obtain ⟨terminal, found, same⟩ := found
  cases same
  obtain ⟨_, terminal, other⟩ := wrapped?_eq_some.mp found
  refine ⟨⟨SymbolSet.mem_toList.mp declared, other⟩, ?_, ?_, ?_⟩
  · intro s inside
    rw [List.mem_singleton.mp inside]
    exact Grammar.mem_symbols.mpr (.inr terminal)
  · rw [List.flatMap_singleton, wrapperMeaning_of_terminal valid terminal, wrapperMeaning, found,
      Option.getD_some]
  · have member := Grammar.mem_rules_upTo.mpr ⟨rule_of_wrapped? found, Nat.le_refl 1⟩
    exact Derives.of_rule member

/-! ### Wrapping -/

theorem Follows.wrap {draft after : Draft} (follows : draft.Follows base (Ready base) meaning)
    {known others : Wrappers} (wraps : Wraps meaning draft.grammar known) {t name : Symbol}
    (terminal : t ∈ draft.grammar.terminals)
    (succeeded : draft.wrap known t = .ok (name, after, others)) :
    ∃ later, after.Follows base (Ready base) later ∧
      Introduces 1 meaning draft.grammar later after.grammar ∧ Wraps later after.grammar others ∧
        Names later 1 after.grammar name [t] := by
  unfold Draft.wrap at succeeded
  split at succeeded
  · rename_i entry wrapper found
    cases succeeded
    have listed := List.mem_of_find?_eq_some found
    have matched := List.find?_some found
    have same : entry = t := of_decide_eq_true matched
    rw [same] at listed
    exact ⟨meaning, follows, .refl 1 meaning _, wraps, wraps _ listed⟩
  · obtain ⟨⟨letter, fresh⟩, taken, result⟩ := bind_eq_ok succeeded
    cases result
    have declared : ∀ s ∈ [t], s ∈ draft.grammar.symbols := by
      intro s inside
      rw [List.mem_singleton.mp inside]
      exact Grammar.mem_symbols.mpr (.inr terminal)
    have ready := (Ready.of_terminal follows.valid terminal name).of_same follows.simulates.terminals
      follows.simulates.start
    obtain ⟨later, follows, step, names⟩ := follows.introduce taken (Nat.le_refl 1) declared ready
    refine ⟨later, follows, step, fun entry listed => ?_, names⟩
    rcases List.mem_append.mp listed with old | new
    · exact wraps.extend step.toExtends entry old
    · rw [List.mem_singleton.mp new]
      exact names

abbrev Renames (meaning : Meaning) (g : Grammar) : List Symbol → List Symbol → Prop :=
  List.Forall₂ fun name s => Names meaning 1 g name [s]

theorem Renames.flatMap {names form : List Symbol} (renames : Renames meaning g names form) :
    names.flatMap meaning = form.flatMap meaning := by
  induction renames with
  | nil => rfl
  | cons head _ ih =>
    rw [List.flatMap_cons, List.flatMap_cons, ih, head.same, List.flatMap_singleton]

theorem Renames.derives {names form : List Symbol} (renames : Renames meaning g names form) :
    (g.upTo 1).Derives names form := by
  induction renames with
  | nil => exact .refl []
  | cons head _ ih => exact head.derives.append ih

theorem Renames.inner {names form : List Symbol} (renames : Renames meaning g names form) :
    ∀ name ∈ names, Inner g name := by
  induction renames with
  | nil =>
    intro name impossible
    cases impossible
  | cons head _ ih =>
    intro name inside
    rcases List.mem_cons.mp inside with rfl | inside
    · exact head.toInner
    · exact ih name inside

theorem wrapAll_cons {draft after : Draft} {known others : Wrappers} {s : Symbol} {rest names : List Symbol}
    (succeeded : draft.wrapAll known (s :: rest) = .ok (names, after, others)) :
    ∃ head tail middle more, names = head :: tail ∧
      (if draft.grammar.terminals.contains s then draft.wrap known s else .ok (s, draft, known)) =
        .ok (head, middle, more) ∧ middle.wrapAll more rest = .ok (tail, after, others) := by
  rw [wrapAll] at succeeded
  cases kind : draft.grammar.terminals.contains s
  all_goals
    rw [kind] at succeeded
    obtain ⟨⟨head, middle, more⟩, first, succeeded⟩ := bind_eq_ok succeeded
    obtain ⟨⟨tail, final, all⟩, second, result⟩ := bind_eq_ok succeeded
    cases result
    exact ⟨head, tail, middle, more, rfl, first, second⟩

theorem Follows.wrapAll {draft after : Draft} (follows : draft.Follows base (Ready base) meaning)
    {known others : Wrappers} (wraps : Wraps meaning draft.grammar known) {form names : List Symbol}
    (declared : ∀ s ∈ form, s ∈ draft.grammar.symbols) (other : ∀ s ∈ form, draft.grammar.start ≠ some s)
    (succeeded : draft.wrapAll known form = .ok (names, after, others)) :
    ∃ later, after.Follows base (Ready base) later ∧
      Introduces 1 meaning draft.grammar later after.grammar ∧ Wraps later after.grammar others ∧
        Renames later after.grammar names form := by
  induction form generalizing draft known names meaning with
  | nil =>
    cases succeeded
    exact ⟨meaning, follows, .refl 1 meaning _, wraps, .nil⟩
  | cons s rest ih =>
    obtain ⟨head, tail, middle, more, rfl, first, second⟩ := wrapAll_cons succeeded
    -- a terminal is wrapped, a nonterminal is its own name
    have named : ∃ later, middle.Follows base (Ready base) later ∧
        Introduces 1 meaning draft.grammar later middle.grammar ∧ Wraps later middle.grammar more ∧
          Names later 1 middle.grammar head [s] := by
      split at first
      · rename_i terminal
        exact follows.wrap wraps terminal first
      · rename_i nonterminal
        cases first
        have itself := (Grammar.mem_symbols.mp (declared s List.mem_cons_self)).resolve_right nonterminal
        exact ⟨meaning, follows, .refl 1 meaning _, wraps, .itself ⟨itself, other s List.mem_cons_self⟩⟩
    obtain ⟨later, follows, step, wraps, names⟩ := named
    have declared : ∀ t ∈ rest, t ∈ middle.grammar.symbols := fun t inside =>
      step.symbols (declared t (List.mem_cons_of_mem s inside))
    have other : ∀ t ∈ rest, middle.grammar.start ≠ some t := by
      rw [step.start]
      exact fun t inside => other t (List.mem_cons_of_mem s inside)
    obtain ⟨last, follows, more, wraps, renames⟩ := ih follows wraps declared other second
    exact ⟨last, follows, step.trans more, wraps, .cons (names.extend more.toExtends) renames⟩

theorem Follows.wrapRules {draft after : Draft} (follows : draft.Follows base (Ready base) meaning)
    {known : Wrappers} (wraps : Wraps meaning draft.grammar known) {rules : List Rule}
    (agenda : Agenda base (Ready base) (fun rule => isMixed base rule = true) 1 meaning draft.grammar rules)
    (succeeded : draft.wrapRules known rules = .ok after) :
    ∃ later, after.Follows base (Ready base) later ∧
      ∀ rule ∈ after.grammar.rules, isMixed base rule = false := by
  induction rules generalizing draft known meaning with
  | nil =>
    cases succeeded
    refine ⟨meaning, follows, fun rule member => ?_⟩
    rw [← Bool.not_eq_true]
    intro mixed
    cases agenda.complete rule member mixed
  | cons rule rest ih =>
    obtain ⟨⟨names, middle, more⟩, first, succeeded⟩ := bind_eq_ok succeeded
    have pending := agenda.pending rule List.mem_cons_self
    have ready := agenda.shaped rule List.mem_cons_self
    have other : ∀ s ∈ rule.rhs.toList, draft.grammar.start ≠ some s := by
      rw [follows.simulates.start]
      exact ready.other
    obtain ⟨later, follows, step, wraps, renames⟩ := follows.wrapAll wraps pending.declared other first
    have long : 2 ≤ (Rhs.ofList names).length := by
      rw [Rhs.length, Rhs.toList_ofList, renames.length_eq]
      exact pending.long
    have shaped : Ready base ⟨rule.lhs, Rhs.ofList names⟩ := by
      refine .of_long long fun name inside => ?_
      rw [Rhs.toList_ofList] at inside
      rw [← follows.simulates.start]
      exact (renames.inner name inside).other
    have unmixed : ¬ isMixed base ⟨rule.lhs, Rhs.ofList names⟩ = true := by
      rw [isMixed_iff]
      rintro ⟨_, name, inside, terminal⟩
      rw [Rhs.toList_ofList] at inside
      rw [← follows.simulates.terminals] at terminal
      exact follows.valid.not_terminal (renames.inner name inside).declared terminal
    have replaced := follows.replace (pending.extend step.toExtends)
      (fun name inside => (renames.inner name inside).symbol) shaped renames.flatMap renames.derives
    have kept : Wraps later (middle.replaceRule rule names).grammar more :=
      wraps.extend (extends_replaceRule pending.long names)
    exact ih replaced kept (agenda.replace step (fun _ mixed => (isMixed_iff.mp mixed).1) unmixed) succeeded

/-- After the second stage no rule is mixed. -/
theorem Follows.isolateTerminals {draft after : Draft}
    (follows : draft.Follows draft.grammar (Ready draft.grammar) (wrapperMeaning draft.grammar))
    (succeeded : draft.isolateTerminals = .ok after) :
    ∃ later, after.Follows draft.grammar (Ready draft.grammar) later ∧
      ∀ rule ∈ after.grammar.rules, isMixed draft.grammar rule = false := by
  refine follows.wrapRules (wraps_wrappers follows.valid) (follows.agenda ?_ ?_ ?_) succeeded
  · intro rule listed
    exact (isMixed_iff.mp (List.mem_filter.mp listed).2).1
  · intro rule listed
    exact (List.mem_filter.mp listed).1
  · intro rule member mixed
    exact List.mem_filter.mpr ⟨member, mixed⟩

end Draft

end ContextFree
