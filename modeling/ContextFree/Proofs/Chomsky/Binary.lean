import ContextFree.Proofs.Chomsky.Terminals

/-! Binary rules in place of longer ones.

A suffix of two symbols or more is named by a letter whose rule has the first
symbol and the name of what follows it. The name of a suffix is kept for all
rules that end in it.
-/

set_option autoImplicit false

namespace ContextFree

namespace Draft

open Grammar (Simulates Derives)

variable {base g next : Grammar} {bound : Nat} {meaning later : Meaning}

/-- The rule is as the second stage leaves it. -/
structure Plain (g : Grammar) (rule : Rule) : Prop extends Ready g rule where
  unmixed : isMixed g rule = false

theorem Plain.of_long {rule : Rule} (long : 2 ≤ rule.rhs.length)
    (other : ∀ s ∈ rule.rhs.toList, s ∉ g.terminals ∧ g.start ≠ some s) : Plain g rule := by
  refine ⟨.of_long long fun s inside => (other s inside).2, ?_⟩
  rw [← Bool.not_eq_true, isMixed_iff]
  intro ⟨_, s, inside, terminal⟩
  exact (other s inside).1 terminal

theorem Plain.nonterminal {rule : Rule} (plain : Plain g rule) (long : 2 ≤ rule.rhs.length) {s : Symbol}
    (inside : s ∈ rule.rhs.toList) : s ∉ g.terminals := by
  intro terminal
  have mixed := isMixed_iff.mpr ⟨long, s, inside, terminal⟩
  rw [plain.unmixed] at mixed
  cases mixed

theorem Plain.inner {draft : Draft} {rule : Rule} (plain : Plain base rule)
    (follows : draft.Follows base (Plain base) meaning)
    (pending : Pending base 2 meaning draft.grammar rule) {s : Symbol} (inside : s ∈ rule.rhs.toList) :
    Inner draft.grammar s := by
  have other := plain.nonterminal (Nat.le_of_lt pending.long) inside
  rw [← follows.simulates.terminals] at other
  constructor
  · exact (Grammar.mem_symbols.mp (pending.declared s inside)).resolve_right other
  · rw [follows.simulates.start]
    exact plain.other s inside

theorem Follows.plain {draft : Draft} (follows : draft.Follows base (Plain base) meaning)
    (lhs : Symbol) {left right : Symbol} (inner : ∀ s ∈ [left, right], Inner draft.grammar s) :
    Plain base ⟨lhs, Rhs.ofList [left, right]⟩ := by
  refine .of_long (Nat.le_refl 2) fun s inside => ?_
  obtain ⟨declared, other⟩ := inner s inside
  rw [← follows.simulates.terminals, ← follows.simulates.start]
  exact ⟨follows.valid.not_terminal declared, other⟩

/-! ### Names of suffixes -/

/-- The letters stand for their suffixes. -/
def Abbreviates (meaning : Meaning) (g : Grammar) (known : Suffixes) : Prop :=
  ∀ entry ∈ known, Names meaning 2 g entry.2 entry.1

theorem Abbreviates.extend {known : Suffixes} (abbreviates : Abbreviates meaning g known)
    (step : Extends 2 meaning g later next) : Abbreviates later next known :=
  fun entry listed => (abbreviates entry listed).extend step

theorem nameSuffix_cons {draft after : Draft} {known others : Suffixes} {s second name : Symbol}
    {rest : List Symbol} (succeeded : draft.nameSuffix known s (second :: rest) = .ok (name, after, others)) :
    ∃ tail middle more, draft.nameSuffix known second rest = .ok (tail, middle, more) ∧
      ((s :: second :: rest, name) ∈ more ∧ after = middle ∧ others = more ∨
        ∃ fresh, middle.fresh = .ok (name, fresh) ∧ after = fresh.addRule name [s, tail] ∧
          others = more ++ [(s :: second :: rest, name)]) := by
  rw [nameSuffix] at succeeded
  obtain ⟨⟨tail, middle, more⟩, first, succeeded⟩ := bind_eq_ok succeeded
  refine ⟨tail, middle, more, first, ?_⟩
  simp only at succeeded
  split at succeeded
  · rename_i suffix known found
    cases succeeded
    have matched := List.find?_some found
    have same : suffix = s :: second :: rest := of_decide_eq_true matched
    rw [← same]
    exact .inl ⟨List.mem_of_find?_eq_some found, rfl, rfl⟩
  · obtain ⟨⟨letter, fresh⟩, taken, result⟩ := bind_eq_ok succeeded
    cases result
    exact .inr ⟨fresh, taken, rfl, rfl⟩

theorem Follows.nameSuffix {draft after : Draft} (follows : draft.Follows base (Plain base) meaning)
    {known others : Suffixes} (abbreviates : Abbreviates meaning draft.grammar known) {s name : Symbol}
    {rest : List Symbol}
    (inner : ∀ t ∈ s :: rest, Inner draft.grammar t)
    (succeeded : draft.nameSuffix known s rest = .ok (name, after, others)) :
    ∃ later, after.Follows base (Plain base) later ∧
      Introduces 2 meaning draft.grammar later after.grammar ∧ Abbreviates later after.grammar others ∧
        Names later 2 after.grammar name (s :: rest) := by
  induction rest generalizing s name after others with
  | nil =>
    cases succeeded
    exact ⟨meaning, follows, .refl 2 meaning _, abbreviates, .itself (inner s List.mem_cons_self)⟩
  | cons second rest ih =>
    obtain ⟨tail, middle, more, first, cases⟩ := nameSuffix_cons succeeded
    obtain ⟨later, follows, step, abbreviates, names⟩ :=
      ih (fun t inside => inner t (List.mem_cons_of_mem s inside)) first
    rcases cases with ⟨listed, rfl, rfl⟩ | ⟨fresh, taken, rfl, rfl⟩
    · exact ⟨later, follows, step, abbreviates, abbreviates _ listed⟩
    · have parts : ∀ t ∈ [s, tail], Inner middle.grammar t := by
        intro t inside
        rcases List.mem_pair.mp inside with rfl | rfl
        · exact step.inner (inner t List.mem_cons_self)
        · exact names.toInner
      obtain ⟨last, follows, extra, pair⟩ := follows.introduce taken (Nat.le_refl 2)
        (fun t inside => (parts t inside).symbol) (follows.plain name parts)
      -- the letter stands for a symbol and the name of the rest, so for the whole suffix
      have whole := pair.cons (names.extend extra.toExtends)
      refine ⟨last, follows, step.trans extra, fun entry listed => ?_, whole⟩
      rcases List.mem_append.mp listed with old | new
      · exact abbreviates.extend extra.toExtends entry old
      · rw [List.mem_singleton.mp new]
        exact whole

/-! ### Splitting -/

theorem splitRules_cons {draft after : Draft} {known : Suffixes} {rule : Rule} {rest : List Rule}
    (long : 2 < rule.rhs.length) (succeeded : draft.splitRules known (rule :: rest) = .ok after) :
    ∃ first second more tail middle others, rule.rhs.toList = first :: second :: more ∧
      draft.nameSuffix known second more = .ok (tail, middle, others) ∧
        (middle.replaceRule rule [first, tail]).splitRules others rest = .ok after := by
  rw [splitRules] at succeeded
  split at succeeded
  · rename_i first second more shape
    obtain ⟨⟨tail, middle, others⟩, named, succeeded⟩ := bind_eq_ok succeeded
    exact ⟨first, second, more, tail, middle, others, shape, named, succeeded⟩
  · rename_i different
    exfalso
    rw [Rhs.length] at long
    cases shape : rule.rhs.toList with
    | nil => simp [shape] at long
    | cons first rest =>
      cases rest with
      | nil => simp [shape] at long
      | cons second more => exact different first second more shape

theorem Follows.splitRules {draft after : Draft} (follows : draft.Follows base (Plain base) meaning)
    {known : Suffixes} (abbreviates : Abbreviates meaning draft.grammar known) {rules : List Rule}
    (agenda : Agenda base (Plain base) (fun rule => 2 < rule.rhs.length) 2 meaning draft.grammar rules)
    (succeeded : draft.splitRules known rules = .ok after) :
    ∃ later, after.Follows base (Plain base) later ∧
      ∀ rule ∈ after.grammar.rules, rule.rhs.length ≤ 2 := by
  induction rules generalizing draft known meaning with
  | nil =>
    cases succeeded
    refine ⟨meaning, follows, fun rule member => ?_⟩
    apply Nat.not_lt.mp
    intro long
    cases agenda.complete rule member long
  | cons rule rest ih =>
    have pending := agenda.pending rule List.mem_cons_self
    have plain := agenda.shaped rule List.mem_cons_self
    obtain ⟨first, second, more, tail, middle, others, shape, named, succeeded⟩ :=
      splitRules_cons pending.long succeeded
    have inner : ∀ s ∈ first :: second :: more, Inner draft.grammar s := by
      rw [← shape]
      intro s inside
      exact plain.inner follows pending inside
    obtain ⟨later, follows, step, abbreviates, names⟩ := follows.nameSuffix abbreviates
      (fun s inside => inner s (List.mem_cons_of_mem first inside)) named
    have parts : ∀ s ∈ [first, tail], Inner middle.grammar s := by
      intro s inside
      rcases List.mem_pair.mp inside with rfl | rfl
      · exact step.inner (inner s List.mem_cons_self)
      · exact names.toInner
    have same : [first, tail].flatMap later = rule.rhs.toList.flatMap later := by
      rw [shape, List.flatMap_cons, List.flatMap_singleton, names.same, ← List.flatMap_cons]
    have derives : (middle.grammar.upTo 2).Derives [first, tail] rule.rhs.toList := by
      rw [shape]
      exact names.derives.append_left [first]
    have replaced := follows.replace (pending.extend step.toExtends)
      (fun s inside => (parts s inside).symbol) (follows.plain rule.lhs parts) same derives
    have kept : Abbreviates later (middle.replaceRule rule [first, tail]).grammar others :=
      abbreviates.extend (extends_replaceRule pending.long [first, tail])
    exact ih replaced kept (agenda.replace step (fun _ long => long) (Nat.lt_irrefl 2)) succeeded

/-- After the third stage no rule is longer than two symbols. -/
theorem Follows.binarize {draft after : Draft} (follows : draft.Follows base (Plain base) meaning)
    (succeeded : draft.binarize = .ok after) :
    ∃ later, after.Follows base (Plain base) later ∧
      ∀ rule ∈ after.grammar.rules, rule.rhs.length ≤ 2 := by
  have none_known : Abbreviates meaning draft.grammar [] := by
    intro entry listed
    cases listed
  refine follows.splitRules none_known (follows.agenda ?_ ?_ ?_) succeeded
  · intro rule listed
    exact of_decide_eq_true (List.mem_filter.mp listed).2
  · intro rule listed
    exact (List.mem_filter.mp listed).1
  · intro rule member long
    exact List.mem_filter.mpr ⟨member, decide_eq_true long⟩

end Draft

end ContextFree
