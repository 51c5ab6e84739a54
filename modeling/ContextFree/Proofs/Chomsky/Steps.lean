import ContextFree.Chomsky.Draft
import ContextFree.Proofs.Chomsky.Simulation
import ContextFree.Proofs.Supply
import Mathlib.Logic.Function.Basic

/-! A draft on its way to Chomsky normal form simulates the grammar it began with.

Two kinds of steps keep this: a new letter with a rule of its own, and a long rule
rewritten with names for parts of it. A stage rewrites the rules of an agenda, to
which no step adds.
-/

set_option autoImplicit false

namespace ContextFree

namespace Draft

open Grammar (Simulates Derives)

variable {base g next : Grammar} {shape : Rule → Prop} {bound : Nat} {meaning later : Meaning}

/-- The letters that are left are unused. -/
structure Supplied (draft : Draft) : Prop where
  letters : ∀ letter ∈ draft.supply.letters,
    Kind.ofChar? letter.toChar = some .nonterminal ∧ letter ∉ draft.grammar.symbols
  distinct : draft.supply.letters.Nodup

/-- The draft is a valid simulation of the base with rules of one shape, and its
letters are unused. -/
structure Follows (base : Grammar) (shape : Rule → Prop) (meaning : Meaning) (draft : Draft) : Prop
    extends Supplied draft where
  valid : draft.grammar.Valid
  simulates : Simulates base meaning draft.grammar
  shaped : ∀ rule ∈ draft.grammar.rules, shape rule

/-- What names rest on is kept: declarations, meanings and short rules. -/
structure Extends (bound : Nat) (meaning : Meaning) (g : Grammar) (later : Meaning) (next : Grammar) :
    Prop where
  nonterminals : ∀ s ∈ g.nonterminals, s ∈ next.nonterminals
  terminals : next.terminals = g.terminals
  start : next.start = g.start
  same : ∀ s ∈ g.symbols, later s = meaning s
  short : ∀ rule ∈ g.rules, rule.rhs.length ≤ bound → rule ∈ next.rules

/-- In addition, all that is new are short rules. -/
structure Introduces (bound : Nat) (meaning : Meaning) (g : Grammar) (later : Meaning) (next : Grammar) :
    Prop extends Extends bound meaning g later next where
  new : ∀ rule ∈ next.rules, rule ∈ g.rules ∨ rule.rhs.length ≤ bound

/-- A nonterminal other than the start symbol. -/
structure Inner (g : Grammar) (s : Symbol) : Prop where
  declared : s ∈ g.nonterminals
  other : g.start ≠ some s

/-- The nonterminal stands for the form: it means the same and derives it by short
rules. -/
structure Names (meaning : Meaning) (bound : Nat) (g : Grammar) (name : Symbol) (form : List Symbol) :
    Prop extends Inner g name where
  form_declared : ∀ s ∈ form, s ∈ g.symbols
  same : meaning name = form.flatMap meaning
  derives : (g.upTo bound).Derives [name] form

theorem Extends.symbols (step : Extends bound meaning g later next) {s : Symbol}
    (declared : s ∈ g.symbols) : s ∈ next.symbols := by
  rw [Grammar.mem_symbols] at declared ⊢
  rw [step.terminals]
  exact declared.imp_left (step.nonterminals s)

theorem Extends.refl (bound : Nat) (meaning : Meaning) (g : Grammar) :
    Extends bound meaning g meaning g where
  nonterminals _ declared := declared
  terminals := rfl
  start := rfl
  same _ _ := rfl
  short _ member _ := member

theorem Extends.trans {last : Meaning} {final : Grammar} (first : Extends bound meaning g later next)
    (second : Extends bound later next last final) : Extends bound meaning g last final where
  nonterminals s declared := second.nonterminals s (first.nonterminals s declared)
  terminals := second.terminals.trans first.terminals
  start := second.start.trans first.start
  same s declared := (second.same s (first.symbols declared)).trans (first.same s declared)
  short rule member small := second.short rule (first.short rule member small) small

theorem Introduces.refl (bound : Nat) (meaning : Meaning) (g : Grammar) :
    Introduces bound meaning g meaning g :=
  ⟨.refl bound meaning g, fun _ member => .inl member⟩

theorem Introduces.trans {last : Meaning} {final : Grammar} (first : Introduces bound meaning g later next)
    (second : Introduces bound later next last final) : Introduces bound meaning g last final := by
  refine ⟨first.toExtends.trans second.toExtends, fun rule member => ?_⟩
  rcases second.new rule member with old | small
  · exact first.new rule old
  · exact .inr small

theorem Extends.flatMap (step : Extends bound meaning g later next) {form : List Symbol}
    (declared : ∀ s ∈ form, s ∈ g.symbols) : form.flatMap later = form.flatMap meaning :=
  Grammar.flatMap_congr fun s inside => step.same s (declared s inside)

theorem Extends.upTo (step : Extends bound meaning g later next) {first last : List Symbol}
    (derives : (g.upTo bound).Derives first last) : (next.upTo bound).Derives first last := by
  apply derives.of_rules_subset
  intro rule member
  obtain ⟨old, small⟩ := Grammar.mem_rules_upTo.mp member
  exact Grammar.mem_rules_upTo.mpr ⟨step.short rule old small, small⟩

theorem Inner.symbol {s : Symbol} (inner : Inner g s) : s ∈ g.symbols :=
  Grammar.mem_symbols.mpr (.inl inner.declared)

theorem Extends.inner (step : Extends bound meaning g later next) {s : Symbol} (inner : Inner g s) :
    Inner next s where
  declared := step.nonterminals s inner.declared
  other := by
    rw [step.start]
    exact inner.other

theorem Names.extend {name : Symbol} {form : List Symbol} (names : Names meaning bound g name form)
    (step : Extends bound meaning g later next) : Names later bound next name form where
  toInner := step.inner names.toInner
  form_declared s inside := step.symbols (names.form_declared s inside)
  same := by
    rw [step.flatMap names.form_declared,
      step.same name names.symbol, names.same]
  derives := step.upTo names.derives

theorem Names.itself {s : Symbol} (inner : Inner g s) : Names meaning bound g s [s] where
  toInner := inner
  form_declared t inside := by
    rw [List.mem_singleton.mp inside]
    exact inner.symbol
  same := (List.flatMap_singleton meaning s).symm
  derives := .refl [s]

theorem Names.cons {name s tail : Symbol} {form : List Symbol}
    (names : Names meaning bound g name [s, tail]) (rest : Names meaning bound g tail form) :
    Names meaning bound g name (s :: form) where
  toInner := names.toInner
  form_declared t inside := by
    rcases List.mem_cons.mp inside with rfl | inside
    · exact names.form_declared t List.mem_cons_self
    · exact rest.form_declared t inside
  same := by
    rw [names.same, List.flatMap_cons, List.flatMap_singleton, List.flatMap_cons, rest.same]
  derives := names.derives.trans (rest.derives.append_left [s])

/-! ### A letter with a rule of its own -/

theorem Supplied.of_symbols {draft other : Draft} (supplied : draft.Supplied)
    (supply : other.supply = draft.supply) (symbols : other.grammar.symbols = draft.grammar.symbols) :
    other.Supplied where
  letters := by
    rw [supply, symbols]
    exact supplied.letters
  distinct := by
    rw [supply]
    exact supplied.distinct

theorem fresh_eq_error {draft : Draft} (empty : draft.supply.letters = []) :
    draft.fresh = .error .outOfLetters := by
  rw [fresh, Supply.next?_eq_none empty]

theorem fresh_eq_ok {draft : Draft} {letter : Symbol} {rest : List Symbol}
    (letters : draft.supply.letters = letter :: rest) :
    ∃ after, draft.fresh = .ok (letter, after) ∧ after.supply.letters = rest ∧
      after.introduced = draft.introduced ++ [letter] ∧
        after.grammar = draft.grammar.declare letter .nonterminal := by
  obtain ⟨supply, found, left⟩ := Supply.next?_eq_some letters
  rw [fresh, found]
  exact ⟨_, rfl, left, rfl, rfl⟩

/-- The next letter is unused, and the other ones are so once it is declared. -/
theorem Supplied.fresh {draft after : Draft} (supplied : draft.Supplied) {letter : Symbol}
    (succeeded : draft.fresh = .ok (letter, after)) :
    Kind.ofChar? letter.toChar = some .nonterminal ∧ letter ∉ draft.grammar.symbols ∧
      after.Supplied ∧ after.grammar = draft.grammar.declare letter .nonterminal := by
  cases letters : draft.supply.letters with
  | nil =>
    rw [fresh_eq_error letters] at succeeded
    cases succeeded
  | cons head rest =>
    obtain ⟨_, taken, left, _, grammar⟩ := fresh_eq_ok letters
    rw [taken] at succeeded
    cases succeeded
    have unused := supplied.letters
    have distinct := supplied.distinct
    rw [letters] at unused distinct
    obtain ⟨allowed, free⟩ := unused letter List.mem_cons_self
    obtain ⟨different, distinct⟩ := List.nodup_cons.mp distinct
    refine ⟨allowed, free, ⟨?_, left ▸ distinct⟩, grammar⟩
    rw [left, grammar]
    intro next inside
    obtain ⟨allowed, free⟩ := unused next (List.mem_cons_of_mem letter inside)
    refine ⟨allowed, fun used => ?_⟩
    rw [Grammar.mem_symbols, Grammar.mem_nonterminals_declare] at used
    rcases used with (old | same) | old
    · exact free (Grammar.mem_symbols.mpr (.inl old))
    · rw [same] at inside
      exact different inside
    · exact free (Grammar.mem_symbols.mpr (.inr old))

abbrev introduce (g : Grammar) (letter : Symbol) (symbols : List Symbol) : Grammar :=
  (g.declare letter .nonterminal).addRule letter (Rhs.ofList symbols)

section Introduce

variable {letter : Symbol} {symbols : List Symbol}

theorem mem_rules_introduce {rule : Rule} :
    rule ∈ (introduce g letter symbols).rules ↔ rule = ⟨letter, Rhs.ofList symbols⟩ ∨ rule ∈ g.rules := by
  rw [Grammar.mem_rules_addRule, Grammar.rules_declare]

theorem mem_nonterminals_introduce {s : Symbol} :
    s ∈ (introduce g letter symbols).nonterminals ↔ s ∈ g.nonterminals ∨ s = letter :=
  Grammar.mem_nonterminals_declare

abbrev withLetter (meaning : Meaning) (letter : Symbol) (symbols : List Symbol) : Meaning :=
  Function.update meaning letter (symbols.flatMap meaning)

theorem withLetter_of_old (unused : letter ∉ g.symbols) {s : Symbol} (old : s ∈ g.symbols) :
    withLetter meaning letter symbols s = meaning s := by
  apply Function.update_of_ne
  intro same
  rw [same] at old
  exact unused old

theorem flatMap_withLetter (unused : letter ∉ g.symbols) {form : List Symbol}
    (old : ∀ s ∈ form, s ∈ g.symbols) :
    form.flatMap (withLetter meaning letter symbols) = form.flatMap meaning :=
  Grammar.flatMap_congr fun s inside => withLetter_of_old unused (old s inside)

theorem introduces_introduce (unused : letter ∉ g.symbols) (small : symbols.length ≤ bound) :
    Introduces bound meaning g (withLetter meaning letter symbols) (introduce g letter symbols) where
  nonterminals _ inside := mem_nonterminals_introduce.mpr (.inl inside)
  terminals := rfl
  start := rfl
  same _ inside := withLetter_of_old unused inside
  short _ member _ := mem_rules_introduce.mpr (.inr member)
  new rule member := by
    rcases mem_rules_introduce.mp member with rfl | old
    · right
      rw [Rhs.length, Rhs.toList_ofList]
      exact small
    · exact .inl old

theorem names_introduce (valid : g.Valid) (unused : letter ∉ g.symbols) (small : symbols.length ≤ bound)
    (declared : ∀ s ∈ symbols, s ∈ g.symbols) :
    Names (withLetter meaning letter symbols) bound (introduce g letter symbols) letter symbols := by
  have step : Introduces bound meaning g (withLetter meaning letter symbols) (introduce g letter symbols) :=
    introduces_introduce unused small
  refine ⟨⟨mem_nonterminals_introduce.mpr (.inr rfl), ?_⟩, ?_, ?_, ?_⟩
  · intro chosen
    exact unused (Grammar.mem_symbols.mpr (.inl (valid.start_declared letter chosen)))
  · intro s inside
    exact step.symbols (declared s inside)
  · rw [flatMap_withLetter unused declared]
    exact Function.update_self letter _ meaning
  · have member : (⟨letter, Rhs.ofList symbols⟩ : Rule) ∈ ((introduce g letter symbols).upTo bound).rules := by
      apply Grammar.mem_rules_upTo.mpr
      rw [Rhs.length, Rhs.toList_ofList]
      exact ⟨mem_rules_introduce.mpr (.inl rfl), small⟩
    have derives := Derives.of_rule member
    rwa [Rhs.toList_ofList] at derives

theorem simulates_introduce (valid : g.Valid) (simulates : Simulates base meaning g)
    (unused : letter ∉ g.symbols) (declared : ∀ s ∈ symbols, s ∈ g.symbols) :
    Simulates base (withLetter meaning letter symbols) (introduce g letter symbols) where
  terminals := simulates.terminals
  start := simulates.start
  nonterminals s inside := mem_nonterminals_introduce.mpr (.inl (simulates.nonterminals s inside))
  terminal_meaning t terminal := by
    rw [withLetter_of_old unused (simulates.symbols (Grammar.mem_symbols.mpr (.inr terminal)))]
    exact simulates.terminal_meaning t terminal
  old_meaning s nonterminal := by
    rw [withLetter_of_old unused (simulates.symbols (Grammar.mem_symbols.mpr (.inl nonterminal)))]
    exact simulates.old_meaning s nonterminal
  sound rule member := by
    rcases mem_rules_introduce.mp member with rfl | old
    · rw [Rhs.toList_ofList, flatMap_withLetter unused declared, withLetter, Function.update_self]
      exact .refl _
    · have admits := valid.admits old
      rw [flatMap_withLetter unused admits.declared,
        withLetter_of_old unused (Grammar.mem_symbols.mpr (.inl admits.lhs))]
      exact simulates.sound rule old
  complete rule member := by
    apply (simulates.complete rule member).of_rules_subset
    intro rule inside
    exact mem_rules_introduce.mpr (.inr inside)

end Introduce

theorem Follows.introduce {draft after : Draft} (follows : draft.Follows base shape meaning)
    {letter : Symbol} (succeeded : draft.fresh = .ok (letter, after)) {symbols : List Symbol}
    (small : symbols.length ≤ bound) (declared : ∀ s ∈ symbols, s ∈ draft.grammar.symbols)
    (shaped : shape ⟨letter, Rhs.ofList symbols⟩) :
    ∃ later, (after.addRule letter symbols).Follows base shape later ∧
      Introduces bound meaning draft.grammar later (after.addRule letter symbols).grammar ∧
        Names later bound (after.addRule letter symbols).grammar letter symbols := by
  obtain ⟨allowed, unused, supplied, declares⟩ := follows.toSupplied.fresh succeeded
  have grammar : (after.addRule letter symbols).grammar = Draft.introduce draft.grammar letter symbols := by
    rw [addRule, declares]
  have step : Introduces bound meaning draft.grammar (withLetter meaning letter symbols)
      (Draft.introduce draft.grammar letter symbols) :=
    introduces_introduce unused small
  refine ⟨withLetter meaning letter symbols, ⟨?_, ?_, ?_, ?_⟩, ?_, ?_⟩
  · exact supplied.of_symbols rfl rfl
  · rw [grammar]
    apply (follows.valid.declare allowed).addRule
    refine ⟨Grammar.mem_nonterminals_declare.mpr (.inr rfl), Rhs.ofList_ne_sequence_nil symbols, ?_⟩
    intro s inside
    rw [Rhs.toList_ofList] at inside
    exact step.symbols (declared s inside)
  · rw [grammar]
    exact simulates_introduce follows.valid follows.simulates unused declared
  · rw [grammar]
    intro rule member
    rcases mem_rules_introduce.mp member with rfl | old
    · exact shaped
    · exact follows.shaped rule old
  · rw [grammar]
    exact step
  · rw [grammar]
    exact names_introduce follows.valid unused small declared

/-! ### A long rule in other words -/

/-- What the rewriting of a long rule rests on. -/
structure Pending (base : Grammar) (bound : Nat) (meaning : Meaning) (g : Grammar) (rule : Rule) :
    Prop where
  long : bound < rule.rhs.length
  lhs : rule.lhs ∈ g.nonterminals
  declared : ∀ s ∈ rule.rhs.toList, s ∈ g.symbols
  sound : base.Derives (meaning rule.lhs) (rule.rhs.toList.flatMap meaning)

theorem Pending.extend {rule : Rule} (pending : Pending base bound meaning g rule)
    (step : Extends bound meaning g later next) : Pending base bound later next rule where
  long := pending.long
  lhs := step.nonterminals rule.lhs pending.lhs
  declared s inside := step.symbols (pending.declared s inside)
  sound := by
    rw [step.same rule.lhs (Grammar.mem_symbols.mpr (.inl pending.lhs)),
      step.flatMap pending.declared]
    exact pending.sound

theorem mem_rules_replaceRule {draft : Draft} {rule other : Rule} {symbols : List Symbol} :
    other ∈ (draft.replaceRule rule symbols).grammar.rules ↔
      other = ⟨rule.lhs, Rhs.ofList symbols⟩ ∨ other ∈ draft.grammar.rules ∧ other ≠ rule := by
  rw [replaceRule, Grammar.mem_rules_addRule, Grammar.mem_rules_removeRule]

theorem same_replaceRule (draft : Draft) (rule : Rule) (symbols : List Symbol) :
    Grammar.SameDeclarations draft.grammar (draft.replaceRule rule symbols).grammar :=
  (Grammar.same_removeRule _ _ _).trans (Grammar.same_addRule _ _ _)

theorem extends_replaceRule {draft : Draft} {rule : Rule} (long : bound < rule.rhs.length)
    (symbols : List Symbol) :
    Extends bound meaning draft.grammar meaning (draft.replaceRule rule symbols).grammar := by
  have declarations := same_replaceRule draft rule symbols
  constructor
  · intro s inside
    rw [declarations.nonterminals]
    exact inside
  · exact declarations.terminals
  · exact declarations.start
  · intro s _
    rfl
  · intro other member small
    apply mem_rules_replaceRule.mpr
    refine .inr ⟨member, fun same => ?_⟩
    rw [same] at small
    omega

theorem simulates_replaceRule {draft : Draft} {rule : Rule} {symbols : List Symbol}
    (simulates : Simulates base meaning draft.grammar)
    (pending : Pending base bound meaning draft.grammar rule)
    (same : symbols.flatMap meaning = rule.rhs.toList.flatMap meaning)
    (derives : (draft.grammar.upTo bound).Derives symbols rule.rhs.toList) :
    Simulates base meaning (draft.replaceRule rule symbols).grammar := by
  have declarations := same_replaceRule draft rule symbols
  have step : Extends bound meaning draft.grammar meaning (draft.replaceRule rule symbols).grammar :=
    extends_replaceRule pending.long symbols
  refine ⟨?_, ?_, ?_, simulates.terminal_meaning, simulates.old_meaning, ?_, ?_⟩
  · rw [declarations.terminals, simulates.terminals]
  · rw [declarations.start, simulates.start]
  · intro s inside
    exact step.nonterminals s (simulates.nonterminals s inside)
  · intro other member
    rcases mem_rules_replaceRule.mp member with rfl | ⟨old, _⟩
    · rw [Rhs.toList_ofList, same]
      exact pending.sound
    · exact simulates.sound other old
  · intro other member
    apply (simulates.complete other member).simulate
    intro old inside
    by_cases removed : old = rule
    · -- the new rule leads back to the symbols of the one that is gone; short rules do it,
      -- so that the removed rule is not needed for its own replacement
      rw [removed]
      have first : (draft.replaceRule rule symbols).grammar.Derives [rule.lhs] (Rhs.ofList symbols).toList :=
        .of_rule (mem_rules_replaceRule.mpr (.inl rfl))
      rw [Rhs.toList_ofList] at first
      exact first.trans (step.upTo derives).of_upTo
    · exact .of_rule (mem_rules_replaceRule.mpr (.inr ⟨inside, removed⟩))

theorem Follows.replace {draft : Draft} (follows : draft.Follows base shape meaning) {rule : Rule}
    (pending : Pending base bound meaning draft.grammar rule) {symbols : List Symbol}
    (declared : ∀ s ∈ symbols, s ∈ draft.grammar.symbols) (shaped : shape ⟨rule.lhs, Rhs.ofList symbols⟩)
    (same : symbols.flatMap meaning = rule.rhs.toList.flatMap meaning)
    (derives : (draft.grammar.upTo bound).Derives symbols rule.rhs.toList) :
    (draft.replaceRule rule symbols).Follows base shape meaning := by
  have declarations := same_replaceRule draft rule symbols
  refine ⟨follows.toSupplied.of_symbols rfl declarations.symbols, ?_,
    simulates_replaceRule follows.simulates pending same derives, ?_⟩
  · apply follows.valid.of_same declarations
    · exact Grammar.pruned_addRule (Grammar.pruned_removeRule follows.valid.pruned _ _) _ _
    · intro other member
      rcases mem_rules_replaceRule.mp member with rfl | ⟨old, _⟩
      · refine ⟨pending.lhs, Rhs.ofList_ne_sequence_nil symbols, fun s inside => ?_⟩
        rw [Rhs.toList_ofList] at inside
        exact declared s inside
      · exact follows.valid.admits old
  · intro other member
    rcases mem_rules_replaceRule.mp member with rfl | ⟨old, _⟩
    · exact shaped
    · exact follows.shaped other old

/-! ### The rules of a stage -/

/-- The rules left to a stage: each can be rewritten, and no other rule is due. -/
structure Agenda (base : Grammar) (shape due : Rule → Prop) (bound : Nat) (meaning : Meaning)
    (g : Grammar) (rules : List Rule) : Prop where
  pending : ∀ rule ∈ rules, Pending base bound meaning g rule
  shaped : ∀ rule ∈ rules, shape rule
  complete : ∀ rule ∈ g.rules, due rule → rule ∈ rules

variable {due : Rule → Prop}

theorem Follows.agenda {draft : Draft} (follows : draft.Follows base shape meaning) {rules : List Rule}
    (long : ∀ rule ∈ rules, bound < rule.rhs.length) (subset : ∀ rule ∈ rules, rule ∈ draft.grammar.rules)
    (complete : ∀ rule ∈ draft.grammar.rules, due rule → rule ∈ rules) :
    Agenda base shape due bound meaning draft.grammar rules := by
  constructor
  · intro rule listed
    have admits := follows.valid.admits (subset rule listed)
    exact ⟨long rule listed, admits.lhs, admits.declared,
      follows.simulates.sound rule (subset rule listed)⟩
  · intro rule listed
    exact follows.shaped rule (subset rule listed)
  · exact complete

theorem Agenda.replace {rule : Rule} {rest : List Rule} {draft after : Draft} {symbols : List Symbol}
    (agenda : Agenda base shape due bound meaning draft.grammar (rule :: rest))
    (step : Introduces bound meaning draft.grammar later after.grammar)
    (long : ∀ rule, due rule → bound < rule.rhs.length)
    (done : ¬ due ⟨rule.lhs, Rhs.ofList symbols⟩) :
    Agenda base shape due bound later (after.replaceRule rule symbols).grammar rest := by
  have first := (agenda.pending rule List.mem_cons_self).long
  have extended : Extends bound meaning draft.grammar later (after.replaceRule rule symbols).grammar :=
    step.toExtends.trans (extends_replaceRule first symbols)
  constructor
  · intro other listed
    exact (agenda.pending other (List.mem_cons_of_mem rule listed)).extend extended
  · intro other listed
    exact agenda.shaped other (List.mem_cons_of_mem rule listed)
  · intro other member ready
    rcases mem_rules_replaceRule.mp member with rfl | ⟨kept, different⟩
    · exact absurd ready done
    · -- a rule that came with the names is too short to be due
      rcases step.new other kept with old | small
      · exact (List.mem_cons.mp (agenda.complete other old ready)).resolve_left different
      · exact absurd (long other ready) (Nat.not_lt.mpr small)

end Draft

end ContextFree
