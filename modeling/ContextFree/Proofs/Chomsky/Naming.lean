import ContextFree.Proofs.Chomsky.Letters
import ContextFree.Proofs.Chomsky.Start

/-! The rules after each stage, with the names that the stage gave.

The first stage copies the rules of the start symbol to a letter. The second one renames
the symbols of the mixed rules and leaves the other rules. The third one cuts long rules
in two; every part that it names has a rule of two symbols, the second of them a name
again.
-/

set_option autoImplicit false

namespace ContextFree

namespace Draft

variable {draft middle after : Draft}

/-! ### The start symbol -/

/-- The grammar is left as it is, or a letter takes over from its start symbol. -/
inductive Started (g : Grammar) (start : Symbol) : Draft → Prop where
  | same : g.occursOnRhs start = false → Started g start (ofGrammar g)
  | moved {letter : Symbol} {draft : Draft} : g.occursOnRhs start = true → letter ∉ g.symbols →
      Takes [letter] (ofGrammar g) draft → draft.grammar = takeOver g start letter → Started g start draft

/-- The first stage takes a letter for a start symbol on a right-hand side. -/
theorem ends_isolateStart (g : Grammar) (start : Symbol) :
    Ends (ofGrammar g) (g.occursOnRhs start).toNat (Started g start) ((ofGrammar g).isolateStart start) := by
  have grammar : (ofGrammar g).grammar = g := rfl
  unfold isolateStart
  rw [grammar]
  cases occurs : g.occursOnRhs start with
  | false =>
    rw [if_neg Bool.false_ne_true]
    exact .done (.same occurs)
  | true =>
    rw [if_pos rfl]
    cases letters : (ofGrammar g).supply.letters with
    | nil =>
      rw [fresh_eq_error letters]
      exact .of_no_letter letters
    | cons letter rest =>
      obtain ⟨after, taken, takes, grammar⟩ := takes_fresh letters
      have listed : letter ∈ (ofGrammar g).supply.letters := by
        rw [letters]
        exact List.mem_cons_self
      obtain ⟨nonterminals, terminals⟩ := same_takeOver g start letter
      rw [taken]
      refine .done (.moved occurs ((supplied_ofGrammar g).letters letter listed).2 ?_ ?_)
      all_goals simp only [grammar]
      · exact ⟨takes.supply, takes.introduced, nonterminals, terminals⟩
      · rfl

/-! ### Terminals -/

section Terminals

variable {known new more : Glossary Symbol} {terminals : SymbolSet} {s : Symbol} {form rest : List Symbol}

def rename (known : Glossary Symbol) (s : Symbol) : Symbol :=
  (nameOf? known s).getD s

def renamed (known : Glossary Symbol) (rule : Rule) : Rule :=
  ⟨rule.lhs, Rhs.ofList (rule.rhs.toList.map (rename known))⟩

theorem rename_of_not_mem (absent : s ∉ keys known) : rename known s = s := by
  rw [rename, nameOf?_eq_none.mpr absent, Option.getD_none]

def terminalsIn (terminals : SymbolSet) (form : List Symbol) : Finset Symbol :=
  (form.filter terminals.contains).toFinset

theorem mem_terminalsIn : s ∈ terminalsIn terminals form ↔ s ∈ form ∧ s ∈ terminals := by
  rw [terminalsIn, List.mem_toFinset, List.mem_filter]
  rfl

theorem terminalsIn_append (terminals : SymbolSet) (form rest : List Symbol) :
    terminalsIn terminals (form ++ rest) = terminalsIn terminals form ∪ terminalsIn terminals rest := by
  rw [terminalsIn, List.filter_append, List.toFinset_append, ← terminalsIn, ← terminalsIn]

def Keyed (terminals : SymbolSet) (known : Glossary Symbol) : Prop :=
  ∀ t ∈ keys known, t ∈ terminals

theorem rename_append (named : s ∈ terminals → s ∈ keys known) (keyed : Keyed terminals (known ++ new)) :
    rename (known ++ new) s = rename known s := by
  -- once a terminal has its name, later entries do not change it
  by_cases terminal : s ∈ terminals
  · rw [rename, rename, nameOf?_append]
    cases found : nameOf? known s with
    | none => exact absurd (named terminal) (nameOf?_eq_none.mp found)
    | some name => rfl
  · have absent : s ∉ keys (known ++ new) := fun listed => terminal (keyed s listed)
    have before : s ∉ keys known := by
      rw [keys_append, Finset.mem_union, not_or] at absent
      exact absent.1
    rw [rename_of_not_mem absent, rename_of_not_mem before]

theorem Enters.keyed (enters : Enters (terminalsIn terminals form) known new draft after)
    (keyed : Keyed terminals known) : Keyed terminals (known ++ new) := by
  intro t named
  rw [enters.keys_append, Finset.mem_union] at named
  rcases named with old | wanted
  · exact keyed t old
  · exact (mem_terminalsIn.mp wanted).2

/-- The terminals of a form got names, and each new name a rule of its own. -/
structure Wrapped (form : List Symbol) (known new : Glossary Symbol) (draft after : Draft) : Prop extends
    Enters (terminalsIn draft.grammar.terminals form) known new draft after where
  rules : ∀ rule, rule ∈ after.grammar.rules ↔
    rule ∈ draft.grammar.rules ∨ ∃ entry ∈ new, rule = ⟨entry.2, Rhs.ofList [entry.1]⟩

theorem Wrapped.nothing (named : terminalsIn draft.grammar.terminals form ⊆ keys known) :
    Wrapped form known [] draft draft := by
  refine ⟨.nothing named draft, fun rule => ?_⟩
  simp

theorem Wrapped.trans (first : Wrapped form known new draft middle)
    (second : Wrapped rest (known ++ new) more middle after) :
    Wrapped (form ++ rest) known (new ++ more) draft after := by
  have enters := second.toEnters
  rw [first.takes.terminals] at enters
  constructor
  · rw [terminalsIn_append]
    exact first.toEnters.trans enters
  · intro rule
    rw [second.rules, first.rules, or_assoc]
    simp only [List.mem_append, or_and_right, exists_or]

theorem wrap_eq_enter (draft : Draft) (known : Glossary Symbol) (terminal : Symbol) :
    draft.wrap known terminal = draft.enter known terminal [terminal] := by
  unfold wrap enter
  cases known.find? fun entry => decide (entry.1 = terminal) <;> rfl

theorem ends_wrap (draft : Draft) (known : Glossary Symbol) (s : Symbol)
    (keyed : Keyed draft.grammar.terminals known) :
    Ends draft (terminalsIn draft.grammar.terminals [s] \ keys known).card
      (fun result => ∃ new, result.2.2 = known ++ new ∧ Wrapped [s] known new draft result.2.1 ∧
        result.1 = rename (known ++ new) s)
      (if draft.grammar.terminals.contains s then draft.wrap known s else .ok (s, draft, known)) := by
  cases kind : draft.grammar.terminals.contains s with
  | true =>
    have only : terminalsIn draft.grammar.terminals [s] = {s} := by
      rw [terminalsIn, List.filter_cons_of_pos kind]
      rfl
    rw [if_pos rfl, only, wrap_eq_enter]
    apply (ends_enter draft known s [s]).imp
    rintro ⟨name, after, others⟩ ⟨new, grown, enters, named, rules⟩
    refine ⟨new, grown, ⟨?_, fun rule => ?_⟩, ?_⟩
    · rw [only]
      exact enters
    · rw [rules]
      apply or_congr_right
      refine exists_congr fun entry => and_congr_right fun listed => ?_
      -- the only new entry is one for the terminal
      have key : entry.1 ∈ keys new := mem_keys.mpr ⟨entry.2, listed⟩
      rw [enters.fills, Finset.mem_sdiff, Finset.mem_singleton] at key
      rw [key.1]
    · rw [rename, named, Option.getD_some]
  | false =>
    have nothing : terminalsIn draft.grammar.terminals [s] = ∅ := by
      rw [terminalsIn, List.filter_cons_of_neg (by rw [kind]; exact Bool.false_ne_true)]
      rfl
    rw [if_neg Bool.false_ne_true]
    refine .done ⟨[], (List.append_nil known).symm, .nothing ?_, ?_⟩
    · rw [nothing]
      exact Finset.empty_subset _
    · rw [List.append_nil, rename_of_not_mem]
      intro named
      have terminal := keyed s named
      rw [SymbolSet.mem_iff, kind] at terminal
      cases terminal

theorem wrapAll_cons_eq (draft : Draft) (known : Glossary Symbol) (s : Symbol) (rest : List Symbol) :
    draft.wrapAll known (s :: rest) =
      (if draft.grammar.terminals.contains s then draft.wrap known s else .ok (s, draft, known)) >>=
        fun first => first.2.1.wrapAll first.2.2 rest >>= fun second =>
          .ok (first.1 :: second.1, second.2.1, second.2.2) := by
  rw [wrapAll]
  split <;> rfl

theorem ends_wrapAll (draft : Draft) (known : Glossary Symbol) (form : List Symbol)
    (keyed : Keyed draft.grammar.terminals known) :
    Ends draft (terminalsIn draft.grammar.terminals form \ keys known).card
      (fun result => ∃ new, result.2.2 = known ++ new ∧ Wrapped form known new draft result.2.1 ∧
        result.1 = form.map (rename (known ++ new)))
      (draft.wrapAll known form) := by
  induction form generalizing draft known with
  | nil => exact .done ⟨[], (List.append_nil known).symm, .nothing (Finset.empty_subset _), rfl⟩
  | cons s rest ih =>
    have split : terminalsIn draft.grammar.terminals (s :: rest) =
        terminalsIn draft.grammar.terminals [s] ∪ terminalsIn draft.grammar.terminals rest :=
      terminalsIn_append _ [s] rest
    rw [wrapAll_cons_eq, split]
    apply (ends_wrap draft known s keyed).andThen
    rintro ⟨head, middle, _⟩ ⟨new, rfl, first, rfl⟩
    have after_first := first.keyed keyed
    have run := ih middle (known ++ new) (by rwa [first.takes.terminals])
    rw [first.takes.terminals] at run
    refine (run.following first.toEnters).bind le_rfl ?_
    rintro ⟨tail, after, _⟩ _ ⟨more, rfl, second, rfl⟩
    have whole := first.trans second
    refine .done ⟨new ++ more, List.append_assoc _ _ _, whole, ?_⟩
    have final := whole.keyed keyed
    rw [← List.append_assoc] at final ⊢
    have named : s ∈ draft.grammar.terminals → s ∈ keys (known ++ new) := by
      intro terminal
      rw [first.keys_append]
      exact Finset.mem_union_right _ (mem_terminalsIn.mpr ⟨List.mem_singleton_self s, terminal⟩)
    rw [List.map_cons, rename_append named final]

/-- Terminals are named by other symbols, also by those to come. -/
structure Wrapping (known : Glossary Symbol) (draft : Draft) : Prop where
  keyed : Keyed draft.grammar.terminals known
  names : ∀ entry ∈ known, entry.2 ∉ draft.grammar.terminals
  letters : ∀ letter ∈ draft.supply.letters, letter ∉ draft.grammar.terminals

theorem Wrapping.enter (wrapping : Wrapping known draft)
    (enters : Enters (terminalsIn draft.grammar.terminals form) known new draft after) :
    Wrapping (known ++ new) after := by
  have letters := wrapping.letters
  rw [enters.takes.supply] at letters
  constructor
  all_goals rw [enters.takes.terminals]
  · exact enters.keyed wrapping.keyed
  · intro entry listed
    rcases List.mem_append.mp listed with old | fresh
    · exact wrapping.names entry old
    · exact letters entry.2 (List.mem_append_left _ (List.mem_map_of_mem fresh))
  · intro letter left
    exact letters letter (List.mem_append_right _ left)

theorem Wrapping.rename_not_terminal (wrapping : Wrapping known draft)
    (named : s ∈ draft.grammar.terminals → s ∈ keys known) : rename known s ∉ draft.grammar.terminals := by
  rw [rename]
  cases found : nameOf? known s with
  | none =>
    intro terminal
    exact nameOf?_eq_none.mp found (named terminal)
  | some name => exact wrapping.names (s, name) (mem_of_nameOf? found)

def symbolsOf (rules : List Rule) : List Symbol :=
  rules.flatMap fun rule => rule.rhs.toList

/-- The rules of a list were renamed, and each new name has a rule of its own. -/
structure Reworded (rules : List Rule) (known new : Glossary Symbol) (draft after : Draft) : Prop extends
    Enters (terminalsIn draft.grammar.terminals (symbolsOf rules)) known new
      draft after where
  rules : ∀ rule, rule ∈ after.grammar.rules ↔
    rule ∈ draft.grammar.rules ∧ rule ∉ rules ∨ (∃ old ∈ rules, rule = renamed (known ++ new) old) ∨
      ∃ entry ∈ new, rule = ⟨entry.2, Rhs.ofList [entry.1]⟩

theorem Reworded.nothing (draft : Draft) (known : Glossary Symbol) : Reworded [] known [] draft draft := by
  refine ⟨.nothing (Finset.empty_subset _) draft, fun rule => ?_⟩
  simp

def Mixed (terminals : SymbolSet) (rule : Rule) : Prop :=
  2 ≤ rule.rhs.length ∧ ∃ s ∈ rule.rhs.toList, s ∈ terminals

theorem Wrapping.renamed_not_mixed {rule : Rule} (wrapping : Wrapping known draft)
    (named : terminalsIn draft.grammar.terminals rule.rhs.toList ⊆ keys known) :
    ¬ Mixed draft.grammar.terminals (renamed known rule) := by
  rintro ⟨_, name, inside, terminal⟩
  rw [renamed, Rhs.toList_ofList] at inside
  obtain ⟨s, old, rfl⟩ := List.mem_map.mp inside
  exact wrapping.rename_not_terminal (fun found => named (mem_terminalsIn.mpr ⟨old, found⟩)) terminal

theorem renamed_append {rule : Rule} (named : terminalsIn terminals rule.rhs.toList ⊆ keys known)
    (keyed : Keyed terminals (known ++ new)) : renamed (known ++ new) rule = renamed known rule := by
  have same : rule.rhs.toList.map (rename (known ++ new)) = rule.rhs.toList.map (rename known) :=
    List.map_congr_left fun s inside =>
      rename_append (fun terminal => named (mem_terminalsIn.mpr ⟨inside, terminal⟩)) keyed
  rw [renamed, same, ← renamed]

theorem Reworded.cons {rule : Rule} {rules : List Rule} (wrapping : Wrapping known draft)
    (mixed : ∀ old ∈ rule :: rules, Mixed draft.grammar.terminals old)
    (first : Wrapped rule.rhs.toList known new draft middle)
    (second : Reworded rules (known ++ new) more
      (middle.replaceRule rule (rule.rhs.toList.map (rename (known ++ new)))) after) :
    Reworded (rule :: rules) known (new ++ more) draft after := by
  have replaced := first.toEnters.replaceRule rule (rule.rhs.toList.map (rename (known ++ new)))
  have rest := second.toEnters
  rw [replaced.takes.terminals] at rest
  have enters := replaced.trans rest
  rw [← terminalsIn_append] at enters
  -- the names of the first rule are final
  have named : terminalsIn draft.grammar.terminals rule.rhs.toList ⊆ keys (known ++ new) := by
    rw [first.keys_append]
    exact Finset.subset_union_right
  have keyed := enters.keyed wrapping.keyed
  rw [← List.append_assoc] at keyed
  have final := renamed_append named keyed
  have done : renamed (known ++ new) rule ∉ rules := by
    intro listed
    have wrapping := wrapping.enter first.toEnters
    rw [← first.takes.terminals] at named mixed
    exact wrapping.renamed_not_mixed named (mixed _ (List.mem_cons_of_mem rule listed))
  have short : ∀ entry ∈ new, (⟨entry.2, Rhs.ofList [entry.1]⟩ : Rule) ∉ rule :: rules := by
    intro entry _ listed
    exact absurd (mixed _ listed).1 (Nat.not_succ_le_self 1)
  refine ⟨enters, fun found => ?_⟩
  have replacement : (⟨rule.lhs, Rhs.ofList (rule.rhs.toList.map (rename (known ++ new)))⟩ : Rule) =
      renamed (known ++ new) rule := rfl
  rw [second.rules, mem_rules_replaceRule, first.rules, replacement, ← List.append_assoc]
  constructor
  · rintro (⟨rfl | ⟨old | ⟨entry, listed, rfl⟩, other⟩, left⟩ | ⟨old, listed, rfl⟩ | ⟨entry, listed, rfl⟩)
    · exact .inr (.inl ⟨rule, List.mem_cons_self, final.symm⟩)
    · exact .inl ⟨old, List.not_mem_cons_of_ne_of_not_mem other left⟩
    · exact .inr (.inr ⟨entry, List.mem_append_left more listed, rfl⟩)
    · exact .inr (.inl ⟨old, List.mem_cons_of_mem rule listed, rfl⟩)
    · exact .inr (.inr ⟨entry, List.mem_append_right new listed, rfl⟩)
  · rintro (⟨old, left⟩ | ⟨old, listed, rfl⟩ | ⟨entry, listed, rfl⟩)
    · rw [List.mem_cons, not_or] at left
      exact .inl ⟨.inr ⟨.inl old, left.1⟩, left.2⟩
    · rcases List.mem_cons.mp listed with rfl | later
      · rw [final]
        exact .inl ⟨.inl rfl, done⟩
      · exact .inr (.inl ⟨old, later, rfl⟩)
    · rcases List.mem_append.mp listed with early | late
      · have other := short entry early
        rw [List.mem_cons, not_or] at other
        exact .inl ⟨.inr ⟨.inr ⟨entry, early, rfl⟩, other.1⟩, other.2⟩
      · exact .inr (.inr ⟨entry, late, rfl⟩)

theorem ends_wrapRules (draft : Draft) (known : Glossary Symbol) (rules : List Rule)
    (wrapping : Wrapping known draft) (mixed : ∀ rule ∈ rules, Mixed draft.grammar.terminals rule) :
    Ends draft (terminalsIn draft.grammar.terminals (symbolsOf rules) \ keys known).card
      (fun after => ∃ new, Reworded rules known new draft after) (draft.wrapRules known rules) := by
  induction rules generalizing draft known with
  | nil => exact .done ⟨[], .nothing draft known⟩
  | cons rule rules ih =>
    rw [symbolsOf, List.flatMap_cons, terminalsIn_append, wrapRules]
    apply (ends_wrapAll draft known rule.rhs.toList wrapping.keyed).andThen
    rintro ⟨names, middle, _⟩ ⟨new, rfl, first, rfl⟩
    have replaced := first.toEnters.replaceRule rule (rule.rhs.toList.map (rename (known ++ new)))
    have left : ∀ old ∈ rules, Mixed draft.grammar.terminals old := fun old listed =>
      mixed old (List.mem_cons_of_mem rule listed)
    rw [← replaced.takes.terminals] at left
    have run := ih _ (known ++ new) (wrapping.enter replaced) left
    rw [replaced.takes.terminals] at run
    apply (run.following replaced).imp
    rintro after ⟨more, second⟩
    exact ⟨new ++ more, .cons wrapping mixed first second⟩

theorem wrapping_wrappers (valid : draft.grammar.Valid) (supplied : draft.Supplied) :
    Wrapping (wrappers draft.grammar) draft := by
  have found {t name : Symbol} (listed : (t, name) ∈ wrappers draft.grammar) :
      t ∈ draft.grammar.terminals ∧ name ∈ draft.grammar.nonterminals := by
    obtain ⟨lhs, declared, found⟩ := List.mem_filterMap.mp listed
    obtain ⟨terminal, found, same⟩ := Option.map_eq_some_iff.mp found
    cases same
    exact ⟨(wrapped?_eq_some.mp found).2.1, SymbolSet.mem_toList.mp declared⟩
  constructor
  · intro t named
    obtain ⟨name, listed⟩ := mem_keys.mp named
    exact (found listed).1
  · intro entry listed
    exact valid.not_terminal (found listed).2
  · intro letter left terminal
    exact (supplied.letters letter left).2 (Grammar.mem_symbols.mpr (.inr terminal))

def mixedRules (g : Grammar) : List Rule :=
  g.rules.filter (isMixed g)

theorem mem_mixedRules {g : Grammar} {rule : Rule} :
    rule ∈ mixedRules g ↔ rule ∈ g.rules ∧ Mixed g.terminals rule := by
  rw [mixedRules, List.mem_filter, isMixed_iff, Mixed]

/-- The second stage takes a letter for every terminal of a mixed rule that has no
wrapper. -/
theorem ends_isolateTerminals (valid : draft.grammar.Valid) (supplied : draft.Supplied) :
    Ends draft (terminalsIn draft.grammar.terminals (symbolsOf (mixedRules draft.grammar)) \
        keys (wrappers draft.grammar)).card
      (fun after => ∃ new, Reworded (mixedRules draft.grammar) (wrappers draft.grammar) new draft after)
      draft.isolateTerminals := by
  apply ends_wrapRules draft _ _ (wrapping_wrappers valid supplied)
  intro rule listed
  exact (mem_mixedRules.mp listed).2

/-- A rule of two symbols or more is a renamed one. -/
theorem Reworded.mem_rules_iff (valid : draft.grammar.Valid) (keyed : Keyed draft.grammar.terminals known)
    (reworded : Reworded (mixedRules draft.grammar) known new draft after)
    {rule : Rule} (long : 2 ≤ rule.rhs.length) :
    rule ∈ after.grammar.rules ↔ ∃ old ∈ draft.grammar.rules, rule = renamed (known ++ new) old := by
  have all := reworded.keyed keyed
  have unmixed : ∀ old ∈ draft.grammar.rules, ¬ Mixed draft.grammar.terminals old → 2 ≤ old.rhs.length →
      renamed (known ++ new) old = old := by
    intro old member unmixed long
    have itself : ∀ s ∈ old.rhs.toList, rename (known ++ new) s = id s := by
      intro s inside
      exact rename_of_not_mem fun named => unmixed ⟨long, s, inside, all s named⟩
    rw [renamed, List.map_congr_left itself, List.map_id, Rhs.ofList_toList (valid.admits member).proper]
  rw [reworded.rules]
  constructor
  · rintro (⟨member, unlisted⟩ | ⟨old, listed, rfl⟩ | ⟨entry, _, rfl⟩)
    · have other : ¬ Mixed draft.grammar.terminals rule := fun mixed =>
        unlisted (mem_mixedRules.mpr ⟨member, mixed⟩)
      exact ⟨rule, member, (unmixed rule member other long).symm⟩
    · exact ⟨old, (mem_mixedRules.mp listed).1, rfl⟩
    · exact absurd long (Nat.not_succ_le_self 1)
  · rintro ⟨old, member, rfl⟩
    have long : 2 ≤ old.rhs.length := by
      rwa [renamed, Rhs.length, Rhs.toList_ofList, List.length_map] at long
    by_cases mixed : Mixed draft.grammar.terminals old
    · exact .inr (.inl ⟨old, mem_mixedRules.mpr ⟨member, mixed⟩, rfl⟩)
    · rw [unmixed old member mixed long]
      exact .inl ⟨member, fun listed => mixed (mem_mixedRules.mp listed).2⟩

end Terminals

/-! ### Suffixes -/

section Suffixes

variable {known new more : Glossary (List Symbol)} {s name : Symbol} {suffix : List Symbol}

def longSuffixes (form : List Symbol) : List (List Symbol) :=
  form.tails.filter fun suffix => decide (2 ≤ suffix.length)

theorem mem_longSuffixes {form : List Symbol} :
    suffix ∈ longSuffixes form ↔ suffix <:+ form ∧ 2 ≤ suffix.length := by
  rw [longSuffixes, List.mem_filter, List.mem_tails, decide_eq_true_eq]

theorem longSuffixes_cons_cons (s next : Symbol) (rest : List Symbol) :
    longSuffixes (s :: next :: rest) = (s :: next :: rest) :: longSuffixes (next :: rest) := by
  rw [longSuffixes, List.tails_cons, List.filter_cons_of_pos (by simp), ← longSuffixes]

/-- The name of a suffix. A single symbol is its own. -/
def suffixName? (known : Glossary (List Symbol)) : List Symbol → Option Symbol
  | [s] => some s
  | suffix => nameOf? known suffix

theorem suffixName?_of_long (known : Glossary (List Symbol)) (long : 2 ≤ suffix.length) :
    suffixName? known suffix = nameOf? known suffix := by
  unfold suffixName?
  split
  · exact absurd long (Nat.not_succ_le_self 1)
  · rfl

theorem suffixName?_append (found : suffixName? known suffix = some name) (new : Glossary (List Symbol)) :
    suffixName? (known ++ new) suffix = some name := by
  unfold suffixName? at found ⊢
  split at found
  · exact found
  · rw [nameOf?_append, found, Option.some_or]

/-- A suffix with a name has a rule of two symbols: its first one, and the name of what
follows. -/
def Chained (known : Glossary (List Symbol)) (g : Grammar) : Prop :=
  ∀ entry ∈ known, ∃ s tail name, entry.1 = s :: tail ∧ suffixName? known tail = some name ∧
    (⟨entry.2, Rhs.ofList [s, name]⟩ : Rule) ∈ g.rules

theorem nameSuffix_cons_eq (draft : Draft) (known : Glossary (List Symbol)) (s next : Symbol)
    (rest : List Symbol) :
    draft.nameSuffix known s (next :: rest) =
      draft.nameSuffix known next rest >>= fun tail =>
        tail.2.1.enter tail.2.2 (s :: next :: rest) [s, tail.1] := by
  rw [nameSuffix]
  apply bind_congr
  rintro ⟨tail, middle, others⟩
  unfold enter
  simp only
  cases others.find? fun entry => decide (entry.1 = s :: next :: rest) <;> rfl

/-- The suffix and the longer ones inside it have names, and no rule is lost. -/
structure Suffixed (form : List Symbol) (known new : Glossary (List Symbol)) (draft after : Draft) : Prop
    extends Enters (longSuffixes form).toFinset known new draft after where
  chained : Chained (known ++ new) after.grammar
  kept : ∀ rule ∈ draft.grammar.rules, rule ∈ after.grammar.rules

theorem ends_nameSuffix (draft : Draft) (known : Glossary (List Symbol)) (s : Symbol) (rest : List Symbol)
    (chained : Chained known draft.grammar) :
    Ends draft ((longSuffixes (s :: rest)).toFinset \ keys known).card
      (fun result => ∃ new, result.2.2 = known ++ new ∧ Suffixed (s :: rest) known new draft result.2.1 ∧
        suffixName? (known ++ new) (s :: rest) = some result.1)
      (draft.nameSuffix known s rest) := by
  induction rest generalizing s with
  | nil =>
    refine .done ⟨[], (List.append_nil known).symm, ⟨.nothing (Finset.empty_subset _) draft, ?_, ?_⟩, rfl⟩
    · rwa [List.append_nil]
    · exact fun rule member => member
  | cons next rest ih =>
    have split : (longSuffixes (s :: next :: rest)).toFinset =
        (longSuffixes (next :: rest)).toFinset ∪ {s :: next :: rest} := by
      rw [longSuffixes_cons_cons, List.toFinset_cons, Finset.insert_eq, Finset.union_comm]
    rw [nameSuffix_cons_eq, split]
    apply (ih next).andThen
    rintro ⟨tail, middle, _⟩ ⟨new, rfl, first, named⟩
    have run := ends_enter middle (known ++ new) (s :: next :: rest) [s, tail]
    apply (run.following first.toEnters).imp
    rintro ⟨name, after, _⟩ ⟨more, rfl, second, whole, rules⟩
    have enters := first.toEnters.trans second
    rw [← split] at enters
    have kept : ∀ rule ∈ middle.grammar.rules, rule ∈ after.grammar.rules := fun rule member =>
      (rules rule).mpr (.inl member)
    refine ⟨new ++ more, List.append_assoc _ _ _, ⟨enters, ?_, ?_⟩, ?_⟩
    · rw [← List.append_assoc]
      intro entry listed
      rcases List.mem_append.mp listed with old | fresh
      · obtain ⟨head, rest, last, shape, found, member⟩ := first.chained entry old
        exact ⟨head, rest, last, shape, suffixName?_append found more, kept _ member⟩
      · -- a new entry is one for the whole suffix
        have key : entry.1 ∈ keys more := mem_keys.mpr ⟨entry.2, fresh⟩
        rw [second.fills, Finset.mem_sdiff, Finset.mem_singleton] at key
        exact ⟨s, next :: rest, tail, key.1, suffixName?_append named more,
          (rules _).mpr (.inr ⟨entry, fresh, rfl⟩)⟩
    · exact fun rule member => kept rule (first.kept rule member)
    · rw [← List.append_assoc]
      exact whole

/-- The proper suffixes of two symbols or more. -/
def innerSuffixes (forms : List (List Symbol)) : Finset (List Symbol) :=
  (forms.flatMap fun form => longSuffixes form.tail).toFinset

theorem mem_innerSuffixes {forms : List (List Symbol)} :
    suffix ∈ innerSuffixes forms ↔ ∃ form ∈ forms, suffix ∈ longSuffixes form.tail := by
  rw [innerSuffixes, List.mem_toFinset, List.mem_flatMap]

theorem innerSuffixes_cons (first : Symbol) (suffix : List Symbol) (forms : List (List Symbol)) :
    innerSuffixes ((first :: suffix) :: forms) = (longSuffixes suffix).toFinset ∪ innerSuffixes forms := by
  rw [innerSuffixes, List.flatMap_cons, List.toFinset_append, ← innerSuffixes, List.tail_cons]

/-- The rules of a list were cut after their first symbol, and no other rule is lost. -/
structure Cut (rules : List Rule) (known new : Glossary (List Symbol)) (draft after : Draft) : Prop extends
    Enters (innerSuffixes (rules.map fun rule => rule.rhs.toList)) known new draft after where
  chained : Chained (known ++ new) after.grammar
  kept : ∀ rule ∈ draft.grammar.rules, rule ∉ rules → rule ∈ after.grammar.rules
  cut : ∀ rule ∈ rules, ∃ first rest name, rule.rhs.toList = first :: rest ∧
    suffixName? (known ++ new) rest = some name ∧
      (⟨rule.lhs, Rhs.ofList [first, name]⟩ : Rule) ∈ after.grammar.rules

theorem Chained.replaceRule {rule : Rule} (chained : Chained known draft.grammar)
    (long : 2 < rule.rhs.length) (symbols : List Symbol) :
    Chained known (draft.replaceRule rule symbols).grammar := by
  intro entry listed
  obtain ⟨s, tail, name, shape, found, member⟩ := chained entry listed
  refine ⟨s, tail, name, shape, found, mem_rules_replaceRule.mpr (.inr ⟨member, ?_⟩)⟩
  rintro rfl
  exact Nat.lt_irrefl 2 long

theorem Cut.cons {rule : Rule} {rules : List Rule} {first last : Symbol}
    (long : ∀ old ∈ rule :: rules, 2 < old.rhs.length) (shape : rule.rhs.toList = first :: suffix)
    (suffixed : Suffixed suffix known new draft middle)
    (named : suffixName? (known ++ new) suffix = some last)
    (rest : Cut rules (known ++ new) more (middle.replaceRule rule [first, last]) after) :
    Cut (rule :: rules) known (new ++ more) draft after := by
  have enters := (suffixed.toEnters.replaceRule rule [first, last]).trans rest.toEnters
  -- a rule of two symbols is not cut any more
  have short : (⟨rule.lhs, Rhs.ofList [first, last]⟩ : Rule) ∉ rules := by
    intro listed
    exact Nat.lt_irrefl 2 (long _ (List.mem_cons_of_mem rule listed))
  refine ⟨?_, ?_, ?_, ?_⟩
  · rw [List.map_cons, shape, innerSuffixes_cons]
    exact enters
  · rw [← List.append_assoc]
    exact rest.chained
  · intro other member unlisted
    rw [List.mem_cons, not_or] at unlisted
    refine rest.kept other (mem_rules_replaceRule.mpr (.inr ?_)) unlisted.2
    exact ⟨suffixed.kept other member, unlisted.1⟩
  · intro other listed
    rw [← List.append_assoc]
    rcases List.mem_cons.mp listed with rfl | later
    · exact ⟨first, suffix, last, shape, suffixName?_append named more,
        rest.kept _ (mem_rules_replaceRule.mpr (.inl rfl)) short⟩
    · exact rest.cut other later

theorem ends_splitRules (draft : Draft) (known : Glossary (List Symbol)) (rules : List Rule)
    (chained : Chained known draft.grammar) (long : ∀ rule ∈ rules, 2 < rule.rhs.length) :
    Ends draft (innerSuffixes (rules.map fun rule => rule.rhs.toList) \ keys known).card
      (fun after => ∃ new, Cut rules known new draft after) (draft.splitRules known rules) := by
  induction rules generalizing draft known with
  | nil =>
    refine .done ⟨[], ⟨.nothing (Finset.empty_subset _) draft, ?_, ?_, ?_⟩⟩
    · rwa [List.append_nil]
    · exact fun rule member _ => member
    · intro rule impossible
      cases impossible
  | cons rule rules ih =>
    have left : ∀ old ∈ rules, 2 < old.rhs.length := fun old listed =>
      long old (List.mem_cons_of_mem rule listed)
    have above := long rule List.mem_cons_self
    rw [splitRules]
    split
    · rename_i first second rest shape
      rw [List.map_cons, shape, innerSuffixes_cons]
      apply (ends_nameSuffix draft known second rest chained).andThen
      rintro ⟨name, middle, _⟩ ⟨new, rfl, suffixed, named⟩
      have run := ih _ (known ++ new) (suffixed.chained.replaceRule above [first, name]) left
      apply (run.following (suffixed.toEnters.replaceRule rule [first, name])).imp
      rintro after ⟨more, cut⟩
      exact ⟨new ++ more, .cons long shape suffixed named cut⟩
    · rename_i other
      exfalso
      rw [Rhs.length] at above
      rcases shape : rule.rhs.toList with _ | ⟨first, _ | ⟨second, rest⟩⟩
      · simp [shape] at above
      · simp [shape] at above
      · exact other first second rest shape

def longRules (g : Grammar) : List Rule :=
  g.rules.filter fun rule => decide (2 < rule.rhs.length)

theorem mem_longRules {g : Grammar} {rule : Rule} :
    rule ∈ longRules g ↔ rule ∈ g.rules ∧ 2 < rule.rhs.length := by
  rw [longRules, List.mem_filter, decide_eq_true_eq]

/-- The third stage takes a letter for every inner suffix. -/
theorem ends_binarize (draft : Draft) :
    Ends draft (innerSuffixes ((longRules draft.grammar).map fun rule => rule.rhs.toList)).card
      (fun after => ∃ new, Cut (longRules draft.grammar) [] new draft after) draft.binarize := by
  have run := ends_splitRules draft [] (longRules draft.grammar)
    (fun entry impossible => nomatch impossible) (fun rule listed => (mem_longRules.mp listed).2)
  rwa [keys_nil, Finset.sdiff_empty] at run

end Suffixes

end Draft

end ContextFree
