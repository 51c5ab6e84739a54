import ContextFree.Proofs.Chomsky.Naming

/-! Grammars without a symbol that is of no use, from stage to stage.

In such a grammar every nonterminal has a word and the start symbol leads to every symbol.
A stage keeps this where the old rules are derivations of the new grammar and the letters
stand for old symbols: then old symbols keep their words and their ways, and only the ways
to the letters are new. The first stage takes the empty word from the old start symbol, so
that it needs another word of its own.
-/

set_option autoImplicit false

namespace ContextFree

open Relation (ReflTransGen)

namespace Grammar

variable {g other : Grammar} {start s : Symbol}

/-- The target stands on a right-hand side of the source. -/
def Leads (g : Grammar) (source target : Symbol) : Prop :=
  ∃ rhs, (⟨source, rhs⟩ : Rule) ∈ g.rules ∧ target ∈ rhs.toList

/-- Every nonterminal has a word, and there is a way from the start to every symbol. -/
structure Connected (g : Grammar) (start : Symbol) : Prop where
  words : ∀ s ∈ g.nonterminals, ∃ word, g.Generates s word
  ways : ∀ s ∈ g.symbols, ReflTransGen g.Leads start s

theorem Derives.exists_way {first last : List Symbol} (derives : g.Derives first last) (inside : s ∈ last) :
    ∃ t ∈ first, ReflTransGen g.Leads t s := by
  induction derives with
  | refl => exact ⟨s, inside, .refl⟩
  | step expands _ ih =>
    obtain ⟨t, found, way⟩ := ih inside
    cases expands with
    | @applied rule left right member =>
      rcases List.mem_append.mp found with before | found
      · exact ⟨t, List.mem_append_left _ before, way⟩
      · rcases List.mem_append.mp found with below | after
        · exact ⟨rule.lhs, List.mem_append_right _ List.mem_cons_self, way.head ⟨rule.rhs, member, below⟩⟩
        · exact ⟨t, List.mem_append_right _ (List.mem_cons_of_mem _ after), way⟩

theorem Derives.way {source : Symbol} {form : List Symbol} (derives : g.Derives [source] form)
    (inside : s ∈ form) : ReflTransGen g.Leads source s := by
  obtain ⟨t, same, way⟩ := derives.exists_way inside
  rwa [List.mem_singleton.mp same] at way

/-! ### Useful symbols -/

theorem Reaches.productive (productive : start ∈ g.productive) (reaches : g.Reaches start s) :
    s ∈ g.productive := by
  rcases reaches.cases_tail with rfl | ⟨_, _, rhs, _, all, inside⟩
  · exact productive
  · exact all s inside

/-- A grammar is connected if and only if it has a word and no useless symbol. -/
theorem connected_iff (valid : g.Valid) (declared : start ∈ g.nonterminals) :
    g.Connected start ↔
      start ∈ g.productive ∧ (Usefulness.analyze g start).findsUseless g = false := by
  rw [findsUseless_eq_false valid]
  constructor
  · intro connected
    have productive : ∀ s ∈ g.symbols, s ∈ g.productive := by
      intro s declared
      rw [mem_productive_iff valid]
      rcases mem_symbols.mp declared with nonterminal | terminal
      · exact connected.words s nonterminal
      · exact ⟨[s], .of_terminal terminal⟩
    have first := productive start (mem_symbols.mpr (.inl declared))
    refine ⟨first, fun s declared => ?_, .inl first⟩
    refine ReflTransGen.mono ?_ _ _ (connected.ways s declared)
    rintro source target ⟨rhs, member, inside⟩
    exact ⟨rhs, member, fun t found => productive t ((valid.admits member).declared t found), inside⟩
  · rintro ⟨productive, reached, _⟩
    constructor
    · intro s nonterminal
      have reaches := reached s (mem_symbols.mpr (.inl nonterminal))
      exact (mem_productive_iff valid).mp (reaches.productive productive)
    · intro s declared
      refine ReflTransGen.mono ?_ _ _ (reached s declared)
      rintro source target ⟨rhs, member, _, inside⟩
      exact ⟨rhs, member, inside⟩

theorem Connected.extend (connected : g.Connected start) (terminals : other.terminals = g.terminals)
    (follows : ∀ rule ∈ g.rules, other.Derives [rule.lhs] rule.rhs.toList)
    (letters : ∀ s ∈ other.nonterminals, s ∉ g.nonterminals →
      (∃ form, other.Derives [s] form ∧ ∀ t ∈ form, t ∈ g.symbols) ∧
        ∃ t ∈ g.symbols, ReflTransGen other.Leads t s) : other.Connected start := by
  have words : ∀ s ∈ g.symbols, ∃ word, other.Generates s word := by
    intro s declared
    rcases mem_symbols.mp declared with nonterminal | terminal
    · obtain ⟨word, derives, final⟩ := connected.words s nonterminal
      refine ⟨word, derives.simulate follows, ?_⟩
      rwa [terminals]
    · refine ⟨[s], .of_terminal ?_⟩
      rwa [terminals]
  have ways : ∀ s ∈ g.symbols, ReflTransGen other.Leads start s := by
    intro s declared
    have way := connected.ways s declared
    clear declared
    induction way with
    | refl => exact .refl
    | tail _ step ih =>
      obtain ⟨rhs, member, inside⟩ := step
      exact ih.trans ((follows _ member).way inside)
  constructor
  · intro s declared
    by_cases old : s ∈ g.nonterminals
    · exact words s (mem_symbols.mpr (.inl old))
    · obtain ⟨⟨form, derives, inside⟩, _⟩ := letters s declared old
      obtain ⟨word, spells⟩ := Spells.exists_of_forall fun t found => words t (inside t found)
      obtain ⟨rest, final⟩ := Derives.of_spells spells
      exact ⟨word, derives.trans rest, final⟩
  · intro s declared
    by_cases old : s ∈ g.symbols
    · exact ways s old
    · rw [mem_symbols, not_or] at old
      rw [mem_symbols, terminals] at declared
      obtain ⟨_, t, found, way⟩ := letters s (declared.resolve_right old.2) old.1
      exact (ways t found).trans way

/-! ### The start symbol -/

/-- Where only the start symbol has an epsilon rule, and a word besides the empty one, every
symbol with a word has another word too. -/
theorem exists_filled_word (starts : ∀ rule ∈ g.rules, rule.rhs = .epsilon → rule.lhs = start)
    (valid : g.Valid) {filled : List Symbol} (proper : filled ≠ []) (generates : g.Generates start filled)
    {word : List Symbol} (derived : g.Generates s word) : ∃ part, part ≠ [] ∧ g.Generates s part := by
  by_cases empty : word = []
  · refine Generates.induct (fun s word => word = [] → ∃ part, part ≠ [] ∧ g.Generates s part) ?_ ?_
      derived empty
    · intro t _ impossible
      cases impossible
    · rintro ⟨lhs, rhs⟩ member _ spells rfl
      cases shape : rhs.toList with
      | nil =>
        have same := starts _ member (Rhs.eq_epsilon_of_toList (valid.admits member).proper shape)
        rw [same]
        exact ⟨filled, proper, generates⟩
      | cons first rest =>
        -- the first symbol has a word that is not empty, the others may have the empty one
        simp only [shape] at spells
        have inner := spells.forall_nil
        obtain ⟨part, proper, head⟩ := (inner first List.mem_cons_self).2 rfl
        have tail : Spells g.Generates rest [] := .of_forall_nil fun t inside =>
          (inner t (List.mem_cons_of_mem first inside)).1
        refine ⟨part ++ [], by simpa using proper, .of_rule member ?_⟩
        rw [shape]
        exact .cons head tail
  · exact ⟨word, empty, derived⟩

/-- The letter leads to what the old start symbol leads to, and to this one itself. -/
theorem Connected.way_takeOver (valid : g.Valid) (connected : g.Connected start)
    (occurs : g.occursOnRhs start = true) (letter : Symbol) (declared : s ∈ g.symbols) :
    ReflTransGen (Draft.takeOver g start letter).Leads letter s := by
  have step {source target : Symbol}
      (way : source = start ∨ ReflTransGen (Draft.takeOver g start letter).Leads letter source)
      (leads : g.Leads source target) :
      ReflTransGen (Draft.takeOver g start letter).Leads letter target := by
    obtain ⟨rhs, member, inside⟩ := leads
    have filled : rhs ≠ .epsilon := by
      rintro rfl
      cases inside
    have kept (lhs : Symbol) : (⟨lhs, rhs⟩ : Rule) ≠ ⟨start, .epsilon⟩ := fun same =>
      filled (congrArg Rule.rhs same)
    rcases way with rfl | way
    · exact .single ⟨rhs, Draft.mem_rules_takeOver.mpr ⟨.inl ⟨rfl, member⟩, kept letter⟩, inside⟩
    · exact way.tail ⟨rhs, Draft.mem_rules_takeOver.mpr ⟨.inr member, kept source⟩, inside⟩
  have reached {s : Symbol} (declared : s ∈ g.symbols) :
      s = start ∨ ReflTransGen (Draft.takeOver g start letter).Leads letter s := by
    have way := connected.ways s declared
    clear declared
    induction way with
    | refl => exact .inl rfl
    | tail _ leads ih => exact .inr (step ih leads)
  rcases reached declared with rfl | way
  · obtain ⟨rule, member, mentioned⟩ := List.any_eq_true.mp occurs
    have source := reached (mem_symbols.mpr (.inl (valid.admits member).lhs))
    exact step source ⟨rule.rhs, member, List.contains_iff_mem.mp mentioned⟩
  · exact way

theorem Connected.of_started {draft : Draft} (valid : g.Valid) (chosen : g.start = some start)
    (wellFormed : g.isWellFormed = true) (started : Draft.Started g start draft)
    (isolated : Draft.Isolated g start draft) (connected : g.Connected start)
    (filled : g.occursOnRhs start = true → ∃ word, word ≠ [] ∧ g.Generates start word) :
    ∃ first, draft.grammar.start = some first ∧ draft.grammar.Connected first := by
  cases started with
  | same => exact ⟨start, chosen, connected⟩
  | @moved letter _ occurs unused takes grammar =>
    obtain ⟨starts, _⟩ := (isWellFormed_iff valid chosen).mp wellFormed
    obtain ⟨word, proper, generates⟩ := filled occurs
    have first : draft.grammar.start = some letter := by
      rw [grammar]
      rfl
    refine ⟨letter, first, fun s declared => ?_, fun s declared => ?_⟩
    · rcases takes.mem_nonterminals.mp declared with old | new
      · obtain ⟨_, derived⟩ := connected.words s old
        obtain ⟨part, proper, derived⟩ := exists_filled_word starts valid proper generates derived
        exact ⟨part, (isolated.generates s old part proper).mpr derived⟩
      · obtain ⟨chosen, same, words⟩ := isolated.generates_start
        rw [List.mem_singleton.mp new, Option.some.inj (first.symm.trans same)]
        exact ⟨word, (words word).mpr generates⟩
    · rw [mem_symbols, takes.mem_nonterminals, takes.terminals, or_right_comm, ← mem_symbols] at declared
      rw [grammar]
      rcases declared with old | new
      · exact connected.way_takeOver valid occurs letter old
      · rw [List.mem_singleton.mp new]

end Grammar

namespace Draft

open Grammar (Derives Connected)

variable {draft after : Draft} {start : Symbol}

/-! ### Terminals -/

theorem derives_map {g : Grammar} {change : Symbol → Symbol} {form : List Symbol}
    (derives : ∀ s ∈ form, g.Derives [change s] [s]) : g.Derives (form.map change) form := by
  have parted : g.Derives (form.flatMap fun s => [change s]) (form.flatMap fun s => [s]) := .pointwise derives
  rwa [← List.map_eq_flatMap, List.flatMap_singleton'] at parted

section Terminals

variable {new : Glossary Symbol}

theorem Reworded.derives
    (reworded : Reworded (mixedRules draft.grammar) (wrappers draft.grammar) new draft after) (s : Symbol) :
    after.grammar.Derives [rename (wrappers draft.grammar ++ new) s] [s] := by
  rw [rename]
  cases found : nameOf? (wrappers draft.grammar ++ new) s with
  | none => exact .refl [s]
  | some name =>
    have member : (⟨name, .sequence [s]⟩ : Rule) ∈ after.grammar.rules := by
      rw [reworded.rules]
      rcases List.mem_append.mp (mem_of_nameOf? found) with old | fresh
      · obtain ⟨lhs, _, found⟩ := List.mem_filterMap.mp old
        obtain ⟨_, wrapped, same⟩ := Option.map_eq_some_iff.mp found
        cases same
        refine .inl ⟨rule_of_wrapped? wrapped, fun listed => ?_⟩
        exact absurd (mem_mixedRules.mp listed).2.1 (Nat.not_succ_le_self 1)
      · exact .inr (.inr ⟨_, fresh, rfl⟩)
    exact .of_rule member

theorem Reworded.connected
    (reworded : Reworded (mixedRules draft.grammar) (wrappers draft.grammar) new draft after)
    (connected : draft.grammar.Connected start) (valid : draft.grammar.Valid) :
    after.grammar.Connected start := by
  have renames : ∀ rule ∈ mixedRules draft.grammar,
      renamed (wrappers draft.grammar ++ new) rule ∈ after.grammar.rules := fun rule listed =>
    (reworded.rules _).mpr (.inr (.inl ⟨rule, listed, rfl⟩))
  apply connected.extend reworded.takes.terminals
  · intro rule member
    by_cases listed : rule ∈ mixedRules draft.grammar
    · have first := Derives.of_rule (renames rule listed)
      rw [renamed, Rhs.toList_ofList] at first
      exact first.trans (derives_map fun s _ => reworded.derives s)
    · exact .of_rule ((reworded.rules rule).mpr (.inl ⟨member, listed⟩))
  · intro name declared fresh
    -- a letter stands for a terminal, and a renamed rule leads to it
    have letter := (reworded.takes.mem_nonterminals.mp declared).resolve_left fresh
    obtain ⟨⟨t, other⟩, listed, same⟩ := List.mem_map.mp letter
    obtain rfl : other = name := same
    have key : t ∈ keys new := mem_keys.mpr ⟨_, listed⟩
    rw [reworded.fills, Finset.mem_sdiff, mem_terminalsIn] at key
    obtain ⟨⟨inside, terminal⟩, unnamed⟩ := key
    have named : rename (wrappers draft.grammar ++ new) t = other := by
      rw [rename, nameOf?_append, nameOf?_eq_none.mpr unnamed, Option.none_or,
        nameOf?_of_mem reworded.distinct listed, Option.getD_some]
    obtain ⟨rule, source, inside⟩ := List.mem_flatMap.mp inside
    constructor
    · refine ⟨[t], ?_, fun s only => ?_⟩
      · rw [← named]
        exact reworded.derives t
      · rw [List.mem_singleton.mp only]
        exact Grammar.mem_symbols.mpr (.inr terminal)
    · refine ⟨rule.lhs, Grammar.mem_symbols.mpr (.inl (valid.admits (mem_mixedRules.mp source).1).lhs), ?_⟩
      refine .single ⟨_, renames rule source, ?_⟩
      rw [Rhs.toList_ofList, ← named]
      exact List.mem_map_of_mem inside

end Terminals

/-! ### Suffixes -/

section Suffixes

variable {g : Grammar} {known new : Glossary (List Symbol)} {suffix : List Symbol} {name : Symbol}

/-- Induction along the rules of named suffixes. -/
theorem Chained.induct (chained : Chained known g) (motive : List Symbol → Symbol → Prop)
    (single : ∀ s, motive [s] s)
    (cons : ∀ s tail last name, suffixName? known (s :: tail) = some name →
      (⟨name, Rhs.ofList [s, last]⟩ : Rule) ∈ g.rules → motive tail last → motive (s :: tail) name)
    (found : suffixName? known suffix = some name) : motive suffix name := by
  induction suffix generalizing name with
  | nil =>
    obtain ⟨_, _, _, impossible, _⟩ := chained _ (mem_of_nameOf? found)
    cases impossible
  | cons s rest ih =>
    cases rest with
    | nil =>
      cases found
      exact single s
    | cons next rest =>
      obtain ⟨_, _, last, shape, below, member⟩ := chained _ (mem_of_nameOf? found)
      cases shape
      exact cons s _ last name found member (ih below)

theorem Chained.derives (chained : Chained known g) (found : suffixName? known suffix = some name) :
    g.Derives [name] suffix := by
  refine chained.induct (fun suffix name => g.Derives [name] suffix) (fun s => .refl [s]) ?_ found
  intro s tail last name _ member rest
  exact (Derives.of_rule member).trans (rest.append_left [s])

/-- The name of a suffix leads to the names of the longer suffixes inside it. -/
theorem Chained.way (chained : Chained known g) (found : suffixName? known suffix = some name)
    {key : List Symbol} (inside : key ∈ longSuffixes suffix) {inner : Symbol}
    (named : suffixName? known key = some inner) : ReflTransGen g.Leads name inner := by
  refine chained.induct (fun suffix name => key ∈ longSuffixes suffix → ReflTransGen g.Leads name inner)
    ?_ ?_ found inside
  · intro s impossible
    cases impossible
  · intro s tail last name found member rest inside
    cases tail with
    | nil => cases inside
    | cons next tail =>
      rw [longSuffixes_cons_cons] at inside
      rcases List.mem_cons.mp inside with rfl | inside
      · rw [Option.some.inj (found.symm.trans named)]
      · exact (rest inside).head ⟨_, member, List.mem_cons_of_mem s List.mem_cons_self⟩

/-- The third stage leaves nothing behind. -/
theorem Cut.connected (cut : Cut (longRules draft.grammar) [] new draft after)
    (connected : draft.grammar.Connected start) (valid : draft.grammar.Valid) :
    after.grammar.Connected start := by
  have chained : Chained new after.grammar := cut.chained
  apply connected.extend cut.takes.terminals
  · intro rule member
    by_cases listed : rule ∈ longRules draft.grammar
    · obtain ⟨first, rest, name, shape, found, member⟩ := cut.cut rule listed
      rw [shape]
      exact (Derives.of_rule member).trans ((chained.derives found).append_left [first])
    · exact .of_rule (cut.kept rule member listed)
  · intro name declared fresh
    -- a letter stands for a suffix, and the rule that ends in it leads there
    have letter := (cut.takes.mem_nonterminals.mp declared).resolve_left fresh
    obtain ⟨⟨key, other⟩, listed, same⟩ := List.mem_map.mp letter
    obtain rfl : other = name := same
    have wanted : key ∈ keys new := mem_keys.mpr ⟨_, listed⟩
    rw [cut.fills, keys_nil, Finset.sdiff_empty, mem_innerSuffixes] at wanted
    obtain ⟨_, form, inside⟩ := wanted
    obtain ⟨rule, source, rfl⟩ := List.mem_map.mp form
    obtain ⟨part, long⟩ := mem_longSuffixes.mp inside
    have named : suffixName? new key = some other := by
      rw [suffixName?_of_long new long, nameOf?_of_mem cut.distinct listed]
    have admits := valid.admits (mem_longRules.mp source).1
    constructor
    · refine ⟨key, chained.derives named, fun s found => ?_⟩
      exact admits.declared s (List.mem_of_mem_tail (part.subset found))
    · obtain ⟨first, rest, last, shape, found, member⟩ := cut.cut rule source
      rw [shape, List.tail_cons] at inside
      refine ⟨rule.lhs, Grammar.mem_symbols.mpr (.inl admits.lhs), ?_⟩
      exact (chained.way found inside named).head ⟨_, member, List.mem_cons_of_mem first List.mem_cons_self⟩

end Suffixes

end Draft

end ContextFree
