import ContextFree.Proofs.Chomsky.Naming
import ContextFree.Proofs.Chomsky.Transform

/-! How many letters a transformation into Chomsky normal form takes.

The number can be read off the grammar: one letter for a start symbol that occurs on a
right-hand side, one for each terminal in a longer right-hand side that has no wrapper,
and one for each inner suffix once the terminals are wrapped. The transformation succeeds
exactly if so many letters are unused.
-/

set_option autoImplicit false

namespace ContextFree

open Draft (Glossary Takes Ends keys nameOf? rename renamed innerSuffixes longSuffixes wrapped? wrappers
  takeOver)

namespace Grammar

variable {g other : Grammar} {start s t letter : Symbol}

/-! ### The demand -/

def longForms (g : Grammar) : List (List Symbol) :=
  (g.rules.map fun rule => rule.rhs.toList).filter fun form => decide (2 ≤ form.length)

/-- The nonterminal that wraps a terminal already: the first one but the start symbol
whose only right-hand side is the terminal. -/
def wrapperOf? (g : Grammar) (t : Symbol) : Option Symbol :=
  g.nonterminals.toList.find? fun lhs =>
    decide (g.productionsOf lhs = [.sequence [t]] ∧ g.start ≠ some lhs)

/-- The terminals in longer right-hand sides that have no wrapper. -/
def bareTerminals (g : Grammar) : Finset Symbol :=
  (g.terminals.toList.filter fun t =>
    g.longForms.any (fun form => form.contains t) && (g.wrapperOf? t).isNone).toFinset

/-- The wrapper of a terminal, and any other symbol itself. A terminal without a wrapper
stands for the letter that it gets, which no other symbol gets. -/
def withWrapper (g : Grammar) (s : Symbol) : Symbol :=
  if s ∈ g.terminals then (g.wrapperOf? s).getD s else s

/-- The number of letters that the transformation takes. -/
def letterDemand (g : Grammar) : Nat :=
  (g.start.any g.occursOnRhs).toNat + g.bareTerminals.card +
    (innerSuffixes (g.longForms.map (List.map g.withWrapper))).card

theorem mem_longForms {form : List Symbol} :
    form ∈ g.longForms ↔ 2 ≤ form.length ∧ ∃ rule ∈ g.rules, rule.rhs.toList = form := by
  rw [longForms, List.mem_filter, decide_eq_true_eq, List.mem_map, and_comm]

theorem mem_bareTerminals :
    t ∈ g.bareTerminals ↔ t ∈ g.terminals ∧ (∃ form ∈ g.longForms, t ∈ form) ∧ g.wrapperOf? t = none := by
  simp only [bareTerminals, List.mem_toFinset, List.mem_filter, SymbolSet.mem_toList, Bool.and_eq_true,
    List.any_eq_true, List.contains_iff_mem, Option.isNone_iff_eq_none]

/-! ### Wrappers -/

theorem wrapper_test (terminal : t ∈ g.terminals) (lhs : Symbol) :
    decide (g.productionsOf lhs = [.sequence [t]] ∧ g.start ≠ some lhs) =
      decide (wrapped? g lhs = some t) := by
  rw [decide_eq_decide, Draft.wrapped?_eq_some, and_iff_right terminal]

theorem nameOf?_wrappers (terminal : t ∈ g.terminals) : nameOf? (wrappers g) t = g.wrapperOf? t := by
  have tests : (fun lhs => ((wrapped? g lhs).map (·, lhs)).any fun entry => decide (entry.1 = t)) =
      fun lhs => decide (g.productionsOf lhs = [.sequence [t]] ∧ g.start ≠ some lhs) := by
    funext lhs
    rw [wrapper_test terminal]
    cases wrapped? g lhs <;> simp
  rw [nameOf?, wrappers, List.find?_filterMap, tests, ← wrapperOf?]
  cases found : g.wrapperOf? t with
  | none => rfl
  | some lhs =>
    have passed := List.find?_some found
    rw [wrapper_test terminal, decide_eq_true_eq] at passed
    rw [Option.bind_some, passed]
    rfl

theorem wrapperOf?_congr (left : g.Valid) (right : other.Valid) (terminals : other.terminals = g.terminals)
    (same : ∀ lhs, wrapped? other lhs = wrapped? g lhs) (terminal : t ∈ g.terminals) :
    other.wrapperOf? t = g.wrapperOf? t := by
  have everywhere {g : Grammar} (valid : g.Valid) (terminal : t ∈ g.terminals) :
      g.wrapperOf? t = Symbol.all.find? fun lhs => decide (wrapped? g lhs = some t) := by
    rw [wrapperOf?, SymbolSet.toList, List.find?_filter]
    congr 1
    funext lhs
    rw [wrapper_test terminal, decide_eq_decide, decide_eq_true_eq]
    -- a wrapper has a rule, so it is declared
    exact and_iff_right_of_imp fun found => (valid.admits (Draft.rule_of_wrapped? found)).lhs
  rw [everywhere left terminal, everywhere right (by rwa [terminals])]
  simp only [same]

/-! ### The start symbol -/

theorem exists_long_rule (valid : g.Valid) (chosen : g.start = some start)
    (wellFormed : g.isWellFormed = true) (occurs : g.occursOnRhs start = true) :
    ∃ rhs, (⟨start, rhs⟩ : Rule) ∈ g.rules ∧ 2 ≤ rhs.length := by
  obtain ⟨_, units, _, useless⟩ := (isWellFormed_iff valid chosen).mp wellFormed
  have short_terminal : ∀ rule ∈ g.rules, ∀ s ∈ rule.rhs.toList, ¬ 2 ≤ rule.rhs.length →
      s ∈ g.terminals := by
    intro rule member s inside short
    have one : rule.rhs.toList.length = 1 := by
      have filled := List.length_pos_of_mem inside
      rw [Rhs.length] at short
      omega
    obtain ⟨only, shape⟩ := List.length_eq_one_iff.mp one
    rw [shape, List.mem_singleton] at inside
    rw [inside]
    exact Draft.terminal_of_single valid units member shape
  obtain ⟨⟨lhs, form⟩, member, mentioned⟩ := List.any_eq_true.mp occurs
  have inside : start ∈ form.toList := List.contains_iff_mem.mp mentioned
  have source : lhs ∈ g.nonterminals := (valid.admits member).lhs
  have reaches := ((findsUseless_eq_false valid).mp useless).1 lhs (mem_symbols.mpr (.inl source))
  by_contra none_long
  rw [not_exists] at none_long
  rcases reaches.cases_head with rfl | ⟨t, ⟨rhs, first, _, below⟩, later⟩
  · have terminal := short_terminal _ member start inside fun long => none_long form ⟨member, long⟩
    exact valid.not_terminal source terminal
  · -- a first step would lead to a terminal, and from there to nowhere
    have terminal := short_terminal _ first t below fun long => none_long rhs ⟨first, long⟩
    rcases later.cases_head with rfl | ⟨_, ⟨_, rule, _, _⟩, _⟩
    · exact valid.not_terminal source terminal
    · exact valid.not_terminal (valid.admits rule).lhs terminal

theorem productionsOf_takeOver (other : s ≠ start) (old : s ≠ letter) :
    (takeOver g start letter).productionsOf s = g.productionsOf s := by
  symm
  apply eq_productionsOf (pairwise_productionsOf g s)
  intro rhs
  have kept : (⟨s, rhs⟩ : Rule) ≠ ⟨start, .epsilon⟩ := by
    intro same
    exact other (congrArg Rule.lhs same)
  rw [Draft.mem_rules_takeOver, and_iff_left kept, or_iff_right fun copied => old copied.1, mem_rules]

theorem wrapped?_takeOver (valid : g.Valid) (chosen : g.start = some start)
    (wellFormed : g.isWellFormed = true) (occurs : g.occursOnRhs start = true)
    (unused : letter ∉ g.symbols) (lhs : Symbol) :
    wrapped? (takeOver g start letter) lhs = wrapped? g lhs := by
  have starts : (takeOver g start letter).start = some letter := rfl
  apply Option.ext
  intro t
  rw [Draft.wrapped?_eq_some, Draft.wrapped?_eq_some, (Draft.same_takeOver g start letter).2, starts,
    chosen]
  by_cases new : lhs = letter
  · -- the letter is the start symbol now, and it had no rule before
    subst new
    constructor
    · intro ⟨_, _, other⟩
      exact absurd rfl other
    · intro ⟨only, _⟩
      have member : (⟨lhs, .sequence [t]⟩ : Rule) ∈ g.rules := by
        rw [mem_rules, only]
        exact List.mem_singleton_self _
      exact absurd (mem_symbols.mpr (.inl (valid.admits member).lhs)) unused
  · by_cases first : lhs = start
    · -- the old start symbol keeps a longer right-hand side
      subst first
      obtain ⟨rhs, member, long⟩ := exists_long_rule valid chosen wellFormed occurs
      constructor
      · intro ⟨only, _⟩
        have kept : (⟨lhs, rhs⟩ : Rule) ∈ (takeOver g lhs letter).rules := by
          refine Draft.mem_rules_takeOver.mpr ⟨.inr member, fun same => ?_⟩
          cases same
          exact absurd long (Nat.not_succ_le_zero 1)
        rw [mem_rules, only, List.mem_singleton] at kept
        cases kept
        exact absurd long (Nat.not_succ_le_self 1)
      · intro ⟨_, _, other⟩
        exact absurd rfl other
    · have apart : some letter ≠ some lhs ↔ some start ≠ some lhs := by
        simp [Ne.symm new, Ne.symm first]
      rw [productionsOf_takeOver first new, apart]

theorem mem_longForms_takeOver {form : List Symbol} :
    form ∈ (takeOver g start letter).longForms ↔ form ∈ g.longForms := by
  simp only [mem_longForms, Draft.mem_rules_takeOver]
  apply and_congr_right
  intro long
  constructor
  · rintro ⟨rule, ⟨⟨_, copied⟩ | old, _⟩, shape⟩
    · exact ⟨_, copied, shape⟩
    · exact ⟨rule, old, shape⟩
  · rintro ⟨rule, member, rfl⟩
    refine ⟨rule, ⟨.inr member, fun same => ?_⟩, rfl⟩
    rw [same] at long
    exact absurd long (Nat.not_succ_le_zero 1)

/-- What the first stage keeps of the grammar for the later ones. -/
structure Kept (g : Grammar) (draft : Draft) : Prop where
  forms : ∀ form, form ∈ draft.grammar.longForms ↔ form ∈ g.longForms
  wrapped : ∀ lhs, wrapped? draft.grammar lhs = wrapped? g lhs

theorem kept_of_started {draft : Draft} (valid : g.Valid) (chosen : g.start = some start)
    (wellFormed : g.isWellFormed = true) (started : Draft.Started g start draft) : Kept g draft := by
  cases started with
  | same => exact ⟨fun _ => .rfl, fun _ => rfl⟩
  | moved occurs unused _ grammar =>
    constructor
    all_goals rw [grammar]
    · exact fun form => mem_longForms_takeOver
    · exact wrapped?_takeOver valid chosen wellFormed occurs unused

theorem exists_letters_of_started {draft : Draft} (started : Draft.Started g start draft) :
    ∃ letters, letters.length = (g.occursOnRhs start).toNat ∧ Takes letters (.ofGrammar g) draft := by
  cases started with
  | same absent =>
    rw [absent]
    exact ⟨[], rfl, .refl _⟩
  | moved occurs _ takes _ =>
    rw [occurs]
    exact ⟨_, rfl, takes⟩

/-! ### Terminals -/

theorem nameOf?_wrappers_of_kept {draft : Draft} (valid : g.Valid) (isolated : Draft.Isolated g start draft)
    (kept : Kept g draft) (terminal : t ∈ g.terminals) :
    nameOf? (wrappers draft.grammar) t = g.wrapperOf? t := by
  have still := terminal
  rw [← isolated.terminals] at still
  rw [nameOf?_wrappers still,
    wrapperOf?_congr valid isolated.valid isolated.terminals kept.wrapped terminal]

/-- The terminals that the second stage gives letters to. -/
theorem bareTerminals_eq {draft : Draft} (valid : g.Valid) (isolated : Draft.Isolated g start draft)
    (kept : Kept g draft) :
    Draft.terminalsIn draft.grammar.terminals (Draft.symbolsOf (Draft.mixedRules draft.grammar)) \
        keys (wrappers draft.grammar) = g.bareTerminals := by
  ext t
  rw [Finset.mem_sdiff, Draft.mem_terminalsIn, mem_bareTerminals, ← Draft.nameOf?_eq_none]
  have occurs : t ∈ draft.grammar.terminals →
      (t ∈ Draft.symbolsOf (Draft.mixedRules draft.grammar) ↔ ∃ form ∈ g.longForms, t ∈ form) := by
    intro terminal
    simp only [Draft.symbolsOf, List.mem_flatMap, Draft.mem_mixedRules, ← kept.forms, mem_longForms]
    constructor
    · rintro ⟨rule, ⟨member, long, _⟩, inside⟩
      exact ⟨_, ⟨long, rule, member, rfl⟩, inside⟩
    · rintro ⟨_, ⟨long, rule, member, rfl⟩, inside⟩
      exact ⟨rule, ⟨member, long, t, inside, terminal⟩, inside⟩
  have wrapper := fun terminal : t ∈ g.terminals => nameOf?_wrappers_of_kept valid isolated kept terminal
  rw [isolated.terminals] at occurs ⊢
  constructor
  · rintro ⟨⟨inside, terminal⟩, missing⟩
    exact ⟨terminal, (occurs terminal).mp inside, (wrapper terminal).symm.trans missing⟩
  · rintro ⟨terminal, inside, missing⟩
    exact ⟨⟨(occurs terminal).mpr inside, terminal⟩, (wrapper terminal).trans missing⟩

/-! ### Suffixes -/

theorem length_of_mem_longSuffixes {form suffix : List Symbol} (inside : suffix ∈ longSuffixes form.tail) :
    2 < form.length := by
  obtain ⟨suffixed, long⟩ := Draft.mem_longSuffixes.mp inside
  have shorter := suffixed.length_le
  rw [List.length_tail] at shorter
  omega

theorem innerSuffixes_congr {first second : List (List Symbol)}
    (same : ∀ form, 2 < form.length → (form ∈ first ↔ form ∈ second)) :
    innerSuffixes first = innerSuffixes second := by
  ext suffix
  simp only [Draft.mem_innerSuffixes]
  constructor
  · rintro ⟨form, member, inside⟩
    exact ⟨form, (same form (length_of_mem_longSuffixes inside)).mp member, inside⟩
  · rintro ⟨form, member, inside⟩
    exact ⟨form, (same form (length_of_mem_longSuffixes inside)).mpr member, inside⟩

theorem innerSuffixes_map (forms : List (List Symbol)) (change : Symbol → Symbol) :
    innerSuffixes (forms.map (List.map change)) = (innerSuffixes forms).image (List.map change) := by
  have inner (form : List Symbol) :
      longSuffixes (form.map change).tail = (longSuffixes form.tail).map (List.map change) := by
    rw [longSuffixes, ← List.map_tail, List.map_tails, List.filter_map, longSuffixes]
    congr 2
    funext suffix
    simp
  ext suffix
  simp only [Draft.mem_innerSuffixes, Finset.mem_image, List.mem_map, exists_exists_and_eq_and, inner]
  constructor
  · rintro ⟨form, member, old, inside, rfl⟩
    exact ⟨old, ⟨form, member, inside⟩, rfl⟩
  · rintro ⟨old, ⟨form, member, inside⟩, rfl⟩
    exact ⟨form, member, old, inside, rfl⟩

theorem map_injective_on {change : Symbol → Symbol} {first second : List Symbol}
    (inj : ∀ s ∈ first, ∀ t ∈ second, change s = change t → s = t)
    (same : first.map change = second.map change) : first = second := by
  induction first generalizing second with
  | nil => exact (List.map_eq_nil_iff.mp same.symm).symm
  | cons s rest ih =>
    cases second with
    | nil => cases same
    | cons t others =>
      obtain ⟨head, tail⟩ := List.cons.inj same
      rw [inj s List.mem_cons_self t List.mem_cons_self head, ih ?_ tail]
      intro s inside t found
      exact inj s (List.mem_cons_of_mem _ inside) t (List.mem_cons_of_mem _ found)

section Wrapped

variable {draft after : Draft} {new : Glossary Symbol}

/-- After the second stage a symbol is its wrapper, or the letter for it. -/
theorem rename_wrappers (valid : g.Valid) (isolated : Draft.Isolated g start draft) (kept : Kept g draft)
    (keyed : Draft.Keyed g.terminals (wrappers draft.grammar ++ new)) (s : Symbol) :
    rename (wrappers draft.grammar ++ new) s = rename new (g.withWrapper s) := by
  have only_terminals {s : Symbol} (nonterminal : s ∉ g.terminals) :
      s ∉ keys (wrappers draft.grammar) ∧ s ∉ keys new := by
    rw [← not_or, ← Finset.mem_union, ← Draft.keys_append]
    exact fun named => nonterminal (keyed s named)
  by_cases terminal : s ∈ g.terminals
  · rw [rename, Draft.nameOf?_append, nameOf?_wrappers_of_kept valid isolated kept terminal,
      withWrapper, if_pos terminal]
    cases found : g.wrapperOf? s with
    | none => rfl
    | some name =>
      have nonterminal : name ∈ g.nonterminals := SymbolSet.mem_toList.mp (List.mem_of_find?_eq_some found)
      exact (Draft.rename_of_not_mem (only_terminals (valid.not_terminal nonterminal)).2).symm
  · rw [withWrapper, if_neg terminal, Draft.rename_of_not_mem (only_terminals terminal).2]
    apply Draft.rename_of_not_mem
    rw [Draft.keys_append, Finset.mem_union, not_or]
    exact only_terminals terminal

theorem rename_injective (isolated : Draft.Isolated g start draft)
    (takes : Takes (new.map Prod.snd) draft after) (left : s ∈ g.symbols) (right : t ∈ g.symbols)
    (same : rename new s = rename new t) : s = t := by
  -- new letters do not clash with old symbols or with one another
  have unused {key name : Symbol} (listed : (key, name) ∈ new) : name ∉ g.symbols := by
    have letter : name ∈ draft.supply.letters := by
      rw [takes.supply]
      exact List.mem_append_left _ (List.mem_map.mpr ⟨_, listed, rfl⟩)
    intro declared
    apply (isolated.letters name letter).2
    rw [mem_symbols] at declared ⊢
    rw [isolated.terminals]
    exact declared.imp_left (isolated.nonterminals name)
  have distinct := isolated.distinct
  rw [takes.supply] at distinct
  unfold rename at same
  cases first : nameOf? new s with
  | none =>
    cases second : nameOf? new t with
    | none => simpa [first, second] using same
    | some name =>
      rw [first, second, Option.getD_none, Option.getD_some] at same
      rw [same] at left
      exact absurd left (unused (Draft.mem_of_nameOf? second))
  | some name =>
    cases second : nameOf? new t with
    | none =>
      rw [first, second, Option.getD_none, Option.getD_some] at same
      rw [← same] at right
      exact absurd right (unused (Draft.mem_of_nameOf? first))
    | some letter =>
      rw [first, second, Option.getD_some, Option.getD_some] at same
      have entries := List.inj_on_of_nodup_map distinct.of_append_left (Draft.mem_of_nameOf? first)
        (Draft.mem_of_nameOf? second) same
      exact congrArg Prod.fst entries

theorem declared_of_mem_innerSuffixes (valid : g.Valid) {suffix : List Symbol}
    (member : suffix ∈ innerSuffixes (g.longForms.map (List.map g.withWrapper))) (inside : s ∈ suffix) :
    s ∈ g.symbols := by
  obtain ⟨_, mapped, suffixed⟩ := Draft.mem_innerSuffixes.mp member
  obtain ⟨form, listed, rfl⟩ := List.mem_map.mp mapped
  obtain ⟨_, rule, source, rfl⟩ := mem_longForms.mp listed
  obtain ⟨part, _⟩ := Draft.mem_longSuffixes.mp suffixed
  obtain ⟨old, found, rfl⟩ := List.mem_map.mp (List.mem_of_mem_tail (part.subset inside))
  unfold withWrapper
  split
  · cases wrapper : g.wrapperOf? old with
    | none => exact (valid.admits source).declared old found
    | some name =>
      have declared := SymbolSet.mem_toList.mp (List.mem_of_find?_eq_some wrapper)
      exact mem_symbols.mpr (.inl declared)
  · exact (valid.admits source).declared old found

/-- The third stage names as many suffixes as the grammar with wrappers has. -/
theorem card_innerSuffixes (valid : g.Valid) (isolated : Draft.Isolated g start draft) (kept : Kept g draft)
    (reworded : Draft.Reworded (Draft.mixedRules draft.grammar) (wrappers draft.grammar) new draft after) :
    (innerSuffixes ((Draft.longRules after.grammar).map fun rule => rule.rhs.toList)).card =
      (innerSuffixes (g.longForms.map (List.map g.withWrapper))).card := by
  have wrapping := Draft.wrapping_wrappers isolated.valid isolated.toSupplied
  have keyed := reworded.keyed wrapping.keyed
  rw [isolated.terminals] at keyed
  have renames (form : List Symbol) :
      (form.map g.withWrapper).map (rename new) = form.map (rename (wrappers draft.grammar ++ new)) := by
    rw [List.map_map]
    exact List.map_congr_left fun s _ => (rename_wrappers valid isolated kept keyed s).symm
  have forms : innerSuffixes ((Draft.longRules after.grammar).map fun rule => rule.rhs.toList) =
      innerSuffixes ((g.longForms.map (List.map g.withWrapper)).map (List.map (rename new))) := by
    apply innerSuffixes_congr
    intro form long
    rw [List.map_map, List.mem_map, List.mem_map]
    constructor
    · rintro ⟨rule, listed, rfl⟩
      obtain ⟨old, source, rfl⟩ := (reworded.mem_rules_iff isolated.valid wrapping.keyed
        (Nat.le_of_lt long)).mp (Draft.mem_longRules.mp listed).1
      rw [renamed, Rhs.toList_ofList] at long ⊢
      rw [List.length_map] at long
      refine ⟨old.rhs.toList, ?_, renames _⟩
      exact (kept.forms _).mp (mem_longForms.mpr ⟨Nat.le_of_lt long, old, source, rfl⟩)
    · rintro ⟨form, member, rfl⟩
      rw [Function.comp_apply, renames] at long ⊢
      obtain ⟨_, old, source, rfl⟩ := mem_longForms.mp ((kept.forms form).mpr member)
      have shape : (renamed (wrappers draft.grammar ++ new) old).rhs.toList =
          old.rhs.toList.map (rename (wrappers draft.grammar ++ new)) := Rhs.toList_ofList _
      rw [← shape] at long
      have member := (reworded.mem_rules_iff isolated.valid wrapping.keyed (Nat.le_of_lt long)).mpr
        ⟨old, source, rfl⟩
      exact ⟨_, Draft.mem_longRules.mpr ⟨member, long⟩, shape⟩
  rw [forms, innerSuffixes_map]
  apply Finset.card_image_of_injOn
  intro first left second right
  apply map_injective_on
  intro s inside t found
  exact rename_injective isolated reworded.takes (declared_of_mem_innerSuffixes valid left inside)
    (declared_of_mem_innerSuffixes valid right found)

end Wrapped

/-! ### The transformation -/

/-- The stages end exactly as the demand and the supply tell. -/
theorem ends_draftChomsky (valid : g.Valid) (chosen : g.start = some start)
    (wellFormed : g.isWellFormed = true) :
    Ends (.ofGrammar g) g.letterDemand
      (fun draft => ∃ letters, letters.length = g.letterDemand ∧ Takes letters (.ofGrammar g) draft)
      (g.draftChomsky start) := by
  have demand : g.letterDemand = (g.occursOnRhs start).toNat + (g.bareTerminals.card +
      (innerSuffixes (g.longForms.map (List.map g.withWrapper))).card) := by
    rw [letterDemand, chosen, Nat.add_assoc]
    rfl
  rw [demand]
  refine (Draft.ends_isolateStart g start).bind (Nat.le_add_right _ _) ?_
  intro first succeeded started
  have kept := kept_of_started valid chosen wellFormed started
  obtain ⟨letters, count, takes⟩ := exists_letters_of_started started
  have isolated := Draft.isolated_isolateStart valid chosen wellFormed succeeded
  have run := Draft.ends_isolateTerminals isolated.valid isolated.toSupplied
  rw [bareTerminals_eq valid isolated kept] at run
  rw [← count]
  apply Ends.later takes
  refine run.bind (Nat.le_add_right _ _) ?_
  rintro second _ ⟨new, reworded⟩
  have wrapped : g.bareTerminals.card = (new.map Prod.snd).length := by
    rw [← bareTerminals_eq valid isolated kept, reworded.card, List.length_map]
  rw [wrapped, ← card_innerSuffixes valid isolated kept reworded]
  apply Ends.later reworded.takes
  apply (Draft.ends_binarize second).imp
  rintro third ⟨suffixes, cut⟩
  refine ⟨letters ++ (new.map Prod.snd ++ suffixes.map Prod.snd), ?_,
    takes.trans (reworded.takes.trans cut.takes)⟩
  have named := cut.card
  rw [Draft.keys_nil, Finset.sdiff_empty] at named
  rw [List.length_append, List.length_append, named, suffixes.length_map]

/-- The transformation of a well-formed grammar succeeds exactly if as many uppercase
letters are unused as it demands. Then it takes the first of them, from `Z` downwards, as
new nonterminals and leaves the terminals; otherwise it leaves the grammar. -/
theorem toChomsky_takes_letters (valid : g.Valid) (wellFormed : g.isWellFormed = true) :
    let unused := Supply.uppercase.filter fun s => !g.symbols.contains s
    (unused.Pairwise (fun a b => Ordered.before b a = true) ∧
      ∀ s, s ∈ unused ↔ s.toChar.isUpper = true ∧ s ∉ g.symbols) ∧
    (g.letterDemand ≤ unused.length →
      g.toChomsky.report = .ok (unused.take g.letterDemand) ∧
        g.toChomsky.grammar.terminals = g.terminals ∧
          ∀ s, s ∈ g.toChomsky.grammar.nonterminals ↔ s ∈ g.nonterminals ∨ s ∈ unused.take g.letterDemand) ∧
      (unused.length < g.letterDemand →
        (∃ fault, g.toChomsky.report = .error fault ∧ fault.kind = .precondition) ∧
          g.toChomsky.grammar = g) := by
  intro unused
  have handed : (Supply.avoiding g.symbols).letters = unused := Supply.letters_avoiding g.symbols
  refine ⟨?_, ?_⟩
  · rw [← handed]
    exact ⟨Supply.pairwise_letters_avoiding g.symbols, fun s => Supply.mem_letters_avoiding⟩
  obtain ⟨start, chosen⟩ : ∃ start, g.start = some start := by
    cases chosen : g.start with
    | none => simp [isWellFormed, chosen] at wellFormed
    | some start => exact ⟨start, rfl⟩
  have run := ends_draftChomsky valid chosen wellFormed
  unfold toChomsky
  rw [chosen]
  simp only [wellFormed, if_true]
  cases drafted : g.draftChomsky start with
  | error fault =>
    rw [drafted] at run
    cases run with
    | short less =>
      have less : unused.length < g.letterDemand := handed ▸ less
      exact ⟨fun enough => absurd enough (Nat.not_le.mpr less), fun _ => ⟨⟨_, rfl, rfl⟩, rfl⟩⟩
  | ok draft =>
    rw [drafted] at run
    cases run with
    | done holds =>
      obtain ⟨letters, count, takes⟩ := holds
      have supply : unused = letters ++ draft.supply.letters := handed.symm.trans takes.supply
      have first : unused.take g.letterDemand = letters := by rw [supply, List.take_left' count]
      rw [first]
      constructor
      · intro _
        exact ⟨congrArg Except.ok takes.introduced, takes.terminals, fun s => takes.mem_nonterminals⟩
      · intro less
        rw [supply, List.length_append] at less
        omega

/-- The rules `S ::= aSb`, `S ::= bSb`, `S ::= AA` and `A ::= a`. Symbol 28 is `S`, 10 is
`A`, 36 and 37 are `a` and `b`. -/
def sharing : Grammar :=
  let nonterminals := (empty.declare ⟨28⟩ .nonterminal).declare ⟨10⟩ .nonterminal
  let symbols := (nonterminals.declare ⟨36⟩ .terminal).declare ⟨37⟩ .terminal
  (symbols.addRules
    [⟨⟨28⟩, .sequence [⟨36⟩, ⟨28⟩, ⟨37⟩]⟩, ⟨⟨28⟩, .sequence [⟨37⟩, ⟨28⟩, ⟨37⟩]⟩,
      ⟨⟨28⟩, .sequence [⟨10⟩, ⟨10⟩]⟩, ⟨⟨10⟩, .sequence [⟨36⟩]⟩]).withStart ⟨28⟩

def repetition (count : Nat) : Grammar :=
  let symbols := (empty.declare ⟨28⟩ .nonterminal).declare ⟨36⟩ .terminal
  (symbols.addRule ⟨28⟩ (.sequence (List.replicate count ⟨36⟩))).withStart ⟨28⟩

/-- `Z` is the new start symbol, `Y` is for `b` and `X` for the suffix that two rules
share; `A` wraps `a` already. For 27 times `a` one letter is missing. -/
theorem toChomsky_takes_shared :
    sharing.toChomsky.report = .ok [⟨35⟩, ⟨34⟩, ⟨33⟩] ∧
      (∃ fault, (repetition 27).toChomsky.report = .error fault ∧ fault.kind = .precondition) ∧
        (repetition 27).toChomsky.grammar = repetition 27 := by
  have letters : (Supply.uppercase.filter fun s => !sharing.symbols.contains s).take sharing.letterDemand =
      [⟨35⟩, ⟨34⟩, ⟨33⟩] := by decide +kernel
  have enough := (toChomsky_takes_letters (g := sharing) (by decide +kernel) (by decide +kernel)).2.1
    (by decide +kernel)
  have missing := (toChomsky_takes_letters (g := repetition 27) (by decide +kernel) (by decide +kernel)).2.2
    (by decide +kernel)
  rw [letters] at enough
  exact ⟨enough.1, missing⟩

end Grammar

end ContextFree
