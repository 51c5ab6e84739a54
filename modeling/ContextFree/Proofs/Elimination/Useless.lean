import ContextFree.Elimination.Useless
import ContextFree.Proofs.Closure
import Mathlib.Logic.Relation

/-! Useless elimination keeps what the start symbol reaches by productive rules.

Every kept symbol keeps all its words. What is left has no useless symbol, since a
productive rule over reached symbols is itself left.
-/

set_option autoImplicit false

namespace ContextFree

open SymbolSet (Grown)

namespace Grammar

open Relation (ReflTransGen)

variable {g : Grammar} {start : Symbol}

/-- The target stands on a right-hand side of the source that has productive symbols
only. -/
def UsefulStep (g : Grammar) (source target : Symbol) : Prop :=
  ∃ rhs, (⟨source, rhs⟩ : Rule) ∈ g.rules ∧ (∀ s ∈ rhs.toList, s ∈ g.productive) ∧ target ∈ rhs.toList

/-- The symbol is reached from the start by productive rules. -/
def Reaches (g : Grammar) (start : Symbol) : Symbol → Prop :=
  ReflTransGen g.UsefulStep start

theorem mem_usefulTargets {source target : Symbol} :
    target ∈ g.usefulTargets g.productive source ↔ g.UsefulStep source target := by
  simp only [usefulTargets, List.mem_flatMap, List.mem_filter, UsefulStep, mem_rules, within_iff,
    and_assoc]

theorem productive_of_usefulStep {source target : Symbol} (step : g.UsefulStep source target) :
    source ∈ g.productive := by
  obtain ⟨rhs, member, productive, inside⟩ := step
  exact mem_closure_of_within member (List.ne_nil_of_mem inside) productive

theorem mem_reachable {s : Symbol} :
    s ∈ (Usefulness.analyze g start).reachable ↔ g.Reaches start s := by
  refine Search.mem_run_along (fun _ _ => mem_usefulTargets) (by simp) ?_ ⟨?_, ?_⟩
  · -- an unproductive start is not followed, for it leads nowhere
    intro source found target member _ _
    rw [SymbolSet.mem_ofList, List.mem_singleton] at found
    rw [found] at member
    have productive := productive_of_usefulStep (mem_usefulTargets.mp member)
    refine .inr (.inr ⟨start, ?_, member⟩)
    rw [if_pos (SymbolSet.mem_iff.mp productive)]
    exact List.mem_singleton_self start
  · intro source found
    rw [SymbolSet.mem_ofList, List.mem_singleton] at found
    rw [found]
  · intro source pending
    split at pending
    · rw [List.mem_singleton.mp pending]
    · cases pending

theorem Reaches.eq_start (valid : g.Valid) (unproductive : start ∉ g.productive) {s : Symbol}
    (reaches : g.Reaches start s) : s = start := by
  -- a first step would need a rule over productive symbols
  rcases reaches.cases_head with same | ⟨_, ⟨rhs, member, productive, _⟩, _⟩
  · exact same.symm
  · have words : ∀ t ∈ rhs.toList, ∃ word, g.Generates t word := fun t inside =>
      (mem_productive_iff valid).mp (productive t inside)
    obtain ⟨word, spells⟩ := Spells.exists_of_forall words
    exact absurd ((mem_productive_iff valid).mpr ⟨word, .of_rule member spells⟩) unproductive

/-! ### The elimination -/

theorem productive_analyze : (Usefulness.analyze g start).productive = g.productive :=
  rfl

theorem start_analyze : (Usefulness.analyze g start).start = start :=
  rfl

theorem mem_useless {s : Symbol} :
    s ∈ (Usefulness.analyze g start).useless g ↔ s ∈ g.symbols ∧ ¬ g.Reaches start s := by
  rw [Usefulness.useless, SymbolSet.mem_difference, mem_reachable]

theorem isLanguageEmpty_iff :
    (Usefulness.analyze g start).isLanguageEmpty = true ↔ start ∉ g.productive := by
  rw [Usefulness.isLanguageEmpty, productive_analyze, start_analyze, Bool.not_eq_true',
    SymbolSet.mem_iff, Bool.not_eq_true]

abbrev useful (g : Grammar) (start : Symbol) : Grammar :=
  (g.removeUseless (Usefulness.analyze g start)).grammar

theorem useful_cases (g : Grammar) (start : Symbol) :
    let kept := g.removeSymbols ((Usefulness.analyze g start).useless g)
    start ∈ g.productive ∧ g.useful start = kept ∨
      start ∉ g.productive ∧ g.useful start = kept.retain fun lhs _ => decide (lhs ≠ start) := by
  by_cases productive : start ∈ g.productive
  · left
    refine ⟨productive, if_neg ?_⟩
    rw [isLanguageEmpty_iff]
    exact fun unproductive => unproductive productive
  · right
    exact ⟨productive, if_pos (isLanguageEmpty_iff.mpr productive)⟩

theorem Valid.useful (valid : g.Valid) (start : Symbol) : (g.useful start).Valid := by
  rcases useful_cases g start with ⟨_, result⟩ | ⟨_, result⟩
  · rw [result]
    exact valid.removeSymbols _
  · rw [result]
    exact (valid.removeSymbols _).retain _

theorem same_useful (g : Grammar) (start : Symbol) :
    SameDeclarations (g.removeSymbols ((Usefulness.analyze g start).useless g)) (g.useful start) := by
  rcases useful_cases g start with ⟨_, result⟩ | ⟨_, result⟩
  · rw [result]
    exact .refl _
  · rw [result]
    exact same_retain _ _

theorem not_mem_useless {s : Symbol} (declared : s ∈ g.symbols) :
    s ∉ (Usefulness.analyze g start).useless g ↔ g.Reaches start s := by
  rw [mem_useless, not_and, not_not]
  exact imp_iff_right declared

theorem mem_nonterminals_useful {s : Symbol} :
    s ∈ (g.useful start).nonterminals ↔ s ∈ g.nonterminals ∧ g.Reaches start s := by
  rw [(same_useful g start).nonterminals, mem_nonterminals_removeSymbols]
  exact and_congr_right fun declared => not_mem_useless (mem_symbols.mpr (.inl declared))

theorem mem_terminals_useful {s : Symbol} :
    s ∈ (g.useful start).terminals ↔ s ∈ g.terminals ∧ g.Reaches start s := by
  rw [(same_useful g start).terminals, mem_terminals_removeSymbols]
  exact and_congr_right fun declared => not_mem_useless (mem_symbols.mpr (.inr declared))

theorem start_useful (chosen : g.start = some start) : (g.useful start).start = some start := by
  rw [(same_useful g start).start, start_removeSymbols, mem_useless]
  exact ⟨chosen, fun removed => removed.2 .refl⟩

theorem usefulness_of_start (chosen : g.start = some start) :
    g.usefulness = .ok (Usefulness.analyze g start) := by
  rw [usefulness, requireStart, chosen]
  rfl

theorem hasUselessSymbols_of_start (chosen : g.start = some start) :
    g.hasUselessSymbols = .ok ((Usefulness.analyze g start).findsUseless g) := by
  rw [hasUselessSymbols, usefulness_of_start chosen]
  rfl

theorem removeUselessSymbols_of_start (chosen : g.start = some start) :
    g.removeUselessSymbols.report = .ok (g.removeUseless (Usefulness.analyze g start)).report ∧
      g.removeUselessSymbols.grammar = g.useful start := by
  rw [removeUselessSymbols, usefulness_of_start chosen]
  exact ⟨rfl, rfl⟩

/-- The rules over reached symbols stay, none for an empty language. -/
theorem mem_rules_useful (valid : g.Valid) {rule : Rule} :
    rule ∈ (g.useful start).rules ↔ start ∈ g.productive ∧ rule ∈ g.rules ∧
      g.Reaches start rule.lhs ∧ ∀ s ∈ rule.rhs.toList, g.Reaches start s := by
  have kept : rule ∈ (g.removeSymbols ((Usefulness.analyze g start).useless g)).rules ↔
      rule ∈ g.rules ∧ g.Reaches start rule.lhs ∧ ∀ s ∈ rule.rhs.toList, g.Reaches start s := by
    rw [mem_rules_removeSymbols]
    refine and_congr_right fun member => ?_
    have admits := valid.admits member
    refine and_congr ?_ (forall₂_congr fun s inside => ?_)
    · exact not_mem_useless (mem_symbols.mpr (.inl admits.lhs))
    · exact not_mem_useless (admits.declared s inside)
  rcases useful_cases g start with ⟨productive, result⟩ | ⟨unproductive, result⟩
  · rw [result, kept, and_iff_right productive]
  · rw [result, mem_rules_retain, kept, decide_eq_true_eq]
    constructor
    · intro ⟨⟨_, reaches, _⟩, other⟩
      exact absurd (reaches.eq_start valid unproductive) other
    · intro ⟨productive, _⟩
      exact absurd productive unproductive

/-! ### Words -/

theorem generates_of_useful (valid : g.Valid) {s : Symbol} {word : List Symbol}
    (generates : (g.useful start).Generates s word) : g.Generates s word := by
  apply generates.of_rules_subset
  · intro t member
    exact (mem_terminals_useful.mp member).1
  · intro rule member
    exact ((mem_rules_useful valid).mp member).2.1

theorem generates_useful (valid : g.Valid) (productive : start ∈ g.productive) {s : Symbol}
    {word : List Symbol} (generates : g.Generates s word) (reaches : g.Reaches start s) :
    (g.useful start).Generates s word := by
  refine Generates.induct (fun s word => g.Reaches start s → (g.useful start).Generates s word)
    ?_ ?_ generates reaches
  · intro t member reaches
    exact .of_terminal (mem_terminals_useful.mpr ⟨member, reaches⟩)
  · intro rule member part spells reaches
    -- a rule that takes part in a derivation has productive symbols and leads on to them
    have useful : ∀ t ∈ rule.rhs.toList, t ∈ g.productive := by
      intro t inside
      obtain ⟨word, ⟨generates, _⟩, _⟩ := spells.exists_of_mem inside
      exact (mem_productive_iff valid).mpr ⟨word, generates⟩
    have reached : ∀ t ∈ rule.rhs.toList, g.Reaches start t := fun t inside =>
      reaches.tail ⟨rule.rhs, member, useful, inside⟩
    apply Generates.of_rule ((mem_rules_useful valid).mpr ⟨productive, member, reaches, reached⟩)
    exact spells.mono fun t inside part reads => reads.2 (reached t inside)

theorem generates_start_useful (valid : g.Valid) {word : List Symbol} :
    (g.useful start).Generates start word ↔ g.Generates start word := by
  constructor
  · exact generates_of_useful valid
  · intro generates
    exact generates_useful valid ((mem_productive_iff valid).mpr ⟨word, generates⟩) generates .refl

/-! ### Nothing useless is left -/

theorem Reaches.useful (valid : g.Valid) {s : Symbol} (reaches : g.Reaches start s) :
    (g.useful start).Reaches start s := by
  by_cases productive : start ∈ g.productive
  · induction reaches with
    | refl => exact .refl
    | @tail source target before step ih =>
      obtain ⟨rhs, member, all, inside⟩ := step
      have reached : ∀ t ∈ rhs.toList, g.Reaches start t := fun t found =>
        before.tail ⟨rhs, member, all, found⟩
      have kept : (⟨source, rhs⟩ : Rule) ∈ (g.useful start).rules :=
        (mem_rules_useful valid).mpr ⟨productive, member, before, reached⟩
      refine ih.tail ⟨rhs, kept, fun t found => ?_, inside⟩
      obtain ⟨word, generates⟩ := (mem_productive_iff valid).mp (all t found)
      have same := generates_useful valid productive generates (reached t found)
      exact (mem_productive_iff (valid.useful start)).mpr ⟨word, same⟩
  · rw [reaches.eq_start valid productive]
    exact .refl

theorem useless_frame (valid : g.Valid) :
    ((Usefulness.analyze g start).useless g).frame = .blank := by
  have frame : ((Usefulness.analyze g start).useless g).frame =
      g.symbols.frame.difference (Usefulness.analyze g start).reachable.frame := rfl
  rw [frame, valid.symbols_frame, PackedBits.blank_difference]

/-- The check passes where every declared symbol is reached and an empty language
has no rule of the start. -/
theorem findsUseless_eq_false (valid : g.Valid) :
    (Usefulness.analyze g start).findsUseless g = false ↔
      (∀ s ∈ g.symbols, g.Reaches start s) ∧
        (start ∈ g.productive ∨ ∀ rhs, (⟨start, rhs⟩ : Rule) ∉ g.rules) := by
  have none_useless : ((Usefulness.analyze g start).useless g).isEmpty = true ↔
      ∀ s ∈ g.symbols, g.Reaches start s := by
    rw [SymbolSet.isEmpty_iff (useless_frame valid)]
    refine forall_congr' fun s => ?_
    rw [mem_useless, not_and, not_not]
  have no_rules : (g.productionsOf start).isEmpty = true ↔ ∀ rhs, (⟨start, rhs⟩ : Rule) ∉ g.rules := by
    rw [List.isEmpty_iff, List.eq_nil_iff_forall_not_mem]
    refine forall_congr' fun rhs => ?_
    rw [mem_rules]
  rw [Usefulness.findsUseless, Bool.or_eq_false_iff, Bool.not_eq_false', none_useless,
    Bool.and_eq_false_iff, Bool.not_eq_false', Usefulness.isLanguageEmpty, Bool.not_eq_false',
    productive_analyze, start_analyze, no_rules, SymbolSet.mem_iff]

theorem findsUseless_useful (valid : g.Valid) :
    (Usefulness.analyze (g.useful start) start).findsUseless (g.useful start) = false := by
  rw [findsUseless_eq_false (valid.useful start)]
  constructor
  · intro s declared
    rw [mem_symbols, mem_nonterminals_useful, mem_terminals_useful] at declared
    exact (declared.elim And.right And.right).useful valid
  · by_cases productive : start ∈ g.productive
    · left
      obtain ⟨word, generates⟩ := (mem_productive_iff valid).mp productive
      have kept := (generates_start_useful valid).mpr generates
      exact (mem_productive_iff (valid.useful start)).mpr ⟨word, kept⟩
    · right
      intro rhs member
      exact productive ((mem_rules_useful valid).mp member).1

/-! ### Words through a reached symbol -/

/-- The words of a reached symbol occur in words of the start. -/
theorem Reaches.exists_word (valid : g.Valid) {s : Symbol} (reaches : g.Reaches start s)
    {part : List Symbol} (generates : g.Generates s part) :
    ∃ word, g.Generates start word ∧ ∀ t ∈ part, t ∈ word := by
  induction reaches generalizing part with
  | refl => exact ⟨part, generates, fun t inside => inside⟩
  | tail _ step ih =>
    -- the other symbols of the right-hand side have words to put around this one
    obtain ⟨rhs, member, productive, inside⟩ := step
    obtain ⟨left, right, shape⟩ := List.append_of_mem inside
    have words : ∀ t ∈ rhs.toList, ∃ word, g.Generates t word := fun t found =>
      (mem_productive_iff valid).mp (productive t found)
    rw [shape] at words
    obtain ⟨front, before⟩ := Spells.exists_of_forall fun t found => words t (List.mem_append_left _ found)
    obtain ⟨back, after⟩ := Spells.exists_of_forall fun t found =>
      words t (List.mem_append_right _ (List.mem_cons_of_mem _ found))
    have spells := before.append (.cons generates after)
    rw [← shape] at spells
    obtain ⟨word, whole, subset⟩ := ih (.of_rule member spells)
    refine ⟨word, whole, fun t found => subset t ?_⟩
    exact List.mem_append_right _ (List.mem_append_left _ found)

section Trimmed

variable (valid : g.Valid) (useless : (Usefulness.analyze g start).findsUseless g = false)

include valid useless

theorem mem_terminals_iff {t : Symbol} :
    t ∈ g.terminals ↔ ∃ word, g.Generates start word ∧ t ∈ word := by
  constructor
  · intro terminal
    have reached := ((findsUseless_eq_false valid).mp useless).1 t (mem_symbols.mpr (.inr terminal))
    obtain ⟨word, generates, subset⟩ := reached.exists_word valid (.of_terminal terminal)
    exact ⟨word, generates, subset t (List.mem_singleton_self t)⟩
  · intro ⟨word, generates, inside⟩
    exact generates.2 t inside

theorem rules_eq_nil_iff (chosen : g.start = some start) :
    g.rules = [] ↔ ∀ word, ¬ g.Generates start word := by
  constructor
  · intro nothing
    exact not_generates_of_no_rules valid nothing (valid.start_declared start chosen)
  · intro none_derived
    obtain ⟨reached, ends⟩ := (findsUseless_eq_false valid).mp useless
    have unproductive : start ∉ g.productive := by
      intro productive
      obtain ⟨word, generates⟩ := (mem_productive_iff valid).mp productive
      exact none_derived word generates
    apply List.eq_nil_iff_forall_not_mem.mpr
    intro ⟨lhs, rhs⟩ member
    have source := reached lhs (mem_symbols.mpr (.inl (valid.admits member).lhs))
    rw [source.eq_start valid unproductive] at member
    exact ends.resolve_left unproductive rhs member

end Trimmed

end Grammar

end ContextFree
