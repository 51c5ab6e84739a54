import ContextFree.Grammar.Edit
import ContextFree.Grammar.Valid
import ContextFree.Proofs.Growth
import Mathlib.Data.List.Basic

/-! What the edits of rules and symbols keep.

An edit is described by three facts: it keeps no empty production set, it keeps
the declarations, and its rules are known. They determine the grammar and
decide whether it is valid.
-/

set_option autoImplicit false

namespace ContextFree

open Ordered

theorem bind_eq_ok {ε α β : Type} {first : Except ε α} {next : α → Except ε β} {result : β}
    (succeeded : first >>= next = .ok result) : ∃ value, first = .ok value ∧ next value = .ok result := by
  cases first with
  | error fault => cases succeeded
  | ok value => exact ⟨value, rfl, succeeded⟩

theorem bind_eq_ok_iff {ε α β : Type} {first : Except ε α} {next : α → Except ε β} {result : β} :
    first >>= next = .ok result ↔ ∃ value, first = .ok value ∧ next value = .ok result := by
  refine ⟨bind_eq_ok, ?_⟩
  rintro ⟨value, rfl, succeeded⟩
  exact succeeded

theorem map_eq_ok {ε α β : Type} {first : Except ε α} {next : α → β} {result : β}
    (succeeded : first.map next = .ok result) : ∃ value, first = .ok value ∧ next value = result := by
  cases first with
  | error fault => cases succeeded
  | ok value => exact ⟨value, rfl, Except.ok.inj succeeded⟩

theorem bind_eq_error {ε α β : Type} {first : Except ε α} {next : α → Except ε β} {fault : ε}
    (failed : first >>= next = .error fault) :
    first = .error fault ∨ ∃ value, first = .ok value ∧ next value = .error fault := by
  cases first with
  | error other => exact .inl (congrArg Except.error (Except.error.inj failed))
  | ok value => exact .inr ⟨value, rfl, failed⟩

theorem map_eq_error {ε α β : Type} {first : Except ε α} {next : α → β} {fault : ε}
    (failed : first.map next = .error fault) : first = .error fault := by
  cases first with
  | error other => exact congrArg Except.error (Except.error.inj failed)
  | ok value => cases failed

@[simp] theorem Rhs.ofList_eq_epsilon {symbols : List Symbol} :
    Rhs.ofList symbols = .epsilon ↔ symbols = [] := by
  cases symbols <;> simp [ofList]

theorem Rhs.ofList_ne_sequence_nil (symbols : List Symbol) : Rhs.ofList symbols ≠ .sequence [] := by
  cases symbols <;> simp [ofList]

theorem Rhs.ofList_toList {rhs : Rhs} (proper : rhs ≠ .sequence []) : Rhs.ofList rhs.toList = rhs := by
  obtain _ | _ | _ := rhs
  · rfl
  · exact absurd rfl proper
  · rfl

theorem Rhs.eq_epsilon_of_toList {rhs : Rhs} (proper : rhs ≠ .sequence []) (empty : rhs.toList = []) :
    rhs = .epsilon := by
  rw [← ofList_toList proper, empty]
  rfl

theorem Rhs.toList_eq_singleton {rhs : Rhs} {s : Symbol} : rhs.toList = [s] ↔ rhs = .sequence [s] := by
  cases rhs <;> simp [toList]

theorem eq_of_ascending {α : Type} {r : α → α → Prop} (asymm : ∀ {a b}, r a b → ¬ r b a)
    {first second : List α} (left : first.Pairwise r) (right : second.Pairwise r)
    (same : ∀ a, a ∈ first ↔ a ∈ second) : first = second := by
  have distinct {values : List α} (sorted : values.Pairwise r) : values.Nodup := by
    refine sorted.imp fun less => ?_
    rintro rfl
    exact asymm less less
  have perm := (List.perm_ext_iff_of_nodup (distinct left) (distinct right)).mpr same
  apply perm.eq_of_pairwise _ left right
  intro a b _ _ less greater
  exact absurd greater (asymm less)

theorem OrderedSet.ext_mem {α : Type} [Ordered α] {first second : OrderedSet α}
    (same : ∀ value, value ∈ first ↔ value ∈ second) : first = second := by
  obtain ⟨values, sorted⟩ := first
  obtain ⟨others, ascending⟩ := second
  have equal : values = others :=
    eq_of_ascending (fun less => by simp [before_asymm less]) sorted ascending same
  subst equal
  rfl

theorem OrderedMap.ext_get? {κ ν : Type} [Ordered κ] [DecidableEq κ] {first second : OrderedMap κ ν}
    (same : ∀ key, first.get? key = second.get? key) : first = second := by
  have equal : first.entries = second.entries := by
    refine eq_of_ascending (fun less => by simp [before_asymm less]) first.ascending
      second.ascending ?_
    rintro ⟨key, value⟩
    rw [← get?_eq_some, ← get?_eq_some, same]
  obtain ⟨entries, sorted⟩ := first
  obtain ⟨others, ascending⟩ := second
  subst equal
  rfl

theorem PackedBits.blank_difference (bits : PackedBits) : blank.difference bits = blank := by
  obtain ⟨_ | ⟨first, _ | ⟨second, rest⟩⟩, width⟩ := bits <;> simp [blank, difference, zipKeep]

theorem SymbolSet.isEmpty_iff {set : SymbolSet} (frame : set.frame = .blank) :
    set.isEmpty = true ↔ ∀ s, s ∉ set := by
  constructor
  · intro zero s
    have bit := bit_pack (frame.trans PackedBits.blank_eq_spare) s
    -- all stored words are zero, the one with the bit of this symbol among them
    have word : set.pack.words.getD (s.id.val / 32) 0#32 = 0#32 := by
      rw [isEmpty, PackedBits.isZero, List.all_eq_true] at zero
      rw [List.getD_eq_getElem?_getD]
      cases found : set.pack.words[s.id.val / 32]? with
      | none => rfl
      | some word => exact of_decide_eq_true (zero word (List.mem_of_getElem? found))
    rw [PackedBits.bit, word, BitVec.getLsbD_zero] at bit
    rw [mem_iff, ← bit]
    exact Bool.false_ne_true
  · intro none_inside
    have empty : set = .empty := by
      apply ext_contains _ frame
      intro s
      rw [contains_empty, ← Bool.not_eq_true]
      exact none_inside s
    rw [empty]
    decide

/-- Sets with blank frames agree if they are the same. -/
theorem SymbolSet.agrees_iff {first second : SymbolSet} (left : first.frame = .blank)
    (right : second.frame = .blank) : first.agrees second = true ↔ first = second := by
  constructor
  · intro agrees
    -- both are stored in two words, so none is left out of the comparison
    have packed : first.pack = second.pack := by
      simpa [SymbolSet.agrees, PackedBits.agrees, pack, left, right, PackedBits.union, PackedBits.blank,
        memberBits, zipKeep] using agrees
    rw [← unpack_pack (left.trans PackedBits.blank_eq_spare), packed,
      unpack_pack (right.trans PackedBits.blank_eq_spare)]
  · rintro rfl
    simp [SymbolSet.agrees, PackedBits.agrees, pack, left, PackedBits.union, PackedBits.blank, memberBits, zipKeep]

namespace Grammar

variable {g other : Grammar}

/-- No left-hand side has an empty production set. -/
def Pruned (g : Grammar) : Prop :=
  ∀ lhs set, g.productions.get? lhs = some set → ∃ rhs, rhs ∈ set

/-- Declared symbols and start are the same. -/
structure SameDeclarations (g other : Grammar) : Prop where
  nonterminals : other.nonterminals = g.nonterminals
  terminals : other.terminals = g.terminals
  start : other.start = g.start

theorem SameDeclarations.refl (g : Grammar) : SameDeclarations g g :=
  ⟨rfl, rfl, rfl⟩

theorem SameDeclarations.trans {third : Grammar} (left : SameDeclarations g other)
    (right : SameDeclarations other third) : SameDeclarations g third where
  nonterminals := right.nonterminals.trans left.nonterminals
  terminals := right.terminals.trans left.terminals
  start := right.start.trans left.start

theorem SameDeclarations.symbols (same : SameDeclarations g other) : other.symbols = g.symbols := by
  rw [Grammar.symbols, same.nonterminals, same.terminals, ← Grammar.symbols]

@[simp] theorem mem_symbols {s : Symbol} : s ∈ g.symbols ↔ s ∈ g.nonterminals ∨ s ∈ g.terminals :=
  SymbolSet.mem_union

theorem productions_eq (left : g.Pruned) (right : other.Pruned)
    (rules : ∀ rule, rule ∈ other.rules ↔ rule ∈ g.rules) : other.productions = g.productions := by
  have inside (lhs : Symbol) (rhs : Rhs) := rules ⟨lhs, rhs⟩
  simp only [mem_rules, mem_productionsOf] at inside
  apply OrderedMap.ext_get?
  intro lhs
  -- a set that only one of the grammars has would be empty
  cases found : g.productions.get? lhs with
  | none =>
    cases kept : other.productions.get? lhs with
    | none => rfl
    | some set =>
      obtain ⟨rhs, member⟩ := right lhs set kept
      obtain ⟨_, impossible, _⟩ := (inside lhs rhs).mp ⟨set, kept, member⟩
      rw [found] at impossible
      cases impossible
  | some set =>
    cases kept : other.productions.get? lhs with
    | none =>
      obtain ⟨rhs, member⟩ := left lhs set found
      obtain ⟨_, impossible, _⟩ := (inside lhs rhs).mpr ⟨set, found, member⟩
      rw [kept] at impossible
      cases impossible
    | some others =>
      refine congrArg some (OrderedSet.ext_mem fun rhs => ?_)
      simpa [found, kept] using inside lhs rhs

theorem pairwise_productionsOf (g : Grammar) (lhs : Symbol) :
    (g.productionsOf lhs).Pairwise fun a b => before a b = true := by
  unfold productionsOf
  split
  · exact OrderedSet.ascending _
  · exact .nil

theorem eq_productionsOf {lhs : Symbol} {listed : List Rhs}
    (sorted : listed.Pairwise fun a b => before a b = true)
    (rules : ∀ rhs, rhs ∈ listed ↔ (⟨lhs, rhs⟩ : Rule) ∈ g.rules) : listed = g.productionsOf lhs := by
  refine eq_of_ascending (fun less => by simp [before_asymm less]) sorted
    (pairwise_productionsOf g lhs) fun rhs => ?_
  rw [rules, mem_rules]

/-- Without empty sets, a grammar is its declarations and its rules. -/
theorem eq_of_rules (left : g.Pruned) (right : other.Pruned) (same : SameDeclarations g other)
    (rules : ∀ rule, rule ∈ other.rules ↔ rule ∈ g.rules) : other = g := by
  have productions := productions_eq left right rules
  obtain ⟨_, _, _, _⟩ := g
  obtain ⟨_, _, _, _⟩ := other
  cases same
  simp_all

theorem isEmpty_iff (pruned : g.Pruned) : g.isEmpty = true ↔ g.rules = [] := by
  unfold isEmpty OrderedMap.isEmpty rules
  rw [List.isEmpty_iff, List.flatMap_eq_nil_iff]
  constructor
  · intro nothing entry member
    rw [nothing] at member
    cases member
  · intro nothing
    apply List.eq_nil_iff_forall_not_mem.mpr
    rintro ⟨lhs, set⟩ member
    obtain ⟨rhs, inside⟩ := pruned lhs set (OrderedMap.get?_eq_some.mpr member)
    have none_left := List.map_eq_nil_iff.mp (nothing (lhs, set) member)
    rw [← OrderedSet.mem_toList, none_left] at inside
    cases inside

/-! ### Single edits -/

theorem pruned_addRule (pruned : g.Pruned) (lhs : Symbol) (rhs : Rhs) : (g.addRule lhs rhs).Pruned := by
  intro key set found
  simp only [addRule, OrderedMap.get?_insert] at found
  split at found
  · cases found
    exact ⟨rhs, OrderedSet.mem_insert.mpr (.inl rfl)⟩
  · exact pruned key set found

theorem same_addRule (g : Grammar) (lhs : Symbol) (rhs : Rhs) :
    SameDeclarations g (g.addRule lhs rhs) :=
  ⟨rfl, rfl, rfl⟩

theorem exists_mem_of_not_isEmpty {α : Type} [Ordered α] {set : OrderedSet α}
    (filled : ¬ set.isEmpty = true) : ∃ value, value ∈ set := by
  obtain ⟨value, member⟩ := List.exists_mem_of_ne_nil set.toList fun nothing =>
    filled (List.isEmpty_iff.mpr nothing)
  exact ⟨value, member⟩

theorem pruned_removeRule (pruned : g.Pruned) (lhs : Symbol) (rhs : Rhs) :
    (g.removeRule lhs rhs).Pruned := by
  intro key set found
  unfold removeRule at found
  split at found
  · exact pruned key set found
  · simp only at found
    split at found
    · simp only [OrderedMap.get?_erase] at found
      split at found
      · cases found
      · exact pruned key set found
    · rename_i filled
      simp only [OrderedMap.get?_insert] at found
      split at found
      · cases found
        exact exists_mem_of_not_isEmpty filled
      · exact pruned key set found

theorem same_removeRule (g : Grammar) (lhs : Symbol) (rhs : Rhs) :
    SameDeclarations g (g.removeRule lhs rhs) := by
  unfold removeRule
  split <;> exact ⟨rfl, rfl, rfl⟩

theorem pruned_retain (g : Grammar) (keep : Symbol → Rhs → Bool) : (g.retain keep).Pruned := by
  intro lhs set found
  simp only [retain, OrderedMap.get?_filterMap, Option.bind_eq_some_iff] at found
  obtain ⟨_, _, kept⟩ := found
  split at kept
  · cases kept
  · rename_i filled
    cases kept
    exact exists_mem_of_not_isEmpty filled

theorem same_retain (g : Grammar) (keep : Symbol → Rhs → Bool) : SameDeclarations g (g.retain keep) :=
  ⟨rfl, rfl, rfl⟩

/-! ### Edits of several rules -/

theorem pruned_addRules (pruned : g.Pruned) (added : List Rule) : (g.addRules added).Pruned := by
  unfold addRules
  induction added generalizing g with
  | nil => exact pruned
  | cons rule rest ih => exact ih (pruned_addRule pruned rule.lhs rule.rhs)

theorem same_addRules (g : Grammar) (added : List Rule) : SameDeclarations g (g.addRules added) := by
  unfold addRules
  induction added generalizing g with
  | nil => exact .refl g
  | cons rule rest ih => exact (same_addRule g rule.lhs rule.rhs).trans (ih _)

theorem pruned_removeRules (pruned : g.Pruned) (removed : List Rule) :
    (g.removeRules removed).Pruned := by
  unfold removeRules
  induction removed generalizing g with
  | nil => exact pruned
  | cons rule rest ih => exact ih (pruned_removeRule pruned rule.lhs rule.rhs)

theorem same_removeRules (g : Grammar) (removed : List Rule) :
    SameDeclarations g (g.removeRules removed) := by
  unfold removeRules
  induction removed generalizing g with
  | nil => exact .refl g
  | cons rule rest ih => exact (same_removeRule g rule.lhs rule.rhs).trans (ih _)

/-! ### Validity -/

/-- The rule may stand in the grammar: its symbols are declared, and it has an
empty right-hand side in one form only. -/
structure Admits (g : Grammar) (rule : Rule) : Prop where
  lhs : rule.lhs ∈ g.nonterminals
  proper : rule.rhs ≠ .sequence []
  declared : ∀ s ∈ rule.rhs.toList, s ∈ g.symbols

namespace Valid

theorem pruned (valid : g.Valid) : g.Pruned :=
  valid.lhs_inhabited

theorem admits (valid : g.Valid) {rule : Rule} (member : rule ∈ g.rules) : g.Admits rule where
  lhs := by
    obtain ⟨set, found, _⟩ := mem_productionsOf.mp (mem_rules.mp member)
    exact valid.lhs_declared rule.lhs set found
  proper := valid.rhs_proper rule member
  declared := valid.rhs_declared rule member

/-- With the same declarations, admitted rules make a valid grammar. -/
theorem of_same (valid : g.Valid) (same : SameDeclarations g other) (pruned : other.Pruned)
    (admits : ∀ rule ∈ other.rules, g.Admits rule) : other.Valid where
  nonterminals_frame := by rw [same.nonterminals, valid.nonterminals_frame]
  terminals_frame := by rw [same.terminals, valid.terminals_frame]
  nonterminal_case := by
    rw [same.nonterminals]
    exact valid.nonterminal_case
  terminal_case := by
    rw [same.terminals]
    exact valid.terminal_case
  lhs_declared lhs set found := by
    obtain ⟨rhs, member⟩ := pruned lhs set found
    have inside : (⟨lhs, rhs⟩ : Rule) ∈ other.rules :=
      mem_rules.mpr (mem_productionsOf.mpr ⟨set, found, member⟩)
    rw [same.nonterminals]
    exact (admits _ inside).lhs
  lhs_inhabited := pruned
  rhs_proper rule member := (admits rule member).proper
  rhs_declared rule member := by
    rw [same.symbols]
    exact (admits rule member).declared
  start_declared s chosen := by
    rw [same.nonterminals]
    exact valid.start_declared s (same.start ▸ chosen)

theorem not_terminal (valid : g.Valid) {s : Symbol} (member : s ∈ g.nonterminals) :
    s ∉ g.terminals := by
  intro terminal
  have kind := valid.nonterminal_case s member
  rw [valid.terminal_case s terminal] at kind
  cases kind

theorem toList_ne_nil (valid : g.Valid) {rule : Rule} (member : rule ∈ g.rules)
    (filled : rule.rhs.isEpsilon = false) : rule.rhs.toList ≠ [] := by
  intro nothing
  rw [Rhs.eq_epsilon_of_toList (valid.admits member).proper nothing] at filled
  cases filled

end Valid

theorem Valid.retain (valid : g.Valid) (keep : Symbol → Rhs → Bool) : (g.retain keep).Valid :=
  valid.of_same (same_retain g keep) (pruned_retain g keep) fun _ member =>
    valid.admits (mem_rules_retain.mp member).1

theorem Valid.removeRules (valid : g.Valid) (removed : List Rule) : (g.removeRules removed).Valid :=
  valid.of_same (same_removeRules g removed) (pruned_removeRules valid.pruned removed)
    fun _ member => valid.admits (mem_rules_removeRules.mp member).1

theorem Valid.removeRule (valid : g.Valid) (lhs : Symbol) (rhs : Rhs) : (g.removeRule lhs rhs).Valid :=
  valid.of_same (same_removeRule g lhs rhs) (pruned_removeRule valid.pruned lhs rhs)
    fun _ member => valid.admits (mem_rules_removeRule.mp member).1

theorem Valid.addRules (valid : g.Valid) {added : List Rule} (admitted : ∀ rule ∈ added, g.Admits rule) :
    (g.addRules added).Valid := by
  apply valid.of_same (same_addRules g added) (pruned_addRules valid.pruned added)
  intro rule member
  rcases mem_rules_addRules.mp member with new | old
  · exact admitted rule new
  · exact valid.admits old

theorem Valid.addRule (valid : g.Valid) {lhs : Symbol} {rhs : Rhs} (admitted : g.Admits ⟨lhs, rhs⟩) :
    (g.addRule lhs rhs).Valid := by
  apply valid.of_same (same_addRule g lhs rhs) (pruned_addRule valid.pruned lhs rhs)
  intro rule member
  rcases mem_rules_addRule.mp member with rfl | old
  · exact admitted
  · exact valid.admits old

/-! ### Symbols -/

theorem mem_nonterminals_removeSymbols {removed : SymbolSet} {s : Symbol} :
    s ∈ (g.removeSymbols removed).nonterminals ↔ s ∈ g.nonterminals ∧ s ∉ removed :=
  SymbolSet.mem_difference

theorem mem_terminals_removeSymbols {removed : SymbolSet} {s : Symbol} :
    s ∈ (g.removeSymbols removed).terminals ↔ s ∈ g.terminals ∧ s ∉ removed :=
  SymbolSet.mem_difference

theorem start_removeSymbols {removed : SymbolSet} {s : Symbol} :
    (g.removeSymbols removed).start = some s ↔ g.start = some s ∧ s ∉ removed := by
  have filtered : (g.removeSymbols removed).start = g.start.filter fun s => !removed.contains s := rfl
  rw [filtered, Option.filter_eq_some_iff, Bool.not_eq_true', SymbolSet.mem_iff, Bool.not_eq_true]

theorem Valid.removeSymbols (valid : g.Valid) (removed : SymbolSet) : (g.removeSymbols removed).Valid := by
  have pruned : (g.removeSymbols removed).Pruned := pruned_retain _ _
  have kept {rule : Rule} (member : rule ∈ (g.removeSymbols removed).rules) :=
    mem_rules_removeSymbols.mp member
  constructor
  · have frame : (g.removeSymbols removed).nonterminals.frame =
        g.nonterminals.frame.difference removed.frame := rfl
    rw [frame, valid.nonterminals_frame, PackedBits.blank_difference]
  · have frame : (g.removeSymbols removed).terminals.frame =
        g.terminals.frame.difference removed.frame := rfl
    rw [frame, valid.terminals_frame, PackedBits.blank_difference]
  · intro s member
    exact valid.nonterminal_case s (mem_nonterminals_removeSymbols.mp member).1
  · intro s member
    exact valid.terminal_case s (mem_terminals_removeSymbols.mp member).1
  · intro lhs set found
    obtain ⟨rhs, inside⟩ := pruned lhs set found
    have member : (⟨lhs, rhs⟩ : Rule) ∈ (g.removeSymbols removed).rules :=
      mem_rules.mpr (mem_productionsOf.mpr ⟨set, found, inside⟩)
    exact mem_nonterminals_removeSymbols.mpr ⟨(valid.admits (kept member).1).lhs, (kept member).2.1⟩
  · exact pruned
  · intro rule member
    exact (valid.admits (kept member).1).proper
  · intro rule member s inside
    have stays := (kept member).2.2 s inside
    rw [mem_symbols, mem_nonterminals_removeSymbols, mem_terminals_removeSymbols]
    exact (mem_symbols.mp ((valid.admits (kept member).1).declared s inside)).imp
      (fun declared => ⟨declared, stays⟩) fun declared => ⟨declared, stays⟩
  · intro s chosen
    obtain ⟨old, stays⟩ := start_removeSymbols.mp chosen
    exact mem_nonterminals_removeSymbols.mpr ⟨valid.start_declared s old, stays⟩

theorem Valid.symbols_frame (valid : g.Valid) : g.symbols.frame = .blank := by
  have frame : g.symbols.frame = g.nonterminals.frame.union g.terminals.frame := rfl
  rw [frame, valid.nonterminals_frame, valid.terminals_frame]
  decide

@[simp] theorem rules_declare (g : Grammar) (s : Symbol) (kind : Kind) :
    (g.declare s kind).rules = g.rules := by
  cases kind <;> rfl

theorem mem_nonterminals_declare {letter s : Symbol} :
    s ∈ (g.declare letter .nonterminal).nonterminals ↔ s ∈ g.nonterminals ∨ s = letter :=
  SymbolSet.mem_put

theorem Valid.declare (valid : g.Valid) {s : Symbol} {kind : Kind}
    (allowed : Kind.ofChar? s.toChar = some kind) : (g.declare s kind).Valid := by
  have larger : ∀ t ∈ g.symbols, t ∈ (g.declare s kind).symbols := by
    intro t declared
    rw [mem_symbols] at declared ⊢
    cases kind with
    | terminal => exact declared.imp_right fun old => SymbolSet.mem_put.mpr (.inl old)
    | nonterminal => exact declared.imp_left fun old => SymbolSet.mem_put.mpr (.inl old)
  have nonterminals : ∀ t ∈ g.nonterminals, t ∈ (g.declare s kind).nonterminals := by
    intro t declared
    cases kind with
    | terminal => exact declared
    | nonterminal => exact SymbolSet.mem_put.mpr (.inl declared)
  have productions : (g.declare s kind).productions = g.productions := by
    cases kind <;> rfl
  have start : (g.declare s kind).start = g.start := by
    cases kind <;> rfl
  constructor
  · cases kind <;> exact valid.nonterminals_frame
  · cases kind <;> exact valid.terminals_frame
  · intro t declared
    cases kind with
    | terminal => exact valid.nonterminal_case t declared
    | nonterminal =>
      rcases SymbolSet.mem_put.mp declared with old | rfl
      · exact valid.nonterminal_case t old
      · exact allowed
  · intro t declared
    cases kind with
    | nonterminal => exact valid.terminal_case t declared
    | terminal =>
      rcases SymbolSet.mem_put.mp declared with old | rfl
      · exact valid.terminal_case t old
      · exact allowed
  · intro lhs set found
    rw [productions] at found
    exact nonterminals lhs (valid.lhs_declared lhs set found)
  · rw [productions]
    exact valid.lhs_inhabited
  · rw [rules_declare]
    exact valid.rhs_proper
  · rw [rules_declare]
    intro rule member t inside
    exact larger t (valid.rhs_declared rule member t inside)
  · rw [start]
    intro t chosen
    exact nonterminals t (valid.start_declared t chosen)

theorem Valid.withStart (valid : g.Valid) {start : Symbol} (declared : start ∈ g.nonterminals) :
    (g.withStart start).Valid :=
  { valid with
    start_declared := by
      intro s chosen
      cases chosen
      exact declared }

/-- The rules `S ::= aSb` and `S ::= l`. Symbol 28 is `S`, 36 and 37 are `a` and `b`. -/
def balanced : Grammar :=
  let symbols := ((empty.declare ⟨28⟩ .nonterminal).declare ⟨36⟩ .terminal).declare ⟨37⟩ .terminal
  ((symbols.addRule ⟨28⟩ (.sequence [⟨36⟩, ⟨28⟩, ⟨37⟩])).addRule ⟨28⟩ .epsilon).withStart ⟨28⟩

theorem valid_balanced : balanced.Valid := by
  unfold balanced
  apply Valid.withStart
  · apply Valid.addRule
    · apply Valid.addRule
      · apply Valid.declare
        · apply Valid.declare
          · apply Valid.declare valid_empty
            decide
          · decide
        · decide
      · exact ⟨by decide, by decide, by decide⟩
    · exact ⟨by decide, by decide, by decide⟩
  · decide

end Grammar

end ContextFree
