import ContextFree.Proofs.Chomsky.Binary
import Mathlib.Data.Finset.Card

/-! The letters that a stage takes.

Terminals and suffixes get their names in the same way: a glossary tells the names in
use, and a key that is not in it takes the next letter. So a stage takes one letter for
every key that is wanted and has no name before, and it fails only if the supply has
fewer letters than that.
-/

set_option autoImplicit false

namespace ContextFree

namespace Draft

/-! ### Glossaries -/

/-- Keys with the nonterminals that stand for them. -/
abbrev Glossary (κ : Type) := List (κ × Symbol)

section Naming

variable {κ : Type} [DecidableEq κ] {known new more : Glossary κ} {key : κ} {name : Symbol}
  {wanted others : Finset κ}

def keys (known : Glossary κ) : Finset κ :=
  (known.map Prod.fst).toFinset

/-- The name of a key. Of two entries for one key the first counts. -/
def nameOf? (known : Glossary κ) (key : κ) : Option Symbol :=
  (known.find? fun entry => decide (entry.1 = key)).map Prod.snd

theorem mem_keys : key ∈ keys known ↔ ∃ name, (key, name) ∈ known := by
  simp [keys]

@[simp] theorem keys_nil : keys ([] : Glossary κ) = ∅ :=
  rfl

@[simp] theorem keys_append : keys (known ++ new) = keys known ∪ keys new := by
  rw [keys, List.map_append, List.toFinset_append, ← keys, ← keys]

theorem mem_of_nameOf? (found : nameOf? known key = some name) : (key, name) ∈ known := by
  obtain ⟨⟨other, _⟩, first, rfl⟩ := Option.map_eq_some_iff.mp found
  have matched := List.find?_some first
  have same : other = key := of_decide_eq_true matched
  rw [← same]
  exact List.mem_of_find?_eq_some first

theorem nameOf?_eq_none : nameOf? known key = none ↔ key ∉ keys known := by
  rw [nameOf?, Option.map_eq_none_iff, List.find?_eq_none, mem_keys]
  constructor
  · rintro absent ⟨name, listed⟩
    exact absent _ listed (decide_eq_true rfl)
  · rintro absent ⟨other, name⟩ listed matched
    have same : other = key := of_decide_eq_true matched
    rw [same] at listed
    exact absent ⟨name, listed⟩

theorem nameOf?_append : nameOf? (known ++ new) key = (nameOf? known key).or (nameOf? new key) := by
  rw [nameOf?, List.find?_append, nameOf?, nameOf?]
  cases known.find? fun entry => decide (entry.1 = key) <;> rfl

theorem nameOf?_of_mem (distinct : (known.map Prod.fst).Nodup) (listed : (key, name) ∈ known) :
    nameOf? known key = some name := by
  cases found : nameOf? known key with
  | none => exact absurd (mem_keys.mpr ⟨name, listed⟩) (nameOf?_eq_none.mp found)
  | some other =>
    have same := List.inj_on_of_nodup_map distinct listed (mem_of_nameOf? found) rfl
    rw [(Prod.mk.inj same).2]

/-! ### Letters -/

/-- The letters stood first in the supply and are declared now. -/
structure Takes (letters : List Symbol) (draft after : Draft) : Prop where
  supply : draft.supply.letters = letters ++ after.supply.letters
  introduced : after.introduced = draft.introduced ++ letters
  nonterminals : after.grammar.nonterminals = letters.foldl SymbolSet.put draft.grammar.nonterminals
  terminals : after.grammar.terminals = draft.grammar.terminals

variable {letters : List Symbol} {draft middle after : Draft}

theorem Takes.refl (draft : Draft) : Takes [] draft draft where
  supply := rfl
  introduced := (List.append_nil _).symm
  nonterminals := rfl
  terminals := rfl

theorem Takes.trans {rest : List Symbol} (first : Takes letters draft middle)
    (second : Takes rest middle after) : Takes (letters ++ rest) draft after where
  supply := by rw [first.supply, second.supply, List.append_assoc]
  introduced := by rw [second.introduced, first.introduced, List.append_assoc]
  nonterminals := by rw [second.nonterminals, first.nonterminals, List.foldl_append]
  terminals := second.terminals.trans first.terminals

theorem Takes.of_same (takes : Takes letters draft middle) (supply : after.supply = middle.supply)
    (introduced : after.introduced = middle.introduced)
    (same : Grammar.SameDeclarations middle.grammar after.grammar) : Takes letters draft after where
  supply := by rw [supply, takes.supply]
  introduced := by rw [introduced, takes.introduced]
  nonterminals := by rw [same.nonterminals, takes.nonterminals]
  terminals := by rw [same.terminals, takes.terminals]

theorem Takes.mem_nonterminals (takes : Takes letters draft after) {s : Symbol} :
    s ∈ after.grammar.nonterminals ↔ s ∈ draft.grammar.nonterminals ∨ s ∈ letters := by
  rw [takes.nonterminals, SymbolSet.mem_foldl_put]

theorem takes_fresh {letter : Symbol} {rest : List Symbol}
    (letters : draft.supply.letters = letter :: rest) :
    ∃ after, draft.fresh = .ok (letter, after) ∧ Takes [letter] draft after ∧
      after.grammar = draft.grammar.declare letter .nonterminal := by
  obtain ⟨after, taken, left, introduced, grammar⟩ := fresh_eq_ok letters
  refine ⟨after, taken, ⟨?_, introduced, ?_, ?_⟩, grammar⟩
  · rw [letters, left]
    rfl
  · rw [grammar]
    rfl
  · rw [grammar]
    rfl

/-- The wanted keys without a name got one letter each. -/
structure Enters (wanted : Finset κ) (known new : Glossary κ) (draft after : Draft) : Prop where
  distinct : (new.map Prod.fst).Nodup
  fills : keys new = wanted \ keys known
  takes : Takes (new.map Prod.snd) draft after

theorem Enters.replaceRule (enters : Enters wanted known new draft after) (rule : Rule)
    (symbols : List Symbol) :
    Enters wanted known new draft (after.replaceRule rule symbols) where
  distinct := enters.distinct
  fills := enters.fills
  takes := enters.takes.of_same rfl rfl (same_replaceRule after rule symbols)

theorem Enters.nothing (named : wanted ⊆ keys known) (draft : Draft) :
    Enters wanted known [] draft draft where
  distinct := .nil
  fills := (Finset.sdiff_eq_empty_iff_subset.mpr named).symm
  takes := .refl draft

theorem Enters.keys_append (enters : Enters wanted known new draft after) :
    keys (known ++ new) = keys known ∪ wanted := by
  rw [Draft.keys_append, enters.fills, Finset.union_sdiff_self_eq_union]

theorem Enters.card (enters : Enters wanted known new draft after) :
    (wanted \ keys known).card = new.length := by
  rw [← enters.fills, keys, List.toFinset_card_of_nodup enters.distinct, List.length_map]

theorem Enters.union_sdiff (enters : Enters wanted known new draft after) (others : Finset κ) :
    (wanted ∪ others) \ keys known = wanted \ keys known ∪ others \ keys (known ++ new) := by
  rw [enters.keys_append]
  ext key
  simp only [Finset.mem_sdiff, Finset.mem_union]
  tauto

theorem Enters.disjoint (enters : Enters wanted known new draft after) (others : Finset κ) :
    Disjoint (wanted \ keys known) (others \ keys (known ++ new)) := by
  rw [enters.keys_append, Finset.disjoint_left]
  intro key first later
  simp only [Finset.mem_sdiff, Finset.mem_union, not_or] at first later
  exact later.2.2 first.1

theorem Enters.card_union (enters : Enters wanted known new draft after) (others : Finset κ) :
    ((wanted ∪ others) \ keys known).card =
      (wanted \ keys known).card + (others \ keys (known ++ new)).card := by
  rw [enters.union_sdiff, Finset.card_union_of_disjoint (enters.disjoint others)]

theorem Enters.trans (first : Enters wanted known new draft middle)
    (second : Enters others (known ++ new) more middle after) :
    Enters (wanted ∪ others) known (new ++ more) draft after where
  distinct := by
    rw [List.map_append]
    refine List.nodup_append'.mpr ⟨first.distinct, second.distinct, fun key left right => ?_⟩
    have left : key ∈ keys new := List.mem_toFinset.mpr left
    have right : key ∈ keys more := List.mem_toFinset.mpr right
    rw [second.fills, Finset.mem_sdiff, Draft.keys_append, Finset.mem_union, not_or] at right
    exact right.2.2 left
  fills := by rw [Draft.keys_append, first.fills, second.fills, first.union_sdiff]
  takes := by
    rw [List.map_append]
    exact first.takes.trans second.takes

/-! ### Runs -/

/-- The run has a good result, or it fails since it needs more letters than are left. -/
inductive Ends {α : Type} (draft : Draft) (need : Nat) (good : α → Prop) : Except Fault α → Prop where
  | done {value : α} : good value → Ends draft need good (.ok value)
  | short : draft.supply.letters.length < need → Ends draft need good (.error .outOfLetters)

variable {α β : Type} {need total : Nat} {good : α → Prop} {goal : β → Prop}

theorem Ends.of_no_letter {draft : Draft} (letters : draft.supply.letters = []) :
    Ends draft 1 good (.error .outOfLetters) := by
  apply Ends.short
  rw [letters]
  exact Nat.zero_lt_one

theorem Ends.bind {first : Except Fault α} {next : α → Except Fault β} (run : Ends draft need good first)
    (more : need ≤ total)
    (rest : ∀ value, first = .ok value → good value → Ends draft total goal (next value)) :
    Ends draft total goal (first >>= next) := by
  cases run with
  | done holds => exact rest _ rfl holds
  | short less => exact .short (Nat.lt_of_lt_of_le less more)

theorem Ends.of_ok {value : α} (run : Ends draft need good (.ok value)) : good value := by
  cases run with
  | done holds => exact holds

theorem Ends.imp {result : Except Fault α} {goal : α → Prop} (run : Ends draft need good result)
    (weaken : ∀ value, good value → goal value) : Ends draft need goal result := by
  cases run with
  | done holds => exact .done (weaken _ holds)
  | short less => exact .short less

theorem Ends.later {result : Except Fault α} (takes : Takes letters draft middle)
    (run : Ends middle need good result) : Ends draft (letters.length + need) good result := by
  cases run with
  | done holds => exact .done holds
  | short less =>
    apply Ends.short
    rw [takes.supply, List.length_append]
    omega

theorem Ends.andThen {first : Except Fault α} {next : α → Except Fault β}
    (run : Ends draft (wanted \ keys known).card good first)
    (rest : ∀ value, good value → Ends draft ((wanted ∪ others) \ keys known).card goal (next value)) :
    Ends draft ((wanted ∪ others) \ keys known).card goal (first >>= next) := by
  apply run.bind
  · exact Finset.card_le_card (Finset.sdiff_subset_sdiff Finset.subset_union_left subset_rfl)
  · exact fun value _ => rest value

theorem Ends.following {result : Except Fault α} (enters : Enters wanted known new draft middle)
    (run : Ends middle (others \ keys (known ++ new)).card good result) :
    Ends draft ((wanted ∪ others) \ keys known).card good result := by
  rw [enters.card_union, enters.card, ← List.length_map Prod.snd]
  exact run.later enters.takes

/-- The name of a key: a known one, or the next letter with a rule of its own. -/
def enter (draft : Draft) (known : Glossary κ) (key : κ) (body : List Symbol) :
    Except Fault (Symbol × Draft × Glossary κ) :=
  match known.find? fun entry => decide (entry.1 = key) with
  | some (_, name) => .ok (name, draft, known)
  | none => do
    let (letter, draft) ← draft.fresh
    return (letter, draft.addRule letter body, known ++ [(key, letter)])

theorem ends_enter (draft : Draft) (known : Glossary κ) (key : κ) (body : List Symbol) :
    Ends draft ({key} \ keys known).card
      (fun result => ∃ new, result.2.2 = known ++ new ∧ Enters {key} known new draft result.2.1 ∧
        nameOf? (known ++ new) key = some result.1 ∧
          ∀ rule, rule ∈ result.2.1.grammar.rules ↔
            rule ∈ draft.grammar.rules ∨ ∃ entry ∈ new, rule = ⟨entry.2, Rhs.ofList body⟩)
      (enter draft known key body) := by
  unfold enter
  split
  · rename_i other name first
    have found : nameOf? known key = some name := by rw [nameOf?, first, Option.map_some]
    have listed : {key} ⊆ keys known :=
      Finset.singleton_subset_iff.mpr (mem_keys.mpr ⟨name, mem_of_nameOf? found⟩)
    refine .done ⟨[], (List.append_nil known).symm, .nothing listed draft, ?_, ?_⟩
    · rw [List.append_nil]
      exact found
    · simp
  · rename_i missing
    have absent : key ∉ keys known := nameOf?_eq_none.mp (by rw [nameOf?, missing, Option.map_none])
    have unnamed : {key} \ keys known = {key} :=
      Finset.sdiff_eq_self_of_disjoint (Finset.disjoint_singleton_left.mpr absent)
    cases letters : draft.supply.letters with
    | nil =>
      rw [fresh_eq_error letters, unnamed, Finset.card_singleton]
      exact .of_no_letter letters
    | cons letter rest =>
      obtain ⟨after, taken, takes, grammar⟩ := takes_fresh letters
      rw [taken]
      refine .done ⟨[(key, letter)], rfl, ⟨List.nodup_singleton key, ?_, ?_⟩, ?_, ?_⟩
      · rw [unnamed]
        rfl
      · exact takes.of_same rfl rfl (Grammar.same_addRule _ _ _)
      · rw [nameOf?_append, nameOf?_eq_none.mpr absent, Option.none_or]
        simp [nameOf?]
      · intro rule
        rw [addRule, Grammar.mem_rules_addRule, grammar, Grammar.rules_declare]
        simp [or_comm]

end Naming

end Draft

end ContextFree
