import ContextFree.Alphabet.Supply

/-! The letters that a supply hands out.

A letter that was passed over or handed out is above all that are left to be tried, and
so it makes no difference to them. A supply hands out the unused letters in descending
order, each of them once.
-/

set_option autoImplicit false

namespace ContextFree

namespace Supply

def below (left : Nat) : List Symbol :=
  (List.range left).reverse.filterMap fun i => Symbol.ofChar? (Char.ofNat (65 + i))

theorem below_all : below 26 = uppercase := by
  decide

theorem toNat_of_ofChar? {n : Nat} {s : Symbol} (found : Symbol.ofChar? (Char.ofNat n) = some s) :
    s.toChar.toNat = n := by
  rw [Symbol.toChar_of_ofChar? found]
  by_cases valid : n.isValidChar
  · rw [Char.ofNat, dif_pos valid]
    rfl
  · rw [Char.ofNat, dif_neg valid] at found
    cases found

theorem not_mem_below {left : Nat} {s : Symbol} (here : Symbol.ofChar? (Char.ofNat (65 + left)) = some s) :
    s ∉ below left := by
  intro listed
  obtain ⟨i, inside, found⟩ := List.mem_filterMap.mp listed
  rw [List.mem_reverse, List.mem_range] at inside
  have same := (toNat_of_ofChar? found).symm.trans (toNat_of_ofChar? here)
  omega

def unused (used : SymbolSet) (left : Nat) : List Symbol :=
  (below left).filter fun s => !used.contains s

theorem unused_put {used : SymbolSet} {left : Nat} {s : Symbol} (other : s ∉ below left) :
    unused (used.put s) left = unused used left := by
  refine List.filter_congr fun t inside => ?_
  have different : t ≠ s := fun same => other (same ▸ inside)
  simp [different]

theorem unused_succ (used : SymbolSet) (left : Nat) :
    unused used (left + 1) =
      match Symbol.ofChar? (Char.ofNat (65 + left)) with
      | none => unused used left
      | some s => if used.contains s then unused used left else s :: unused used left := by
  rw [unused, below, List.range_succ, List.reverse_append, List.reverse_singleton, List.singleton_append,
    List.filterMap_cons]
  cases Symbol.ofChar? (Char.ofNat (65 + left)) with
  | none => rfl
  | some s =>
    simp only [List.filter_cons]
    cases used.contains s <;> rfl

/-- The search for a new letter passes over those that are used. -/
theorem unused_eq_of_nextFrom (used : SymbolSet) (left : Nat) :
    unused used left =
      match nextFrom used left with
      | none => []
      | some (s, after) => s :: unused after.used after.left := by
  induction left generalizing used with
  | zero => rfl
  | succ left ih =>
    rw [unused_succ, nextFrom]
    cases here : Symbol.ofChar? (Char.ofNat (65 + left)) with
    | none => exact ih used
    | some s =>
      have other := not_mem_below here
      simp only [SymbolSet.insert, SymbolSet.getElem_eq]
      cases taken : used.contains s with
      | true => exact (unused_put other).symm.trans (ih (used.put s))
      | false => exact congrArg (s :: ·) (unused_put other).symm

theorem take_eq (supply : Supply) (count : Nat) :
    (supply.take count).1 = (unused supply.used supply.left).take count := by
  induction count generalizing supply with
  | zero => rfl
  | succ count ih =>
    rw [take, unused_eq_of_nextFrom, next?]
    cases nextFrom supply.used supply.left with
    | none => rfl
    | some found => exact congrArg (found.1 :: ·) (ih found.2)

theorem letters_eq (supply : Supply) : supply.letters = unused supply.used supply.left := by
  have small : (unused supply.used supply.left).length ≤ supply.left := by
    calc
      _ ≤ (below supply.left).length := List.length_filter_le _ _
      _ ≤ (List.range supply.left).reverse.length := List.length_filterMap_le _ _
      _ = supply.left := by simp
  rw [letters, take_eq, List.take_of_length_le small]

/-- A new supply hands out the unused letters, from `Z` down to `A`. -/
theorem letters_avoiding (used : SymbolSet) :
    (avoiding used).letters = uppercase.filter fun s => !used.contains s := by
  rw [letters_eq, ← below_all]
  rfl

theorem mem_letters_avoiding {used : SymbolSet} {s : Symbol} :
    s ∈ (avoiding used).letters ↔ s.toChar.isUpper = true ∧ s ∉ used := by
  rw [letters_avoiding, List.mem_filter, mem_uppercase, Bool.not_eq_true', ← Bool.not_eq_true,
    SymbolSet.mem_iff]

theorem pairwise_letters_avoiding (used : SymbolSet) :
    (avoiding used).letters.Pairwise fun a b => Ordered.before b a = true := by
  rw [letters_avoiding]
  exact pairwise_uppercase.filter _

theorem next?_eq_none {supply : Supply} (empty : supply.letters = []) : supply.next? = none := by
  rw [letters_eq, unused_eq_of_nextFrom] at empty
  rw [next?]
  cases found : nextFrom supply.used supply.left with
  | none => rfl
  | some found => simp [found] at empty

theorem next?_eq_some {supply : Supply} {s : Symbol} {rest : List Symbol} (letters : supply.letters = s :: rest) :
    ∃ after, supply.next? = some (s, after) ∧ after.letters = rest := by
  rw [letters_eq, unused_eq_of_nextFrom] at letters
  rw [next?]
  cases found : nextFrom supply.used supply.left with
  | none => simp [found] at letters
  | some next =>
    simp only [found, List.cons.injEq] at letters
    obtain ⟨rfl, rfl⟩ := letters
    exact ⟨next.2, rfl, letters_eq next.2⟩

end Supply

end ContextFree
