import ContextFree.Order.Ordered

/-! The 62 symbols a grammar can use.

A symbol stands for one character among the digits, the uppercase and the
lowercase letters, in that order. Uppercase letters name nonterminals; digits
and lowercase letters name terminals, apart from `l`, which is reserved for the
empty string.
-/

set_option autoImplicit false

namespace ContextFree

structure Symbol where
  id : Fin 62
  deriving DecidableEq

-- The zero is the one that numerals of `Fin` ask for, whatever others are in scope.
instance placesNeZero : @NeZero Nat Zero.ofOfNat0 62 :=
  ⟨by decide⟩

namespace Symbol

def all : List Symbol :=
  (List.finRange 62).map Symbol.mk

theorem mem_all (s : Symbol) : s ∈ all :=
  List.mem_map.mpr ⟨s.id, List.mem_finRange s.id, rfl⟩

def toChar (s : Symbol) : Char :=
  if s.id.val < 10 then Char.ofNat (48 + s.id.val)
  else if s.id.val < 36 then Char.ofNat (55 + s.id.val)
  else Char.ofNat (61 + s.id.val)

def ofChar? (c : Char) : Option Symbol :=
  if digit : 48 ≤ c.toNat ∧ c.toNat ≤ 57 then some ⟨⟨c.toNat - 48, by omega⟩⟩
  else if upper : 65 ≤ c.toNat ∧ c.toNat ≤ 90 then some ⟨⟨c.toNat - 55, by omega⟩⟩
  else if lower : 97 ≤ c.toNat ∧ c.toNat ≤ 122 then some ⟨⟨c.toNat - 61, by omega⟩⟩
  else none

@[simp] theorem ofChar?_toChar (s : Symbol) : ofChar? s.toChar = some s := by
  obtain ⟨id⟩ := s
  revert id
  decide

theorem toChar_of_ofChar? {c : Char} {s : Symbol} (found : ofChar? c = some s) : s.toChar = c := by
  unfold ofChar? at found
  split at found
  · cases found
    rw [toChar, if_pos (by simp; omega)]
    simp [show 48 + (c.toNat - 48) = c.toNat by omega]
  · split at found
    · cases found
      rw [toChar, if_neg (by simp; omega), if_pos (by simp; omega)]
      simp [show 55 + (c.toNat - 55) = c.toNat by omega]
    · split at found
      · cases found
        rw [toChar, if_neg (by simp; omega), if_neg (by simp; omega)]
        simp [show 61 + (c.toNat - 61) = c.toNat by omega]
      · cases found

theorem ofChar?_eq_some {c : Char} {s : Symbol} : ofChar? c = some s ↔ c = s.toChar :=
  ⟨fun found => (toChar_of_ofChar? found).symm, fun same => same ▸ ofChar?_toChar s⟩

theorem toChar_injective {s t : Symbol} (same : s.toChar = t.toChar) : s = t := by
  have found := ofChar?_toChar s
  rw [same, ofChar?_toChar] at found
  exact (Option.some.inj found).symm

/-- The symbols of a text; characters outside the alphabet are skipped. -/
def ofText (text : String) : List Symbol :=
  text.toList.filterMap ofChar?

end Symbol

def symbolsText (symbols : List Symbol) : String :=
  String.ofList (symbols.map Symbol.toChar)

instance : Ordered Symbol :=
  Ordered.ofRank (fun s => s.id.val) fun {a b} same => by
    cases a
    cases b
    exact congrArg Symbol.mk (Fin.ext same)

theorem Symbol.pairwise_all : Symbol.all.Pairwise fun a b => Ordered.before a b = true := by
  rw [Symbol.all, List.pairwise_map]
  refine (List.pairwise_lt_finRange 62).imp fun less => ?_
  exact Nat.blt_eq.mpr less

inductive Kind where
  | terminal
  | nonterminal
  deriving DecidableEq

namespace Kind

/-- The kind a character may be declared as. The letter `l` has none. -/
def ofChar? (c : Char) : Option Kind :=
  if c.isUpper then some .nonterminal
  else if c = 'l' then none
  else if c.isLower || c.isDigit then some .terminal
  else none

theorem ofChar?_eq_nonterminal {c : Char} : ofChar? c = some .nonterminal ↔ c.isUpper = true := by
  unfold ofChar?
  cases c.isUpper with
  | true => simp
  | false => simp

theorem not_lower_or_digit {c : Char} (upper : c.isUpper = true) :
    ¬ (c.isLower = true ∨ c.isDigit = true) := by
  obtain ⟨above, below⟩ : 'A'.val ≤ c.val ∧ c.val ≤ 'Z'.val := of_decide_eq_true upper
  rintro (lower | digit)
  · have start : 'a'.val ≤ c.val := of_decide_eq_true ((Bool.and_eq_true _ _).mp lower).1
    exact absurd (UInt32.le_trans start below) (by decide)
  · have finish : c.val ≤ '9'.val := of_decide_eq_true ((Bool.and_eq_true _ _).mp digit).2
    exact absurd (UInt32.le_trans above finish) (by decide)

theorem ofChar?_eq_terminal {c : Char} :
    ofChar? c = some .terminal ↔ c ≠ 'l' ∧ (c.isLower = true ∨ c.isDigit = true) := by
  unfold ofChar?
  split
  · rename_i upper
    simp [not_lower_or_digit upper]
  · by_cases reserved : c = 'l'
    · simp [reserved]
    · cases c.isLower <;> simp [reserved]

def text : Kind → String
  | .terminal => "terminal"
  | .nonterminal => "nonterminal"

end Kind

end ContextFree
