import ContextFree.Alphabet.SymbolSet

/-! Unused uppercase letters, handed out from `Z` down to `A`. -/

set_option autoImplicit false

namespace ContextFree

/-- A cursor that goes down the letters. So many are left to be tried, from `A` on, and
the last of them is the next one. -/
structure Supply where
  used : SymbolSet
  left : Nat
  deriving DecidableEq

namespace Supply

def avoiding (used : SymbolSet) : Supply where
  used
  left := 26

def nextFrom (used : SymbolSet) : Nat → Option (Symbol × Supply)
  | 0 => none
  | left + 1 =>
    match Symbol.ofChar? (Char.ofNat (65 + left)) with
    | none => nextFrom used left
    | some s =>
      match used.insert s with
      | (true, used) => some (s, { used, left })
      | (false, used) => nextFrom used left

def next? (supply : Supply) : Option (Symbol × Supply) :=
  nextFrom supply.used supply.left

def take (supply : Supply) : Nat → List Symbol × Supply
  | 0 => ([], supply)
  | count + 1 =>
    match supply.next? with
    | none => ([], supply)
    | some (s, after) =>
      let (rest, last) := after.take count
      (s :: rest, last)

/-- All letters that it can hand out: no more than are left to be tried. -/
def letters (supply : Supply) : List Symbol :=
  (supply.take supply.left).1

def drain (supply : Supply) : Nat × Supply :=
  let (letters, last) := supply.take supply.left
  (letters.length, last)

def uppercase : List Symbol :=
  (Symbol.all.filter fun s => s.toChar.isUpper).reverse

theorem mem_uppercase {s : Symbol} : s ∈ uppercase ↔ s.toChar.isUpper = true := by
  rw [uppercase, List.mem_reverse, List.mem_filter, and_iff_right (Symbol.mem_all s)]

theorem pairwise_uppercase : uppercase.Pairwise fun a b => Ordered.before b a = true := by
  rw [uppercase, List.pairwise_reverse]
  exact Symbol.pairwise_all.filter _

end Supply

end ContextFree
