import ContextFree.Alphabet.Symbol

/-! Bit sequences as they are stored: 32-bit words, the lowest first, and a width.

Operations on two sequences go word by word and leave words without a partner as
they are. The number of words and the width need not fit together.
-/

set_option autoImplicit false

namespace ContextFree

structure PackedBits where
  words : List (BitVec 32)
  width : Nat
  deriving DecidableEq

/-- Combine two lists from the front; values of the first without a partner stay. -/
def zipKeep {α : Type} (combine : α → α → α) : List α → List α → List α
  | [], _ => []
  | a :: as, [] => a :: as
  | a :: as, b :: bs => combine a b :: zipKeep combine as bs

theorem zipKeep_restore {first second : List (BitVec 32)}
    (covered : ∀ i < first.length, first.getD i 0#32 ||| second.getD i 0#32 = first.getD i 0#32) :
    zipKeep (fun a b => a ||| b) (zipKeep (fun a b => a &&& ~~~b) first second) second = first := by
  induction first generalizing second with
  | nil => cases second <;> rfl
  | cons word words ih =>
    cases second with
    | nil => rfl
    | cons mask masks =>
      have head : word ||| mask = word := covered 0 (Nat.zero_lt_succ _)
      have tail := @ih masks fun i inside => covered (i + 1) (Nat.succ_lt_succ inside)
      simp only [zipKeep, tail, List.cons.injEq, and_true]
      rw [← head]
      ext i inside
      simp only [BitVec.getElem_or, BitVec.getElem_and, BitVec.getElem_not]
      cases mask[i] <;> simp

namespace PackedBits

def blank : PackedBits where
  words := [0#32, 0#32]
  width := 62

/-- The two words of the alphabet, with nothing but the two bits past it. -/
def spare (top : BitVec 2) : PackedBits where
  words := [0#32, top.setWidth 32 <<< 30]
  width := 62

theorem blank_eq_spare : blank = spare 0#2 := by
  decide

def bit (bits : PackedBits) (i : Nat) : Bool :=
  (bits.words.getD (i / 32) 0#32).getLsbD (i % 32)

def union (first second : PackedBits) : PackedBits :=
  { first with words := zipKeep (fun a b => a ||| b) first.words second.words }

def difference (first second : PackedBits) : PackedBits :=
  { first with words := zipKeep (fun a b => a &&& ~~~b) first.words second.words }

def isZero (bits : PackedBits) : Bool :=
  bits.words.all fun word => decide (word = 0#32)

def isDisjoint (first second : PackedBits) : Bool :=
  (first.words.zip second.words).all fun pair => decide (pair.1 &&& pair.2 = 0#32)

/-- The same width, and the same bits wherever both have a word. -/
def agrees (first second : PackedBits) : Bool :=
  decide (first.width = second.width) &&
    (first.words.zip second.words).all fun pair => decide (pair.1 = pair.2)

def positionsPastAlphabet (bits : PackedBits) : List Nat :=
  (List.range (32 * bits.words.length)).filter fun i =>
    decide (62 ≤ i) && decide (i < bits.width) && bits.bit i

/-- Positions count modulo 256; the first one that is no symbol's ends the list. -/
def leadingSymbols : List Nat → List Symbol
  | [] => []
  | position :: rest =>
    if inside : position % 256 < 62 then ⟨⟨position % 256, inside⟩⟩ :: leadingSymbols rest else []

/-- The symbols that a listing shows after those of the alphabet. -/
def echoes (bits : PackedBits) : List Symbol :=
  leadingSymbols bits.positionsPastAlphabet

theorem echoes_eq_nil {bits : PackedBits} (narrow : bits.width ≤ 256) : bits.echoes = [] := by
  have past : ∀ i ∈ bits.positionsPastAlphabet, 62 ≤ i ∧ i < bits.width := by
    intro i member
    simp only [positionsPastAlphabet, List.mem_filter, Bool.and_eq_true, decide_eq_true_eq] at member
    exact member.2.1
  unfold echoes
  cases positions : bits.positionsPastAlphabet with
  | nil => rfl
  | cons i rest =>
    have ⟨above, below⟩ := past i (by simp [positions])
    rw [leadingSymbols, dif_neg (by omega)]

end PackedBits

end ContextFree
