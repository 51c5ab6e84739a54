import ContextFree.Alphabet.SymbolSet
import ContextFree.Proofs.Growth
import Mathlib.Data.List.Basic

/-! Packed bits, bit by bit.

Operations on two sequences of as many words act on each bit. The bits of the
alphabet fill the first word and all but two bits of the second; these two are not
set as long as only symbols are written.
-/

set_option autoImplicit false

namespace ContextFree

theorem length_zipKeep {α : Type} (combine : α → α → α) (first second : List α) :
    (zipKeep combine first second).length = first.length := by
  induction first generalizing second with
  | nil => rfl
  | cons a rest ih =>
    cases second with
    | nil => rfl
    | cons b others => rw [zipKeep, List.length_cons, ih, List.length_cons]

theorem getD_zipKeep {α : Type} {combine : α → α → α} {filler : α} (kept : combine filler filler = filler)
    {first second : List α} (same : first.length = second.length) (n : Nat) :
    (zipKeep combine first second).getD n filler = combine (first.getD n filler) (second.getD n filler) := by
  induction first generalizing second n with
  | nil =>
    obtain rfl := List.length_eq_zero_iff.mp same.symm
    exact kept.symm
  | cons a rest ih =>
    cases second with
    | nil => cases same
    | cons b others =>
      cases n with
      | zero => rfl
      | succ n => exact ih (Nat.succ.inj same) n

namespace PackedBits

variable {first second bits : PackedBits}

def assign (bits : PackedBits) (i : Nat) (value : Bool) : PackedBits :=
  { bits with
    words := bits.words.modify (i / 32) fun word =>
      if value then word ||| BitVec.twoPow 32 (i % 32) else word &&& ~~~BitVec.twoPow 32 (i % 32) }

theorem bit_union (same : first.words.length = second.words.length) (i : Nat) :
    (first.union second).bit i = (first.bit i || second.bit i) := by
  simp only [bit, union, getD_zipKeep (BitVec.or_self (x := 0#32)) same, BitVec.getLsbD_or]

theorem bit_difference (same : first.words.length = second.words.length) (i : Nat) :
    (first.difference second).bit i = (first.bit i && !second.bit i) := by
  have inside : i % 32 < 32 := Nat.mod_lt i (by decide)
  have kept : 0#32 &&& ~~~0#32 = 0#32 := by decide
  simp only [bit, difference, @getD_zipKeep _ (fun a b => a &&& ~~~b) _ kept _ _ same,
    BitVec.getLsbD_and, BitVec.getLsbD_not, inside, decide_true, Bool.true_and]

theorem bit_eq_true {i : Nat} :
    bits.bit i = true ↔ ∃ word, bits.words[i / 32]? = some word ∧ word.getLsbD (i % 32) = true := by
  rw [bit, List.getD_eq_getElem?_getD]
  cases bits.words[i / 32]? <;> simp

theorem bit_assign {i : Nat} (stored : i / 32 < bits.words.length) (value : Bool) (j : Nat) :
    (bits.assign i value).bit j = if j = i then value else bits.bit j := by
  have inside : i % 32 < 32 := Nat.mod_lt i (by decide)
  have inside' : j % 32 < 32 := Nat.mod_lt j (by decide)
  simp only [bit, assign, List.getD_eq_getElem?_getD, List.getElem?_modify]
  by_cases same : j = i
  · subst same
    cases value <;> simp [stored, inside]
  · -- another bit of the word that is written, or a bit of another word
    by_cases word : i / 32 = j / 32
    · have apart : j % 32 ≠ i % 32 := by omega
      rw [word] at stored
      cases value <;> simp [word, stored, same, apart, inside']
    · simp [word, same]

theorem isDisjoint_iff : first.isDisjoint second = true ↔ ∀ i, first.bit i = true → second.bit i = false := by
  rw [isDisjoint, List.all_eq_true]
  constructor
  · intro disjoint i left
    by_contra right
    -- a bit that is set has a word, so both words are compared
    obtain ⟨a, there, low⟩ := bit_eq_true.mp left
    obtain ⟨b, here, high⟩ := bit_eq_true.mp (Bool.not_eq_false _ ▸ right)
    have zero : a &&& b = 0#32 := of_decide_eq_true
      (disjoint (a, b) (List.mem_of_getElem? (List.getElem?_zip_eq_some.mpr ⟨there, here⟩)))
    have both := congrArg (fun word => word.getLsbD (i % 32)) zero
    simp [low, high] at both
  · rintro apart ⟨a, b⟩ member
    obtain ⟨n, found⟩ := List.mem_iff_getElem?.mp member
    obtain ⟨there, here⟩ := List.getElem?_zip_eq_some.mp found
    refine decide_eq_true (BitVec.eq_of_getLsbD_eq fun j inside => ?_)
    have place : (32 * n + j) / 32 = n ∧ (32 * n + j) % 32 = j := by omega
    have free := apart (32 * n + j)
    simp only [bit, place, List.getD_eq_getElem?_getD, there, here, Option.getD_some] at free
    rw [BitVec.getLsbD_and, BitVec.getLsbD_zero]
    cases set : a.getLsbD j
    · rfl
    · rw [free set, Bool.and_false]

theorem length_assign (bits : PackedBits) (i : Nat) (value : Bool) :
    (bits.assign i value).words.length = bits.words.length :=
  List.length_modify _ _ _

theorem length_union (first second : PackedBits) :
    (first.union second).words.length = first.words.length :=
  length_zipKeep _ _ _

theorem length_difference (first second : PackedBits) :
    (first.difference second).words.length = first.words.length :=
  length_zipKeep _ _ _

theorem ext_bit (width : first.width = second.width) (words : first.words.length = second.words.length)
    (same : ∀ i, first.bit i = second.bit i) : first = second := by
  obtain ⟨left, _⟩ := first
  obtain ⟨right, _⟩ := second
  simp only at width words
  subst width
  rw [mk.injEq, and_iff_left rfl]
  refine List.ext_getElem words fun n there here => BitVec.eq_of_getLsbD_eq fun j inside => ?_
  have place : (32 * n + j) / 32 = n ∧ (32 * n + j) % 32 = j := by omega
  have equal := same (32 * n + j)
  simpa [bit, place, there, here] using equal

end PackedBits

namespace SymbolSet

/-- The words hold the members and nothing else. -/
structure Packs (bits : PackedBits) (set : SymbolSet) : Prop where
  frame : set.frame = .blank
  width : bits.width = 62
  words : bits.words.length = 2
  bit : ∀ i, bits.bit i = set.members.getLsbD i

variable {bits other : PackedBits} {set second : SymbolSet}

theorem bit_memberBits (members : BitVec 62) (i : Nat) : (memberBits members).bit i = members.getLsbD i := by
  rcases Nat.lt_or_ge i 32 with low | high
  · have word : i / 32 = 0 ∧ i % 32 = i := by omega
    simp [PackedBits.bit, memberBits, word, low]
  · rcases Nat.lt_or_ge i 64 with middle | beyond
    · have word : i / 32 = 1 ∧ i % 32 = i - 32 ∧ i - 32 < 32 ∧ 32 + (i - 32) = i := by omega
      simp [PackedBits.bit, memberBits, word]
    · have word : 2 ≤ i / 32 := by omega
      rw [PackedBits.bit, List.getD_eq_getElem?_getD, List.getElem?_eq_none word, Option.getD_none, BitVec.getLsbD_zero,
        BitVec.getLsbD_of_ge members i (by omega)]

theorem packs_pack (frame : set.frame = .blank) : Packs set.pack set := by
  have stored : set.pack = memberBits set.members := by
    simp [pack, frame, PackedBits.union, PackedBits.blank, zipKeep, memberBits]
  rw [stored]
  exact ⟨frame, rfl, rfl, bit_memberBits set.members⟩

theorem packs_empty : Packs .blank .empty := by
  have stored : Packs (pack empty) empty := packs_pack rfl
  exact (show pack empty = .blank by decide) ▸ stored

theorem Packs.assign (packs : Packs bits set) (s : Symbol) (member : Bool) :
    Packs (bits.assign s.id.val member) (set.assign s member) where
  frame := by
    rw [SymbolSet.assign]
    split
    · exact packs.frame
    · exact packs.frame
  width := packs.width
  words := (PackedBits.length_assign bits s.id.val member).trans packs.words
  bit i := by
    have stored : s.id.val / 32 < bits.words.length := by
      have inside := s.id.isLt
      rw [packs.words]
      omega
    rw [PackedBits.bit_assign stored, packs.bit]
    have inside := s.id.isLt
    cases member with
    | false =>
      -- a complement is taken among 32 bits in the word and among 62 in the members
      by_cases same : i = s.id.val
      · simp [SymbolSet.assign, erase, same]
      · by_cases low : i < 62
        · simp [SymbolSet.assign, erase, same, low]
        · simp [SymbolSet.assign, erase, same, BitVec.getLsbD_of_ge set.members i (by omega)]
    | true =>
      by_cases same : i = s.id.val
      · simp [SymbolSet.assign, put, same]
      · simp [SymbolSet.assign, put, same, Ne.symm same]

theorem Packs.union (packs : Packs bits set) (also : Packs other second) :
    Packs (bits.union other) (set.union second) where
  frame := by
    rw [SymbolSet.union, packs.frame, also.frame]
    rfl
  width := packs.width
  words := (PackedBits.length_union bits other).trans packs.words
  bit i := by
    rw [PackedBits.bit_union (packs.words.trans also.words.symm), packs.bit, also.bit]
    exact (BitVec.getLsbD_or).symm

theorem Packs.difference (packs : Packs bits set) (also : Packs other second) :
    Packs (bits.difference other) (set.difference second) where
  frame := by
    rw [SymbolSet.difference, packs.frame, also.frame]
    rfl
  width := packs.width
  words := (PackedBits.length_difference bits other).trans packs.words
  bit i := by
    rw [PackedBits.bit_difference (packs.words.trans also.words.symm), packs.bit, also.bit]
    by_cases low : i < 62
    · simp [SymbolSet.difference, low]
    · simp [SymbolSet.difference, BitVec.getLsbD_of_ge set.members i (by omega)]

theorem Packs.eq_pack (packs : Packs bits set) : bits = set.pack := by
  have stored := packs_pack packs.frame
  refine PackedBits.ext_bit (packs.width.trans stored.width.symm) (packs.words.trans stored.words.symm) ?_
  intro i
  rw [packs.bit, stored.bit]

end SymbolSet

end ContextFree
