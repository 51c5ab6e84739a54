import ContextFree.Elimination.Variants
import ContextFree.Proofs.Growth
import Mathlib.Algebra.Ring.Nat
import Mathlib.Data.Finset.Image
import Mathlib.Data.List.Basic

/-! Variants leave out every subset of the nullable positions, in binary counting.

The cursor keeps a subset as a list of bits. What it leaves out depends on the number
of the subset only, and the numbers go up by one, so a run is a row of numbers.
-/

set_option autoImplicit false

namespace ContextFree

theorem testBit_subsetNumber (deleted : List Bool) (place : Nat) :
    (subsetNumber deleted).testBit place = deleted.getD place false := by
  rw [subsetNumber, BitVec.testBit_toNat, BitVec.getLsbD_ofBoolListLE]

theorem subsetNumber_add_subsetsAhead (deleted : List Bool) :
    subsetNumber deleted + 1 + subsetsAhead deleted = 2 ^ deleted.length := by
  induction deleted with
  | nil => rfl
  | cons bit rest ih =>
    rw [subsetNumber_cons, subsetsAhead_cons, List.length_cons, Nat.pow_succ, ← ih]
    cases bit <;> simp only [Bool.toNat_true, Bool.toNat_false, Bool.not_true, Bool.not_false] <;> omega

namespace VariantCursor

variable {cursor moved : VariantCursor}

/-- What the subset of a number leaves of the symbols. -/
def keptBy (cursor : VariantCursor) (number : Nat) : List Symbol :=
  ((cursor.symbols.zip cursor.slots).filter fun entry =>
    entry.2.all fun place => !number.testBit place).map Prod.fst

theorem kept_eq (cursor : VariantCursor) : cursor.kept = cursor.keptBy (subsetNumber cursor.deleted) := by
  simp only [kept, keptBy, testBit_subsetNumber]

/-- What the subsets of some numbers leave, apart from nothing. -/
def yield (cursor : VariantCursor) (numbers : List Nat) : List Rhs :=
  ((numbers.map cursor.keptBy).filter fun kept => !kept.isEmpty).map Rhs.ofList

theorem yield_cons (cursor : VariantCursor) (number : Nat) (rest : List Nat) :
    cursor.yield (number :: rest) =
      if (cursor.keptBy number).isEmpty then cursor.yield rest
      else .ofList (cursor.keptBy number) :: cursor.yield rest := by
  rw [yield, List.map_cons, List.filter_cons]
  by_cases empty : (cursor.keptBy number).isEmpty = true
  · simp [empty, yield]
  · simp [empty, yield]

/-- What follows in binary counting. -/
def remaining (cursor : VariantCursor) : List Rhs :=
  cursor.yield (List.range' (subsetNumber cursor.deleted + 1) (subsetsAhead cursor.deleted))

theorem remaining_of_finished (finished : cursor.advance? = none) : cursor.remaining = [] := by
  rw [remaining, nextSubset?_eq_none (Option.map_eq_none_iff.mp finished)]
  rfl

theorem remaining_of_advanced (advanced : cursor.advance? = some moved) :
    cursor.remaining =
      if moved.kept.isEmpty then moved.remaining else .ofList moved.kept :: moved.remaining := by
  obtain ⟨deleted, counted, rfl⟩ := Option.map_eq_some_iff.mp advanced
  obtain ⟨number, ahead⟩ := nextSubset?_eq_some counted
  rw [remaining, ← ahead, List.range'_succ, yield_cons, kept_eq, remaining, number]
  rfl

theorem remaining_of_next?_eq_none (finished : cursor.next? = none) : cursor.remaining = [] := by
  fun_induction next? cursor with
  | case1 cursor stopped => exact remaining_of_finished stopped
  | case2 cursor next advanced empty ih => rw [remaining_of_advanced advanced, if_pos empty, ih finished]
  | case3 cursor next advanced filled => cases finished

theorem remaining_of_next?_eq_some {variant : Rhs} (found : cursor.next? = some (variant, moved)) :
    cursor.remaining = variant :: moved.remaining := by
  fun_induction next? cursor with
  | case1 cursor stopped => cases found
  | case2 cursor next advanced empty ih => rw [remaining_of_advanced advanced, if_pos empty, ih found]
  | case3 cursor next advanced filled =>
    cases found
    rw [remaining_of_advanced advanced, if_neg filled]

theorem collect_eq (cursor : VariantCursor) (found : List Rhs) :
    cursor.collect found = found.reverse ++ cursor.remaining := by
  fun_induction collect cursor found with
  | case1 cursor found finished => rw [remaining_of_next?_eq_none finished, List.append_nil]
  | case2 cursor found variant moved next ih =>
    rw [ih, remaining_of_next?_eq_some next, List.reverse_cons, List.append_assoc]
    rfl

theorem any_eq (cursor : VariantCursor) (test : Rhs → Bool) : cursor.any test = cursor.remaining.any test := by
  fun_induction any cursor test with
  | case1 cursor finished => rw [remaining_of_next?_eq_none finished, List.any_nil]
  | case2 cursor variant moved next ih => rw [ih, remaining_of_next?_eq_some next, List.any_cons]

end VariantCursor

/-! ### Subsets of the positions -/

def nullablePlaces (nullable : SymbolSet) (symbols : List Symbol) : List Nat :=
  symbols.findIdxs nullable.contains

/-- The places that the set bits of a number stand for, the first place being that of the
lowest bit. -/
def chosenPlaces (places : List Nat) (number : Nat) : Finset Nat :=
  ((places.zipIdx.filter fun entry => number.testBit entry.2).map Prod.fst).toFinset

/-- The symbols at other positions than those chosen, if the first symbol has the given
position. -/
def remainderFrom (offset : Nat) (symbols : List Symbol) (chosen : Finset Nat) : List Symbol :=
  ((symbols.zipIdx offset).filter fun entry => entry.2 ∉ chosen).map Prod.fst

def remainder (symbols : List Symbol) (chosen : Finset Nat) : List Symbol :=
  remainderFrom 0 symbols chosen

theorem remainderFrom_cons (offset : Nat) (s : Symbol) (rest : List Symbol) (chosen : Finset Nat) :
    remainderFrom offset (s :: rest) chosen =
      if offset ∈ chosen then remainderFrom (offset + 1) rest chosen
      else s :: remainderFrom (offset + 1) rest chosen := by
  rw [remainderFrom, List.zipIdx_cons, List.filter_cons]
  by_cases member : offset ∈ chosen
  · simp [member, remainderFrom]
  · simp [member, remainderFrom]

theorem remainderFrom_insert {i offset : Nat} (before : i < offset) (symbols : List Symbol)
    (chosen : Finset Nat) :
    remainderFrom offset symbols (insert i chosen) = remainderFrom offset symbols chosen := by
  apply congrArg (List.map Prod.fst)
  apply List.filter_congr
  intro entry member
  have above := List.le_snd_of_mem_zipIdx member
  have other : entry.2 ≠ i := by omega
  simp [Finset.mem_insert, other]

variable {places : List Nat} {number : Nat} 

theorem mem_chosenPlaces {i : Nat} :
    i ∈ chosenPlaces places number ↔ ∃ place, places[place]? = some i ∧ number.testBit place = true := by
  simp [chosenPlaces, List.mem_zipIdx_iff_getElem?]

theorem mem_chosenPlaces_iff_testBit (distinct : places.Nodup) {place i : Nat}
    (here : places[place]? = some i) :
    i ∈ chosenPlaces places number ↔ number.testBit place = true := by
  rw [mem_chosenPlaces]
  constructor
  · rintro ⟨other, there, bit⟩
    have inside : place < places.length := (List.getElem?_eq_some_iff.mp here).1
    rwa [(List.getElem?_inj inside distinct).mp (here.trans there.symm)]
  · exact fun bit => ⟨place, here, bit⟩

theorem chosenPlaces_subset (places : List Nat) (number : Nat) : chosenPlaces places number ⊆ places.toFinset := by
  intro i member
  obtain ⟨place, here, _⟩ := mem_chosenPlaces.mp member
  exact List.mem_toFinset.mpr (List.mem_of_getElem? here)

theorem chosenPlaces_injOn (distinct : places.Nodup) {first second : Nat} (low : first < 2 ^ places.length)
    (also : second < 2 ^ places.length) (same : chosenPlaces places first = chosenPlaces places second) :
    first = second := by
  apply Nat.eq_of_testBit_eq
  intro place
  rcases Nat.lt_or_ge place places.length with inside | beyond
  · have here := List.getElem?_eq_getElem inside
    rw [Bool.eq_iff_iff, ← mem_chosenPlaces_iff_testBit distinct here, same,
      mem_chosenPlaces_iff_testBit distinct here]
  · -- neither number has a bit past the places
    have high := Nat.pow_le_pow_right (n := 2) (by decide) beyond
    rw [Nat.testBit_lt_two_pow (by omega), Nat.testBit_lt_two_pow (by omega)]

def numberOf (places : List Nat) (chosen : Finset Nat) : Nat :=
  subsetNumber (places.map fun i => decide (i ∈ chosen))

theorem numberOf_lt (places : List Nat) (chosen : Finset Nat) : numberOf places chosen < 2 ^ places.length := by
  have all := subsetNumber_add_subsetsAhead (places.map fun i => decide (i ∈ chosen))
  rw [List.length_map] at all
  rw [numberOf]
  omega

theorem chosenPlaces_numberOf {chosen : Finset Nat} (subset : chosen ⊆ places.toFinset) :
    chosenPlaces places (numberOf places chosen) = chosen := by
  ext i
  rw [mem_chosenPlaces]
  constructor
  · rintro ⟨place, here, bit⟩
    rw [numberOf, testBit_subsetNumber, List.getD_eq_getElem?_getD, List.getElem?_map, here] at bit
    simpa using bit
  · intro member
    obtain ⟨place, here⟩ := List.mem_iff_getElem?.mp (List.mem_toFinset.mp (subset member))
    refine ⟨place, here, ?_⟩
    rw [numberOf, testBit_subsetNumber, List.getD_eq_getElem?_getD, List.getElem?_map, here]
    simpa using member

theorem chosenPlaces_eq_empty (distinct : places.Nodup) (low : number < 2 ^ places.length) :
    chosenPlaces places number = ∅ ↔ number = 0 := by
  have zero : chosenPlaces places 0 = ∅ := by simp [chosenPlaces]
  constructor
  · intro empty
    exact chosenPlaces_injOn distinct low (Nat.two_pow_pos _) (empty.trans zero.symm)
  · rintro rfl
    exact zero

/-- The subsets in the order of their numbers, apart from the empty one. -/
def subsetsOf (places : List Nat) : List (Finset Nat) :=
  (List.range' 1 (2 ^ places.length - 1)).map (chosenPlaces places)

theorem nodup_subsetsOf (distinct : places.Nodup) : (subsetsOf places).Nodup := by
  refine List.Nodup.map_on ?_ List.nodup_range'
  intro first low second also
  have bound := Nat.two_pow_pos places.length
  rw [List.mem_range'_1] at low also
  exact chosenPlaces_injOn distinct (by omega) (by omega)

theorem mem_subsetsOf (distinct : places.Nodup) {chosen : Finset Nat} :
    chosen ∈ subsetsOf places ↔ chosen ⊆ places.toFinset ∧ chosen.Nonempty := by
  simp only [subsetsOf, List.mem_map, List.mem_range'_1, Finset.nonempty_iff_ne_empty]
  constructor
  · rintro ⟨number, range, rfl⟩
    refine ⟨chosenPlaces_subset places number, ?_⟩
    rw [ne_eq, chosenPlaces_eq_empty distinct (by omega)]
    omega
  · rintro ⟨subset, filled⟩
    have low := numberOf_lt places chosen
    have chosen_eq := chosenPlaces_numberOf subset
    rw [← chosen_eq, ne_eq, chosenPlaces_eq_empty distinct low] at filled
    exact ⟨numberOf places chosen, by omega, chosen_eq⟩

/-! ### The variants -/

variable {nullable : SymbolSet} {symbols : List Symbol}

theorem nodup_nullablePlaces (nullable : SymbolSet) (symbols : List Symbol) :
    (nullablePlaces nullable symbols).Nodup :=
  List.nodup_findIdxs

theorem length_nullablePlaces (nullable : SymbolSet) (symbols : List Symbol) :
    (nullablePlaces nullable symbols).length = symbols.countP nullable.contains :=
  List.length_findIdxs

/-- A slot holds the bit of its position, so positions can be looked up in place of slots.
Here `place` and `offset` are the indices of the first symbol among the nullable ones and
among all symbols. -/
theorem filter_slotsFrom {number place offset : Nat} {chosen : Finset Nat}
    (bits : ∀ p i, (symbols.findIdxs nullable.contains offset)[p]? = some i →
      (i ∈ chosen ↔ number.testBit (place + p) = true))
    (nullables : ∀ i ∈ chosen, offset ≤ i → i ∈ symbols.findIdxs nullable.contains offset) :
    ((symbols.zip (slotsFrom nullable place symbols)).filter fun entry =>
      entry.2.all fun place => !number.testBit place).map Prod.fst =
      remainderFrom offset symbols chosen := by
  induction symbols generalizing place offset with
  | nil => rfl
  | cons s rest ih =>
    rw [List.findIdxs_cons] at bits nullables
    rw [remainderFrom_cons]
    by_cases null : nullable.contains s = true
    · -- a nullable symbol uses up a slot and a position, any other only a position
      rw [if_pos null] at bits nullables
      have first : offset ∈ chosen ↔ number.testBit place = true := bits 0 offset rfl
      have others := @ih (place + 1) (offset + 1)
        (fun p i found => by rw [bits (p + 1) i found, Nat.add_right_comm, Nat.add_assoc])
        (fun i member above => (List.mem_cons.mp (nullables i member (by omega))).resolve_left (by omega))
      by_cases bit : number.testBit place = true
      · simp [slotsFrom, null, first, bit, others]
      · simp [slotsFrom, null, first, bit, others]
    · rw [if_neg null] at bits nullables
      have solid : offset ∉ chosen := fun member =>
        absurd (List.ge_of_mem_findIdxs offset (nullables offset member (Nat.le_refl _))) (by omega)
      have others := @ih place (offset + 1) bits fun i member above => nullables i member (by omega)
      simp [slotsFrom, null, solid, others]

theorem keptBy_start (nullable : SymbolSet) (symbols : List Symbol) (number : Nat) :
    (VariantCursor.start nullable symbols).keptBy number =
      remainder symbols (chosenPlaces (nullablePlaces nullable symbols) number) := by
  apply filter_slotsFrom
  · intro p i found
    rw [Nat.zero_add]
    exact mem_chosenPlaces_iff_testBit (nodup_nullablePlaces nullable symbols) found
  · intro i member _
    exact List.mem_toFinset.mp (chosenPlaces_subset _ number member)

theorem remaining_start (nullable : SymbolSet) (symbols : List Symbol) :
    (VariantCursor.start nullable symbols).remaining =
      (((subsetsOf (nullablePlaces nullable symbols)).map (remainder symbols)).filter
        fun kept => !kept.isEmpty).map Rhs.ofList := by
  have zero : subsetNumber (VariantCursor.start nullable symbols).deleted = 0 := by
    apply Nat.eq_of_testBit_eq
    intro place
    rw [testBit_subsetNumber, Nat.zero_testBit, VariantCursor.start, List.getD_eq_getElem?_getD,
      List.getElem?_replicate]
    split <;> rfl
  have ahead : subsetsAhead (VariantCursor.start nullable symbols).deleted =
      2 ^ (nullablePlaces nullable symbols).length - 1 := by
    have all := subsetNumber_add_subsetsAhead (VariantCursor.start nullable symbols).deleted
    have length : (VariantCursor.start nullable symbols).deleted.length =
        (nullablePlaces nullable symbols).length := by
      rw [length_nullablePlaces, VariantCursor.start, List.length_replicate]
    rw [zero, length] at all
    omega
  have kept : (VariantCursor.start nullable symbols).keptBy =
      remainder symbols ∘ chosenPlaces (nullablePlaces nullable symbols) :=
    funext (keptBy_start nullable symbols)
  rw [VariantCursor.remaining, zero, ahead, VariantCursor.yield, kept, subsetsOf, List.map_map]

theorem variants_eq (nullable : SymbolSet) (symbols : List Symbol) :
    variants nullable symbols =
      (((subsetsOf (nullablePlaces nullable symbols)).map (remainder symbols)).filter
        fun kept => !kept.isEmpty).map Rhs.ofList := by
  rw [variants, VariantCursor.collect_eq, List.reverse_nil, List.nil_append, remaining_start]

theorem anyVariant_eq (nullable : SymbolSet) (symbols : List Symbol) (test : Rhs → Bool) :
    anyVariant nullable symbols test = (variants nullable symbols).any test := by
  rw [anyVariant, VariantCursor.any_eq, remaining_start, variants_eq]

/-- The variants are the power set of the nullable positions. They are the symbols at the
positions that are not chosen, the chosen sets being those of the numbers from 1 on: bit
`p` of a number stands for the nullable position of index `p`. Each set but the empty one
is chosen once, and only what would be empty is passed over. -/
theorem variants_powerset (nullable : SymbolSet) (symbols : List Symbol) :
    let places := nullablePlaces nullable symbols
    let subsets := (List.range' 1 (2 ^ places.length - 1)).map (chosenPlaces places)
    (places.Pairwise (· < ·) ∧ ∀ i, i ∈ places ↔ ∃ s ∈ symbols[i]?, s ∈ nullable) ∧
      (∀ number i, i ∈ chosenPlaces places number ↔
        ∃ p, places[p]? = some i ∧ number.testBit p = true) ∧
      variants nullable symbols =
        ((subsets.map (remainder symbols)).filter fun kept => !kept.isEmpty).map Rhs.ofList ∧
      subsets.Nodup ∧ ∀ chosen, chosen ∈ subsets ↔ chosen ⊆ places.toFinset ∧ chosen.Nonempty := by
  intro places subsets
  have distinct := nodup_nullablePlaces nullable symbols
  refine ⟨⟨List.pairwise_findIdxs, fun i => ?_⟩, fun number i => mem_chosenPlaces,
    variants_eq nullable symbols, nodup_subsetsOf distinct, fun chosen => mem_subsetsOf distinct⟩
  simp only [places, nullablePlaces, List.mem_findIdxs_iff_exists_getElem_pos, Option.mem_def,
    List.getElem?_eq_some_iff, SymbolSet.mem_iff]
  constructor
  · rintro ⟨inside, member⟩
    exact ⟨symbols[i], ⟨inside, rfl⟩, member⟩
  · rintro ⟨s, ⟨inside, rfl⟩, member⟩
    exact ⟨inside, member⟩

/-! ### Deletions -/

/-- All ways to leave out nullable symbols. -/
def deletions (nullable : SymbolSet) : List Symbol → List (List Symbol)
  | [] => [[]]
  | s :: rest =>
    if nullable.contains s then (deletions nullable rest).flatMap fun kept => [s :: kept, kept]
    else (deletions nullable rest).map (s :: ·)

section Deletions

variable {kept : List Symbol}

theorem mem_deletions_cons {s : Symbol} {rest : List Symbol} :
    kept ∈ deletions nullable (s :: rest) ↔
      (∃ tail ∈ deletions nullable rest, kept = s :: tail) ∨
        s ∈ nullable ∧ kept ∈ deletions nullable rest := by
  rw [deletions]
  split
  · rename_i member
    simp only [List.mem_flatMap, List.mem_cons, List.not_mem_nil, or_false, SymbolSet.mem_iff, member,
      true_and]
    constructor
    · rintro ⟨tail, inside, rfl | rfl⟩
      · exact .inl ⟨tail, inside, rfl⟩
      · exact .inr inside
    · rintro (⟨tail, inside, rfl⟩ | inside)
      · exact ⟨tail, inside, .inl rfl⟩
      · exact ⟨kept, inside, .inr rfl⟩
  · rename_i other
    simp only [List.mem_map, SymbolSet.mem_iff, other, false_and, or_false, Bool.false_eq_true]
    constructor
    · rintro ⟨tail, inside, rfl⟩
      exact ⟨tail, inside, rfl⟩
    · rintro ⟨tail, inside, rfl⟩
      exact ⟨tail, inside, rfl⟩

theorem mem_deletions_self (nullable : SymbolSet) (symbols : List Symbol) :
    symbols ∈ deletions nullable symbols := by
  induction symbols with
  | nil => exact List.mem_singleton.mpr rfl
  | cons s rest ih => exact mem_deletions_cons.mpr (.inl ⟨rest, ih, rfl⟩)

theorem subset_of_mem_deletions (member : kept ∈ deletions nullable symbols) :
    ∀ s ∈ kept, s ∈ symbols := by
  induction symbols generalizing kept with
  | nil =>
    rw [deletions, List.mem_singleton] at member
    subst member
    exact fun s inside => inside
  | cons head rest ih =>
    intro s inside
    rcases mem_deletions_cons.mp member with ⟨tail, found, rfl⟩ | ⟨_, found⟩
    · rcases List.mem_cons.mp inside with rfl | inside
      · exact List.mem_cons_self
      · exact List.mem_cons_of_mem _ (ih found s inside)
    · exact List.mem_cons_of_mem _ (ih found s inside)

theorem deletions_mono {larger : SymbolSet} (subset : ∀ s ∈ nullable, s ∈ larger)
    (member : kept ∈ deletions nullable symbols) : kept ∈ deletions larger symbols := by
  induction symbols generalizing kept with
  | nil => exact member
  | cons s rest ih =>
    apply mem_deletions_cons.mpr
    rcases mem_deletions_cons.mp member with ⟨tail, found, rfl⟩ | ⟨null, found⟩
    · exact .inl ⟨tail, ih found, rfl⟩
    · exact .inr ⟨subset s null, ih found⟩

theorem deletions_trans {fewer : List Symbol} (first : kept ∈ deletions nullable symbols)
    (second : fewer ∈ deletions nullable kept) : fewer ∈ deletions nullable symbols := by
  induction symbols generalizing kept fewer with
  | nil =>
    rw [deletions, List.mem_singleton] at first
    rwa [first] at second
  | cons s rest ih =>
    apply mem_deletions_cons.mpr
    rcases mem_deletions_cons.mp first with ⟨tail, found, rfl⟩ | ⟨null, found⟩
    · rcases mem_deletions_cons.mp second with ⟨less, again, rfl⟩ | ⟨null, again⟩
      · exact .inl ⟨less, ih found again, rfl⟩
      · exact .inr ⟨null, ih found again⟩
    · exact .inr ⟨null, ih found second⟩

theorem exists_nullable_of_mem_deletions (member : kept ∈ deletions nullable symbols)
    (other : kept ≠ symbols) : ∃ s ∈ symbols, s ∈ nullable := by
  induction symbols generalizing kept with
  | nil =>
    rw [deletions, List.mem_singleton] at member
    exact absurd member other
  | cons s rest ih =>
    rcases mem_deletions_cons.mp member with ⟨tail, found, rfl⟩ | ⟨null, _⟩
    · obtain ⟨t, inside, null⟩ := ih found fun same => other (congrArg (s :: ·) same)
      exact ⟨t, List.mem_cons_of_mem s inside, null⟩
    · exact ⟨s, List.mem_cons_self, null⟩

/-- Any nullable positions can be left out. Here `offset` is the index of the first symbol. -/
theorem remainderFrom_mem_deletions {offset : Nat} {chosen : Finset Nat}
    (nullables : ∀ i ∈ chosen, offset ≤ i → i ∈ symbols.findIdxs nullable.contains offset) :
    remainderFrom offset symbols chosen ∈ deletions nullable symbols := by
  induction symbols generalizing offset with
  | nil => exact List.mem_singleton.mpr rfl
  | cons s rest ih =>
    rw [List.findIdxs_cons] at nullables
    have inside : ∀ i ∈ chosen, offset + 1 ≤ i → i ∈ rest.findIdxs nullable.contains (offset + 1) := by
      intro i member above
      have found := nullables i member (by omega)
      split at found
      · exact (List.mem_cons.mp found).resolve_left (by omega)
      · exact found
    rw [mem_deletions_cons, remainderFrom_cons]
    by_cases head : offset ∈ chosen
    · have null : nullable.contains s = true := by
        by_contra solid
        have found := nullables offset head (Nat.le_refl _)
        rw [if_neg solid] at found
        have above := List.ge_of_mem_findIdxs offset found
        omega
      rw [if_pos head]
      exact .inr ⟨null, ih inside⟩
    · rw [if_neg head]
      exact .inl ⟨_, ih inside, rfl⟩

theorem exists_chosen_of_mem_deletions (member : kept ∈ deletions nullable symbols) (offset : Nat) :
    ∃ chosen : Finset Nat, chosen ⊆ (symbols.findIdxs nullable.contains offset).toFinset ∧
      kept = remainderFrom offset symbols chosen := by
  induction symbols generalizing kept offset with
  | nil =>
    rw [deletions, List.mem_singleton] at member
    exact ⟨∅, Finset.empty_subset _, member⟩
  | cons s rest ih =>
    -- the positions of the rest are past `offset`, so this one is free to be chosen
    rcases mem_deletions_cons.mp member with ⟨tail, found, rfl⟩ | ⟨null, found⟩
    · obtain ⟨chosen, subset, rfl⟩ := ih found (offset + 1)
      refine ⟨chosen, fun i inside => ?_, ?_⟩
      · have later := List.mem_toFinset.mp (subset inside)
        rw [List.mem_toFinset, List.findIdxs_cons]
        split
        · exact List.mem_cons_of_mem offset later
        · exact later
      · have head : offset ∉ chosen := fun member => by
          have above := List.ge_of_mem_findIdxs offset (List.mem_toFinset.mp (subset member))
          omega
        rw [remainderFrom_cons, if_neg head]
    · obtain ⟨chosen, subset, rfl⟩ := ih found (offset + 1)
      refine ⟨insert offset chosen, ?_, ?_⟩
      · rw [List.findIdxs_cons, if_pos (SymbolSet.mem_iff.mp null), List.toFinset_cons]
        exact Finset.insert_subset_insert offset subset
      · rw [remainderFrom_cons, if_pos (Finset.mem_insert_self offset chosen),
          remainderFrom_insert (Nat.lt_succ_self offset)]

theorem mem_deletions_iff :
    kept ∈ deletions nullable symbols ↔
      ∃ chosen ⊆ (nullablePlaces nullable symbols).toFinset, kept = remainder symbols chosen := by
  constructor
  · exact fun member => exists_chosen_of_mem_deletions member 0
  · rintro ⟨chosen, subset, rfl⟩
    exact remainderFrom_mem_deletions fun i member _ => List.mem_toFinset.mp (subset member)

theorem remainder_eq_self {chosen : Finset Nat} (subset : chosen ⊆ (nullablePlaces nullable symbols).toFinset) :
    remainder symbols chosen = symbols ↔ chosen = ∅ := by
  constructor
  · intro same
    by_contra filled
    obtain ⟨i, member⟩ := Finset.nonempty_iff_ne_empty.mpr filled
    obtain ⟨inside, _⟩ := List.mem_findIdxs_iff_exists_getElem_pos.mp (List.mem_toFinset.mp (subset member))
    have fewer : (remainder symbols chosen).length < symbols.zipIdx.length := by
      rw [remainder, remainderFrom, List.length_map, List.length_filter_lt_length_iff_exists]
      exact ⟨(symbols[i], i), List.mem_zipIdx_iff_getElem?.mpr (List.getElem?_eq_getElem inside), by simpa⟩
    rw [same, List.length_zipIdx] at fewer
    omega
  · rintro rfl
    simp [remainder, remainderFrom]

theorem mem_variants {variant : Rhs} :
    variant ∈ variants nullable symbols ↔
      ∃ kept ∈ deletions nullable symbols, kept ≠ [] ∧ kept ≠ symbols ∧ variant = Rhs.ofList kept := by
  simp only [variants_eq, List.mem_map, List.mem_filter, mem_subsetsOf (nodup_nullablePlaces nullable symbols),
    Bool.not_eq_true', List.isEmpty_eq_false_iff, mem_deletions_iff]
  constructor
  · rintro ⟨_, ⟨⟨chosen, ⟨subset, filled⟩, rfl⟩, proper⟩, rfl⟩
    refine ⟨_, ⟨chosen, subset, rfl⟩, proper, ?_, rfl⟩
    rw [ne_eq, remainder_eq_self subset]
    exact filled.ne_empty
  · rintro ⟨_, ⟨chosen, subset, rfl⟩, proper, other, rfl⟩
    rw [ne_eq, remainder_eq_self subset] at other
    exact ⟨_, ⟨⟨chosen, ⟨subset, Finset.nonempty_iff_ne_empty.mpr other⟩, rfl⟩, proper⟩, rfl⟩

end Deletions

end ContextFree
