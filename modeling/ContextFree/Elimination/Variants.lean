import ContextFree.Alphabet.SymbolSet
import ContextFree.Rule

/-! Variants of a right-hand side: what is left of it without some nullable symbols.

The subsets of the nullable positions are counted in binary. The leftmost position
is the lowest digit, and counting starts after the empty subset.
-/

set_option autoImplicit false

namespace ContextFree

/-- Clear the bits before the first one that is not set, and set this one. -/
def nextSubset? (deleted : List Bool) : Option (List Bool) :=
  (deleted.findIdx? (!·)).map fun firstKept =>
    ((List.range firstKept).foldl (fun bits lower => bits.set lower false) deleted).set firstKept true

theorem set_foldl_cons (bit value : Bool) (bits : List Bool) (count : Nat) :
    ((List.range (count + 1)).foldl (fun bits lower => bits.set lower value) (bit :: bits)) =
      value :: (List.range count).foldl (fun bits lower => bits.set lower value) bits := by
  induction count with
  | zero => rfl
  | succ count ih =>
    rw [List.range_succ, List.foldl_append, ih, List.range_succ, List.foldl_append]
    rfl

theorem nextSubset?_cons_false (rest : List Bool) : nextSubset? (false :: rest) = some (true :: rest) :=
  rfl

theorem nextSubset?_cons_true (rest : List Bool) :
    nextSubset? (true :: rest) = (nextSubset? rest).map (false :: ·) := by
  simp only [nextSubset?, List.findIdx?_cons, Bool.not_true, Bool.false_eq_true, if_false,
    Option.map_map]
  apply congrArg (fun move => Option.map move (rest.findIdx? (!·)))
  funext firstKept
  simp only [Function.comp_apply, set_foldl_cons, List.set_cons_succ]

def subsetNumber (deleted : List Bool) : Nat :=
  (BitVec.ofBoolListLE deleted).toNat

theorem subsetNumber_cons (bit : Bool) (rest : List Bool) :
    subsetNumber (bit :: rest) = 2 * subsetNumber rest + bit.toNat := by
  rw [subsetNumber, BitVec.ofBoolListLE, BitVec.toNat_concat, subsetNumber, Nat.mul_comm]

/-- How many subsets come later: the number of the complement. -/
def subsetsAhead (deleted : List Bool) : Nat :=
  subsetNumber (deleted.map (!·))

theorem subsetsAhead_cons (bit : Bool) (rest : List Bool) :
    subsetsAhead (bit :: rest) = 2 * subsetsAhead rest + (!bit).toNat :=
  subsetNumber_cons (!bit) (rest.map (!·))

theorem nextSubset?_eq_some {deleted next : List Bool} (advanced : nextSubset? deleted = some next) :
    subsetNumber next = subsetNumber deleted + 1 ∧ subsetsAhead next + 1 = subsetsAhead deleted := by
  induction deleted generalizing next with
  | nil => cases advanced
  | cons bit rest ih =>
    cases bit with
    | false =>
      rw [nextSubset?_cons_false, Option.some.injEq] at advanced
      subst advanced
      simp [subsetNumber_cons, subsetsAhead_cons]
    | true =>
      -- the lowest digit overflows into the others
      rw [nextSubset?_cons_true, Option.map_eq_some_iff] at advanced
      obtain ⟨tail, carried, rfl⟩ := advanced
      obtain ⟨number, ahead⟩ := ih carried
      simp only [subsetNumber_cons, subsetsAhead_cons, Bool.toNat_true, Bool.toNat_false, Bool.not_true,
        Bool.not_false]
      omega

theorem nextSubset?_eq_none {deleted : List Bool} (finished : nextSubset? deleted = none) :
    subsetsAhead deleted = 0 := by
  induction deleted with
  | nil => rfl
  | cons bit rest ih =>
    cases bit with
    | false => cases finished
    | true =>
      rw [nextSubset?_cons_true, Option.map_eq_none_iff] at finished
      rw [subsetsAhead_cons, ih finished]
      rfl

/-- For each symbol that is nullable its index among the nullable ones, the first of
which has the given index. -/
def slotsFrom (nullable : SymbolSet) : Nat → List Symbol → List (Option Nat)
  | _, [] => []
  | place, s :: rest =>
    if nullable.contains s then some place :: slotsFrom nullable (place + 1) rest
    else none :: slotsFrom nullable place rest

/-- The symbols, their indices among the nullable ones, and whether the symbol of each
index is left out at present. -/
structure VariantCursor where
  symbols : List Symbol
  slots : List (Option Nat)
  deleted : List Bool

namespace VariantCursor

def start (nullable : SymbolSet) (symbols : List Symbol) : VariantCursor where
  symbols
  slots := slotsFrom nullable 0 symbols
  deleted := List.replicate (symbols.countP nullable.contains) false

def kept (cursor : VariantCursor) : List Symbol :=
  ((cursor.symbols.zip cursor.slots).filter fun entry =>
    entry.2.all fun place => !cursor.deleted.getD place false).map Prod.fst

def advance? (cursor : VariantCursor) : Option VariantCursor :=
  (nextSubset? cursor.deleted).map fun deleted => { cursor with deleted }

theorem ahead_advance? {cursor moved : VariantCursor} (advanced : cursor.advance? = some moved) :
    subsetsAhead moved.deleted < subsetsAhead cursor.deleted := by
  obtain ⟨deleted, counted, rfl⟩ := Option.map_eq_some_iff.mp advanced
  have fewer := (nextSubset?_eq_some counted).2
  exact Nat.lt_of_succ_le (Nat.le_of_eq fewer)

/-- The next variant, and the cursor at it. A subset that leaves nothing is passed over. -/
def next? (cursor : VariantCursor) : Option (Rhs × VariantCursor) :=
  match _ : cursor.advance? with
  | none => none
  | some moved => if moved.kept.isEmpty then moved.next? else some (.ofList moved.kept, moved)
termination_by subsetsAhead cursor.deleted
decreasing_by exact ahead_advance? ‹_›

theorem ahead_next? {cursor moved : VariantCursor} {variant : Rhs}
    (found : cursor.next? = some (variant, moved)) :
    subsetsAhead moved.deleted < subsetsAhead cursor.deleted := by
  fun_induction next? cursor with
  | case1 cursor finished => cases found
  | case2 cursor next advanced _ ih => exact Nat.lt_trans (ih found) (ahead_advance? advanced)
  | case3 cursor next advanced _ =>
    cases found
    exact ahead_advance? advanced

/-- All further variants, after those found so far, the latest of which comes first. -/
def collect (cursor : VariantCursor) (found : List Rhs) : List Rhs :=
  match _ : cursor.next? with
  | none => found.reverse
  | some (variant, moved) => moved.collect (variant :: found)
termination_by subsetsAhead cursor.deleted
decreasing_by exact ahead_next? ‹_›

/-- Whether a further variant passes the test. Variants are tried only as far as needed,
for there are exponentially many. -/
def any (cursor : VariantCursor) (test : Rhs → Bool) : Bool :=
  match _ : cursor.next? with
  | none => false
  | some (variant, moved) => test variant || moved.any test
termination_by subsetsAhead cursor.deleted
decreasing_by exact ahead_next? ‹_›

end VariantCursor

/-- The results of leaving out at least one nullable symbol, but not all symbols. -/
def variants (nullable : SymbolSet) (symbols : List Symbol) : List Rhs :=
  (VariantCursor.start nullable symbols).collect []

def anyVariant (nullable : SymbolSet) (symbols : List Symbol) (test : Rhs → Bool) : Bool :=
  (VariantCursor.start nullable symbols).any test

end ContextFree
