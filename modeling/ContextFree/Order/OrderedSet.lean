import ContextFree.Order.Ordered

/-! Finite sets kept as strictly ascending lists.

The list is determined by its members, so equality of sets is equality of
lists and iteration needs no further sorting.
-/

set_option autoImplicit false

namespace ContextFree

open Ordered

variable {α : Type} [Ordered α]

/-- Put a value at its place in an ascending list, unless it is there already. -/
def insertAscending (value : α) : List α → List α
  | [] => [value]
  | head :: tail =>
    if before value head then value :: head :: tail
    else if before head value then head :: insertAscending value tail
    else head :: tail

theorem mem_insertAscending {value other : α} {values : List α} :
    other ∈ insertAscending value values ↔ other = value ∨ other ∈ values := by
  induction values with
  | nil => simp [insertAscending]
  | cons head tail ih =>
    simp only [insertAscending]
    split
    · simp
    · split
      · simp only [List.mem_cons, ih]
        exact or_left_comm
      · rename_i notBefore notAfter
        simp [eq_of_not_before notBefore notAfter]

theorem pairwise_insertAscending {value : α} {values : List α}
    (sorted : values.Pairwise fun a b => before a b = true) :
    (insertAscending value values).Pairwise fun a b => before a b = true := by
  induction values with
  | nil => simp [insertAscending]
  | cons head tail ih =>
    have ⟨first, rest⟩ := List.pairwise_cons.mp sorted
    simp only [insertAscending]
    split
    · rename_i less
      exact pairwise_cons_cons less sorted
    · split
      · rename_i greater
        refine List.pairwise_cons.mpr ⟨fun other member => ?_, ih rest⟩
        rcases mem_insertAscending.mp member with rfl | member
        · exact greater
        · exact first other member
      · exact sorted

structure OrderedSet (α : Type) [Ordered α] where
  toList : List α
  ascending : toList.Pairwise fun a b => before a b = true
  deriving DecidableEq

namespace OrderedSet

instance : Membership α (OrderedSet α) where
  mem set value := value ∈ set.toList

theorem mem_toList {set : OrderedSet α} {value : α} : value ∈ set.toList ↔ value ∈ set :=
  Iff.rfl

def empty : OrderedSet α where
  toList := []
  ascending := List.Pairwise.nil

def isEmpty (set : OrderedSet α) : Bool :=
  set.toList.isEmpty

def insert (set : OrderedSet α) (value : α) : OrderedSet α where
  toList := insertAscending value set.toList
  ascending := pairwise_insertAscending set.ascending

def filter (keep : α → Bool) (set : OrderedSet α) : OrderedSet α where
  toList := set.toList.filter keep
  ascending := set.ascending.filter keep

def ofList (values : List α) : OrderedSet α :=
  values.foldl insert empty

@[simp] theorem not_mem_empty {value : α} : value ∉ (empty : OrderedSet α) :=
  List.not_mem_nil

@[simp] theorem mem_insert {set : OrderedSet α} {value other : α} :
    other ∈ set.insert value ↔ other = value ∨ other ∈ set :=
  mem_insertAscending

@[simp] theorem mem_filter {keep : α → Bool} {set : OrderedSet α} {value : α} :
    value ∈ set.filter keep ↔ value ∈ set ∧ keep value = true :=
  List.mem_filter

theorem mem_foldl_insert {values : List α} {set : OrderedSet α} {value : α} :
    value ∈ values.foldl insert set ↔ value ∈ values ∨ value ∈ set := by
  induction values generalizing set with
  | nil => simp
  | cons head tail ih =>
    rw [List.foldl_cons, ih, mem_insert, List.mem_cons]
    exact ⟨fun h => by rcases h with h | h | h <;> simp [h],
      fun h => by rcases h with (h | h) | h <;> simp [h]⟩

@[simp] theorem mem_ofList {values : List α} {value : α} : value ∈ ofList values ↔ value ∈ values := by
  simp [ofList, mem_foldl_insert]

section

variable [DecidableEq α]

instance (set : OrderedSet α) (value : α) : Decidable (value ∈ set) :=
  inferInstanceAs (Decidable (value ∈ set.toList))

def erase (set : OrderedSet α) (value : α) : OrderedSet α :=
  set.filter fun other => decide (other ≠ value)

@[simp] theorem mem_erase {set : OrderedSet α} {value other : α} :
    other ∈ set.erase value ↔ other ∈ set ∧ other ≠ value := by
  simp [erase]

end

end OrderedSet

end ContextFree
