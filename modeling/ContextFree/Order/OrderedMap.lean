import ContextFree.Order.Ordered

/-! Finite maps kept as association lists with strictly ascending keys. -/

set_option autoImplicit false

namespace ContextFree

open Ordered

variable {κ ν : Type} [Ordered κ]

/-- Put an entry at the place of its key, replacing an entry with that key. -/
def insertEntry (key : κ) (value : ν) : List (κ × ν) → List (κ × ν)
  | [] => [(key, value)]
  | head :: tail =>
    if before key head.1 then (key, value) :: head :: tail
    else if before head.1 key then head :: insertEntry key value tail
    else (key, value) :: tail

theorem mem_insertEntry {key : κ} {value : ν} {entries : List (κ × ν)} {entry : κ × ν}
    (member : entry ∈ insertEntry key value entries) : entry = (key, value) ∨ entry ∈ entries := by
  induction entries with
  | nil => simpa [insertEntry] using member
  | cons head tail ih =>
    simp only [insertEntry] at member
    split at member
    · simpa using member
    · split at member
      · rcases List.mem_cons.mp member with rfl | member
        · simp
        · rcases ih member with h | h <;> simp [h]
      · rcases List.mem_cons.mp member with rfl | member <;> simp [*]

theorem pairwise_insertEntry {key : κ} {value : ν} {entries : List (κ × ν)}
    (sorted : entries.Pairwise fun a b => before a.1 b.1 = true) :
    (insertEntry key value entries).Pairwise fun a b => before a.1 b.1 = true := by
  induction entries with
  | nil => simp [insertEntry]
  | cons head tail ih =>
    have ⟨first, rest⟩ := List.pairwise_cons.mp sorted
    simp only [insertEntry]
    split
    · rename_i less
      exact pairwise_cons_cons less sorted
    · split
      · rename_i greater
        refine List.pairwise_cons.mpr ⟨fun other member => ?_, ih rest⟩
        rcases mem_insertEntry member with rfl | member
        · exact greater
        · exact first other member
      · rename_i notLess notGreater
        refine List.pairwise_cons.mpr ⟨fun other member => ?_, rest⟩
        rw [eq_of_not_before notLess notGreater]
        exact first other member

structure OrderedMap (κ ν : Type) [Ordered κ] where
  entries : List (κ × ν)
  ascending : entries.Pairwise fun a b => before a.1 b.1 = true
  deriving DecidableEq

namespace OrderedMap

def empty : OrderedMap κ ν where
  entries := []
  ascending := List.Pairwise.nil

def isEmpty (map : OrderedMap κ ν) : Bool :=
  map.entries.isEmpty

def insert (map : OrderedMap κ ν) (key : κ) (value : ν) : OrderedMap κ ν where
  entries := insertEntry key value map.entries
  ascending := pairwise_insertEntry map.ascending

/-- Replace every value, dropping the keys whose value is refused. -/
def filterMap (change : κ → ν → Option ν) (map : OrderedMap κ ν) : OrderedMap κ ν where
  entries := map.entries.filterMap fun entry => (change entry.1 entry.2).map fun value => (entry.1, value)
  ascending := by
    refine List.pairwise_filterMap.mpr (map.ascending.imp ?_)
    intro a b less c hc d hd
    obtain ⟨_, _, rfl⟩ := Option.map_eq_some_iff.mp hc
    obtain ⟨_, _, rfl⟩ := Option.map_eq_some_iff.mp hd
    exact less

def ofList (entries : List (κ × ν)) : OrderedMap κ ν :=
  entries.foldl (fun map entry => map.insert entry.1 entry.2) empty

section

variable [DecidableEq κ]

def findEntry (key : κ) : List (κ × ν) → Option ν
  | [] => none
  | head :: tail => if key = head.1 then some head.2 else findEntry key tail

def get? (map : OrderedMap κ ν) (key : κ) : Option ν :=
  findEntry key map.entries

def erase (map : OrderedMap κ ν) (key : κ) : OrderedMap κ ν :=
  map.filterMap fun other value => if other = key then none else some value

@[simp] theorem get?_empty (key : κ) : (empty : OrderedMap κ ν).get? key = none :=
  rfl

theorem findEntry_insertEntry (entries : List (κ × ν)) (key other : κ) (value : ν) :
    findEntry other (insertEntry key value entries) =
      if other = key then some value else findEntry other entries := by
  induction entries with
  | nil => rfl
  | cons head tail ih =>
    simp only [insertEntry]
    split
    · rfl
    · split
      · rename_i greater
        simp only [findEntry, ih]
        split
        · rename_i atHead
          rw [if_neg (atHead ▸ ne_of_before greater)]
        · rfl
      · rename_i notLess notGreater
        rw [eq_of_not_before notLess notGreater]
        by_cases same : other = head.1 <;> simp [findEntry, same]

@[simp] theorem get?_insert (map : OrderedMap κ ν) (key other : κ) (value : ν) :
    (map.insert key value).get? other = if other = key then some value else map.get? other :=
  findEntry_insertEntry map.entries key other value

theorem findEntry_eq_none {entries : List (κ × ν)} {key : κ}
    (later : ∀ entry ∈ entries, before key entry.1 = true) : findEntry key entries = none := by
  induction entries with
  | nil => rfl
  | cons head tail ih =>
    rw [findEntry, if_neg (ne_of_before (later head List.mem_cons_self)),
      ih fun entry member => later entry (List.mem_cons_of_mem _ member)]

@[simp] theorem get?_filterMap (change : κ → ν → Option ν) (map : OrderedMap κ ν) (key : κ) :
    (map.filterMap change).get? key = (map.get? key).bind (change key) := by
  obtain ⟨entries, sorted⟩ := map
  simp only [get?, filterMap]
  induction entries with
  | nil => rfl
  | cons head tail ih =>
    have ⟨first, rest⟩ := List.pairwise_cons.mp sorted
    by_cases atHead : key = head.1
    · subst atHead
      cases changed : change head.1 head.2 with
      | none => simp [changed, findEntry, ih rest, findEntry_eq_none first]
      | some value => simp [changed, findEntry]
    · cases changed : change head.1 head.2 <;>
        simp [changed, findEntry, atHead, ih rest]

@[simp] theorem get?_erase (map : OrderedMap κ ν) (key other : κ) :
    (map.erase key).get? other = if other = key then none else map.get? other := by
  by_cases same : other = key <;> cases found : map.get? other <;> simp [erase, same, found]

theorem findEntry_eq_some {entries : List (κ × ν)} {key : κ} {value : ν}
    (sorted : entries.Pairwise fun a b => before a.1 b.1 = true) :
    findEntry key entries = some value ↔ (key, value) ∈ entries := by
  induction entries with
  | nil => simp [findEntry]
  | cons head tail ih =>
    have ⟨first, rest⟩ := List.pairwise_cons.mp sorted
    obtain ⟨other, stored⟩ := head
    simp only [findEntry, List.mem_cons, Prod.mk.injEq]
    split
    · rename_i same
      subst same
      have absent : (key, value) ∉ tail := fun member => ne_of_before (first _ member) rfl
      simp [absent, eq_comm]
    · rename_i different
      simp [different, ih rest]

theorem get?_eq_some {map : OrderedMap κ ν} {key : κ} {value : ν} :
    map.get? key = some value ↔ (key, value) ∈ map.entries :=
  findEntry_eq_some map.ascending

end

end OrderedMap

end ContextFree
