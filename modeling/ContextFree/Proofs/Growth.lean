import ContextFree.Alphabet.SymbolSet

/-! Members, and growth of a set.

A set grows when it gains members in the frame it has.
-/

set_option autoImplicit false

namespace ContextFree

namespace SymbolSet

/-- The second set has the members of the first, in the same frame. -/
structure Grown (first second : SymbolSet) : Prop where
  frame : second.frame = first.frame
  subset : ∀ s ∈ first, s ∈ second

theorem Grown.refl (set : SymbolSet) : Grown set set where
  frame := rfl
  subset _ member := member

theorem Grown.trans {first second third : SymbolSet} (left : Grown first second)
    (right : Grown second third) : Grown first third where
  frame := right.frame.trans left.frame
  subset s member := right.subset s (left.subset s member)

theorem Grown.antisymm {first second : SymbolSet} (grown : Grown first second)
    (back : ∀ s ∈ second, s ∈ first) : second = first := by
  apply ext_contains _ grown.frame
  intro s
  rw [Bool.eq_iff_iff]
  exact ⟨back s, grown.subset s⟩

theorem grown_put (set : SymbolSet) (s : Symbol) : Grown set (set.put s) where
  frame := frame_put set s
  subset t member := by
    rw [mem_iff] at member
    simp [mem_iff, member]

@[simp] theorem mem_put {set : SymbolSet} {s t : Symbol} : t ∈ set.put s ↔ t ∈ set ∨ t = s := by
  simp [mem_iff]

@[simp] theorem mem_ofList {symbols : List Symbol} {s : Symbol} :
    s ∈ ofList symbols ↔ s ∈ symbols := by
  simp [mem_iff]

@[simp] theorem not_mem_empty {s : Symbol} : s ∉ empty := by
  simp [mem_iff]

@[simp] theorem mem_union {first second : SymbolSet} {s : Symbol} :
    s ∈ first.union second ↔ s ∈ first ∨ s ∈ second := by
  simp [mem_iff]

@[simp] theorem mem_difference {first second : SymbolSet} {s : Symbol} :
    s ∈ first.difference second ↔ s ∈ first ∧ s ∉ second := by
  simp [mem_iff]

theorem mem_foldl_put {symbols : List Symbol} {set : SymbolSet} {s : Symbol} :
    s ∈ symbols.foldl put set ↔ s ∈ set ∨ s ∈ symbols := by
  simp [mem_iff, contains_foldl_put]

end SymbolSet

end ContextFree
