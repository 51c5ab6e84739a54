import ContextFree.Alphabet.SymbolSet

/-! Searches for symbols.

A search holds the symbols it has found and a stack of symbols still to be
followed. Following a symbol may find others, and these go on the stack, each of
them once.
-/

set_option autoImplicit false

namespace ContextFree

def SymbolSet.absent (set : SymbolSet) : Nat :=
  Symbol.all.countP fun s => !set.contains s

theorem SymbolSet.absent_put_lt {set : SymbolSet} {s : Symbol} (fresh : set.contains s = false) :
    (set.put s).absent < set.absent := by
  have here : 0 < Symbol.all.countP fun t => !set.contains t && decide (t = s) :=
    List.countP_pos_iff.mpr ⟨s, Symbol.mem_all s, by simp [fresh]⟩
  have parts := List.countP_eq_countP_filter_add Symbol.all (fun t => !set.contains t)
    fun t => decide (t = s)
  simp only [List.countP_filter] at parts
  simp only [absent, contains_put, Bool.not_or, parts]
  omega

/-- How symbols are found: following a symbol means to look at its items, and an item
gives a symbol once certain symbols are found. -/
structure Lead (α : Type) where
  items : Symbol → List α
  gain : SymbolSet → α → Option Symbol
  /-- An item that a further symbol makes give one is among the items of that symbol. -/
  gain_put : ∀ {set : SymbolSet} {s t u : Symbol} {item : α}, item ∈ items u →
    gain (set.put s) item = some t → gain set item = some t ∨ item ∈ items s

def Lead.along (targets : Symbol → List Symbol) : Lead Symbol where
  items := targets
  gain _ target := some target
  gain_put _ gained := .inl gained

/-- The symbols found so far, and a stack of those that are still to be followed. -/
structure Search where
  found : SymbolSet
  pending : List Symbol

namespace Search

def discover (search : Search) (s : Symbol) : Search :=
  if search.found.contains s then search
  else ⟨search.found.put s, s :: search.pending⟩

variable {α : Type}

def look (lead : Lead α) (search : Search) (item : α) : Search :=
  match lead.gain search.found item with
  | some s => search.discover s
  | none => search

def follow (lead : Lead α) (search : Search) (s : Symbol) : Search :=
  (lead.items s).foldl (look lead) search

/-- Every symbol that is not found yet may have to be followed. -/
def work (search : Search) : Nat :=
  search.found.absent + search.pending.length

theorem work_discover (search : Search) (s : Symbol) : (search.discover s).work ≤ search.work := by
  unfold discover
  split
  · exact Nat.le_refl _
  · rename_i fresh
    have fewer := SymbolSet.absent_put_lt (Bool.not_eq_true _ ▸ fresh)
    simp only [work, List.length_cons]
    omega

theorem work_look (lead : Lead α) (search : Search) (item : α) :
    (search.look lead item).work ≤ search.work := by
  unfold look
  split
  · exact work_discover search _
  · exact Nat.le_refl _

theorem work_follow (lead : Lead α) (search : Search) (s : Symbol) :
    (search.follow lead s).work ≤ search.work := by
  unfold follow
  induction lead.items s generalizing search with
  | nil => exact Nat.le_refl _
  | cons item rest ih => exact Nat.le_trans (ih (search.look lead item)) (work_look lead search item)

def run (lead : Lead α) (search : Search) : Search :=
  match search with
  | ⟨found, []⟩ => ⟨found, []⟩
  | ⟨found, s :: rest⟩ => run lead (follow lead ⟨found, rest⟩ s)
termination_by search.work
decreasing_by
  have bound := work_follow lead ⟨found, rest⟩ s
  simp only [work, List.length_cons] at bound ⊢
  omega

end Search

end ContextFree
