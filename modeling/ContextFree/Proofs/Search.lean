import ContextFree.Alphabet.Search
import ContextFree.Proofs.Growth
import Mathlib.Logic.Relation

/-! Searches find all that can be found, and nothing else.

While symbols are pending, an item that gives a symbol not found yet is still going
to be looked at. At the end nothing is pending, so every item of a found symbol has
given its symbol.
-/

set_option autoImplicit false

namespace ContextFree

open SymbolSet (Grown)

namespace Search

variable {α : Type} {lead : Lead α} {search : Search}

theorem look_cases (lead : Lead α) (search : Search) (item : α) :
    (∀ t, lead.gain search.found item = some t → t ∈ search.found) ∧ search.look lead item = search ∨
      ∃ new, lead.gain search.found item = some new ∧
        search.look lead item = ⟨search.found.put new, new :: search.pending⟩ := by
  cases gained : lead.gain search.found item with
  | none =>
    refine .inl ⟨fun t impossible => (Option.some_ne_none t impossible.symm).elim, ?_⟩
    simp [look, gained]
  | some s =>
    by_cases found : search.found.contains s = true
    · refine .inl ⟨fun t same => Option.some.inj same ▸ found, ?_⟩
      simp [look, gained, discover, found]
    · refine .inr ⟨s, rfl, ?_⟩
      simp [look, gained, discover, found]

theorem grown_look (lead : Lead α) (search : Search) (item : α) :
    Grown search.found (search.look lead item).found := by
  rcases look_cases lead search item with ⟨_, unchanged⟩ | ⟨new, _, found⟩
  · rw [unchanged]
    exact .refl _
  · rw [found]
    exact SymbolSet.grown_put _ new

theorem grown_follow (lead : Lead α) (search : Search) (s : Symbol) :
    Grown search.found (search.follow lead s).found := by
  unfold follow
  induction lead.items s generalizing search with
  | nil => exact .refl _
  | cons item rest ih => exact (grown_look lead search item).trans (ih (search.look lead item))

theorem grown_run (lead : Lead α) (search : Search) : Grown search.found (run lead search).found := by
  fun_induction run lead search with
  | case1 found => exact .refl found
  | case2 found s rest ih => exact (grown_follow lead ⟨found, rest⟩ s).trans ih

theorem pending_run (lead : Lead α) (search : Search) : (run lead search).pending = [] := by
  fun_induction run lead search with
  | case1 found => rfl
  | case2 found s rest ih => exact ih

/-! ### All is found -/

/-- Every item that gives a symbol not found yet is left in the present round, or
belongs to a pending symbol. -/
def Covered (lead : Lead α) (search : Search) (left : List α) : Prop :=
  ∀ s ∈ search.found, ∀ item ∈ lead.items s, ∀ t, lead.gain search.found item = some t →
    t ∈ search.found ∨ item ∈ left ∨ ∃ u ∈ search.pending, item ∈ lead.items u

theorem covered_of_pending (pending : ∀ s ∈ search.found, s ∈ search.pending) :
    Covered lead search [] := by
  intro s found item member t _
  exact .inr (.inr ⟨s, pending s found, member⟩)

theorem Covered.look {item : α} {left : List α} (covered : Covered lead search (item :: left)) :
    Covered lead (search.look lead item) left := by
  rcases look_cases lead search item with ⟨stale, unchanged⟩ | ⟨new, gives, found⟩
  · rw [unchanged]
    intro s found other member t gained
    rcases covered s found other member t gained with old | here | later
    · exact .inl old
    · rcases List.mem_cons.mp here with rfl | here
      · exact .inl (stale t gained)
      · exact .inr (.inl here)
    · exact .inr (.inr later)
  · rw [found]
    intro s found other member t gained
    -- what only the new symbol makes possible is looked at when this symbol is followed
    rcases lead.gain_put member gained with before | later
    · rcases SymbolSet.mem_put.mp found with old | rfl
      · rcases covered s old other member t before with found | here | ⟨u, pending, looked⟩
        · exact .inl (SymbolSet.mem_put.mpr (.inl found))
        · rcases List.mem_cons.mp here with rfl | here
          · rw [gives] at before
            exact .inl (SymbolSet.mem_put.mpr (.inr (Option.some.inj before).symm))
          · exact .inr (.inl here)
        · exact .inr (.inr ⟨u, List.mem_cons_of_mem new pending, looked⟩)
      · exact .inr (.inr ⟨s, List.mem_cons_self, member⟩)
    · exact .inr (.inr ⟨new, List.mem_cons_self, later⟩)

theorem Covered.foldl_look {left : List α} (covered : Covered lead search left) :
    Covered lead (left.foldl (Search.look lead) search) [] := by
  induction left generalizing search with
  | nil => exact covered
  | cons item rest ih => exact ih covered.look

theorem Covered.follow {found : SymbolSet} {s : Symbol} {rest : List Symbol}
    (covered : Covered lead ⟨found, s :: rest⟩ []) :
    Covered lead (Search.follow lead ⟨found, rest⟩ s) [] := by
  apply Covered.foldl_look
  intro source member item looked t gained
  rcases covered source member item looked t gained with old | impossible | ⟨u, pending, later⟩
  · exact .inl old
  · cases impossible
  · rcases List.mem_cons.mp pending with rfl | pending
    · exact .inr (.inl later)
    · exact .inr (.inr ⟨u, pending, later⟩)

theorem Covered.run (covered : Covered lead search []) : Covered lead (Search.run lead search) [] := by
  fun_induction Search.run lead search with
  | case1 found => exact covered
  | case2 found s rest ih => exact ih covered.follow

/-- At the end every item of a found symbol has given its symbol. -/
theorem mem_run_of_gain (covered : Covered lead search []) {s : Symbol} (found : s ∈ (run lead search).found)
    {item : α} (member : item ∈ lead.items s) {t : Symbol}
    (gained : lead.gain (run lead search).found item = some t) : t ∈ (run lead search).found := by
  rcases covered.run s found item member t gained with here | impossible | ⟨u, pending, _⟩
  · exact here
  · cases impossible
  · rw [pending_run] at pending
    cases pending

/-! ### Nothing else is found -/

/-- Found symbols have one property, pending ones another, which may be weaker. -/
structure Within (search : Search) (motive followed : Symbol → Prop) : Prop where
  found : ∀ s ∈ search.found, motive s
  pending : ∀ s ∈ search.pending, followed s

variable {motive followed : Symbol → Prop}

theorem Within.look (weaker : ∀ s, motive s → followed s) {item : α}
    (passes : ∀ set t, (∀ s ∈ set, motive s) → lead.gain set item = some t → motive t)
    (within : search.Within motive followed) : (search.look lead item).Within motive followed := by
  rcases look_cases lead search item with ⟨_, unchanged⟩ | ⟨new, gives, found⟩
  · rw [unchanged]
    exact within
  · have holds : motive new := passes _ _ within.found gives
    rw [found]
    constructor
    · intro s found
      rcases SymbolSet.mem_put.mp found with old | rfl
      · exact within.found s old
      · exact holds
    · intro s pending
      rcases List.mem_cons.mp pending with rfl | pending
      · exact weaker s holds
      · exact within.pending s pending

/-- A property of all found symbols that items hand on holds of everything a run finds. -/
theorem Within.run (weaker : ∀ s, motive s → followed s)
    (passes : ∀ s, followed s → ∀ item ∈ lead.items s, ∀ set t, (∀ s ∈ set, motive s) →
      lead.gain set item = some t → motive t)
    (within : search.Within motive followed) :
    (Search.run lead search).Within motive followed := by
  fun_induction Search.run lead search with
  | case1 found => exact within
  | case2 found s rest ih =>
    apply ih
    have due : followed s := within.pending s List.mem_cons_self
    have rest_within : Within ⟨found, rest⟩ motive followed :=
      ⟨within.found, fun t pending => within.pending t (List.mem_cons_of_mem s pending)⟩
    unfold follow
    refine List.foldlRecOn (motive := fun search => Within search motive followed) (lead.items s) _
      rest_within ?_
    intro search within item member
    exact within.look weaker (passes s due item member)

/-! ### Targets -/

section Targets

open Relation (ReflTransGen)

variable {targets : Symbol → List Symbol} {origin : Symbol}

theorem Within.run_along {step : Symbol → Symbol → Prop}
    (exact : ∀ s t, t ∈ targets s ↔ step s t)
    (within : search.Within (ReflTransGen step origin) (ReflTransGen step origin)) :
    (Search.run (.along targets) search).Within (ReflTransGen step origin) (ReflTransGen step origin) := by
  refine within.run (fun _ reached => reached) ?_
  intro s reached target member _ t _ gained
  cases gained
  exact reached.tail ((exact s _).mp member)

theorem mem_run_along {step : Symbol → Symbol → Prop} (exact : ∀ s t, t ∈ targets s ↔ step s t)
    (start : origin ∈ search.found) (covered : Covered (.along targets) search [])
    (within : search.Within (ReflTransGen step origin) (ReflTransGen step origin)) {s : Symbol} :
    s ∈ (run (.along targets) search).found ↔ ReflTransGen step origin s := by
  constructor
  · exact (within.run_along exact).found s
  · intro reaches
    induction reaches with
    | refl => exact (grown_run _ search).subset origin start
    | tail _ next ih => exact mem_run_of_gain covered ih ((exact _ _).mpr next) rfl

end Targets

end Search

end ContextFree
