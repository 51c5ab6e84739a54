import ContextFree.Order.Ordered

/-! Runs of equal keys in a sorted array, found by bisection.

A bisection finds where the values that pass a test end, if these come first. The
values with one key lie between two such places.
-/

set_option autoImplicit false

namespace ContextFree

open Ordered

variable {α : Type}

/-- Halve the positions from `low` to `high` until none is left. Values before `low`
are known to pass, values from `high` on are known to fail. -/
def bisect (values : Array α) (test : α → Bool) (low high : Nat) (inside : high ≤ values.size) : Nat :=
  if gap : low < high then
    let middle := low + (high - low) / 2
    if test values[middle] then bisect values test (middle + 1) high inside
    else bisect values test low middle (by omega)
  else low
termination_by high - low

/-- How many values pass, if these come first. -/
def boundary (values : Array α) (test : α → Bool) : Nat :=
  bisect values test 0 values.size (Nat.le_refl _)

theorem bisect_eq {values : Array α} {test : α → Bool} {place : Nat}
    (divides : ∀ i (inside : i < values.size), test values[i] = decide (i < place)) {low high : Nat}
    {inside : high ≤ values.size} (above : low ≤ place) (below : place ≤ high) :
    bisect values test low high inside = place := by
  fun_induction bisect values test low high inside with
  | case1 low high inside gap middle passes ih =>
    rw [divides, decide_eq_true_eq] at passes
    exact ih passes below
  | case2 low high inside gap middle fails ih =>
    rw [divides, decide_eq_true_eq] at fails
    exact ih above (by omega)
  | case3 low high inside gap => omega

theorem boundary_eq_length {values : Array α} {test : α → Bool} {front back : List α}
    (split : values.toList = front ++ back) (passes : ∀ value ∈ front, test value = true)
    (fails : ∀ value ∈ back, test value = false) : boundary values test = front.length := by
  have length : values.size = front.length + back.length := by
    rw [← Array.length_toList, split, List.length_append]
  apply bisect_eq _ (Nat.zero_le _) (by omega)
  intro i inside
  rw [← Array.getElem_toList]
  simp only [split]
  by_cases early : i < front.length
  · rw [List.getElem_append_left early, passes _ (List.getElem_mem early)]
    simp [early]
  · rw [List.getElem_append_right (by omega), fails _ (List.getElem_mem _)]
    simp [early]

theorem filter_append_filter_not {test : α → Bool} {values : List α}
    (fronted : values.Pairwise fun a b => test b = true → test a = true) :
    values.filter test ++ values.filter (fun value => !test value) = values := by
  induction values with
  | nil => rfl
  | cons head tail ih =>
    have ⟨first, rest⟩ := List.pairwise_cons.mp fronted
    by_cases passes : test head = true
    · simp [passes, ih rest]
    · have none_passes : tail.filter test = [] :=
        List.filter_eq_nil_iff.mpr fun value member later => passes (first value member later)
      rw [none_passes, List.nil_append] at ih
      simp [passes, none_passes, ih rest]

theorem extract_boundary {values : Array α} {test : α → Bool}
    (fronted : values.toList.Pairwise fun a b => test b = true → test a = true) :
    (values.extract 0 (boundary values test)).toList = values.toList.filter test ∧
      (values.extract (boundary values test)).toList = values.toList.filter fun value => !test value := by
  have split := filter_append_filter_not fronted
  have place : boundary values test = (values.toList.filter test).length := by
    apply boundary_eq_length split.symm
    · intro value member
      exact (List.mem_filter.mp member).2
    · intro value member
      simpa using (List.mem_filter.mp member).2
  constructor
  · calc (values.extract 0 (boundary values test)).toList
        = values.toList.take (values.toList.filter test).length := by
          rw [place, Array.toList_extract, List.extract_eq_take_drop, List.drop_zero, Nat.sub_zero]
      _ = values.toList.filter test := (List.prefix_iff_eq_take.mp ⟨_, split⟩).symm
  · calc (values.extract (boundary values test)).toList
        = values.toList.drop (values.toList.filter test).length := by
          rw [place, Array.toList_extract, List.extract_eq_take_drop]
          exact List.take_of_length_le (by simp)
      _ = values.toList.filter fun value => !test value := by
          conv => lhs; arg 2; rw [← split]
          exact List.drop_left

section Runs

variable {κ : Type} [DecidableEq κ] [Ordered κ] {key : α → κ}

def equalRun (key : α → κ) (values : Array α) (wanted : κ) : Array α :=
  let rest := values.extract (boundary values fun value => before (key value) wanted)
  rest.extract 0 (boundary rest fun value => decide (key value = wanted))

theorem toList_equalRun {values : Array α}
    (sorted : values.toList.Pairwise fun a b => before (key b) (key a) = false) (wanted : κ) :
    (equalRun key values wanted).toList = values.toList.filter fun value => decide (key value = wanted) := by
  have ⟨_, behind⟩ := @extract_boundary α values (fun value => before (key value) wanted)
    (sorted.imp fun order less => before_of_not_before order less)
  have fronted : (values.toList.filter fun value => !before (key value) wanted).Pairwise
      fun a b => decide (key b = wanted) = true → decide (key a = wanted) = true := by
    refine (sorted.filter _).imp_of_mem fun {a b} left _ order same => ?_
    -- the first key is neither below the wanted one nor above the second, which is wanted
    rw [decide_eq_true_eq] at same ⊢
    have least := (List.mem_filter.mp left).2
    rw [same] at order
    exact eq_of_not_before (by simpa using least) (by simp [order])
  rw [← behind] at fronted
  rw [equalRun, (extract_boundary fronted).1, behind, List.filter_filter]
  apply List.filter_congr
  intro value _
  by_cases same : key value = wanted
  · simp [same, before_irrefl]
  · simp [same]

end Runs

end ContextFree
