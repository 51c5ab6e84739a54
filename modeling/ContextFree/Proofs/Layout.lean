import ContextFree.Grammar.Render
import ContextFree.Text.Blank
import ContextFree.Text.Lines
import Mathlib.Data.List.Basic

/-! Printed lines are cut where they were put together.

Printed lines have no blanks, so nothing is trimmed, and a line end stands at the
end of a line only. No alternative has a bar, and no left-hand side a colon.
-/

set_option autoImplicit false

namespace ContextFree

namespace Text

/-- No character is blank. Line ends are blanks, too. -/
def Solid (cs : List Char) : Prop :=
  ∀ c ∈ cs, isBlank c = false

@[simp] theorem solid_nil : Solid [] := by
  simp [Solid]

@[simp] theorem solid_cons {c : Char} {cs : List Char} :
    Solid (c :: cs) ↔ isBlank c = false ∧ Solid cs := by
  simp [Solid]

theorem trimLeft_of_solid {cs : List Char} (solid : Solid cs) : trimLeft cs = cs := by
  cases cs with
  | nil => rfl
  | cons c rest => simp [trimLeft, (solid_cons.mp solid).1]

theorem trim_of_solid {cs : List Char} (solid : Solid cs) : trim cs = cs := by
  have backward : trimLeft cs.reverse = cs.reverse :=
    trimLeft_of_solid fun c member => solid c (List.mem_reverse.mp member)
  rw [trim, trimLeft_of_solid solid, trimRight, ← trimLeft, backward, List.reverse_reverse]

theorem Solid.ne {cs : List Char} (solid : Solid cs) {c d : Char} (member : c ∈ cs)
    (blank : isBlank d = true) : c ≠ d := by
  rintro rfl
  simp [solid c member] at blank

def OneLine (cs : List Char) : Prop :=
  ∀ c ∈ cs, c ≠ '\n' ∧ c ≠ '\r'

theorem Solid.oneLine {cs : List Char} (solid : Solid cs) : OneLine cs :=
  fun _ member => ⟨solid.ne member (by decide), solid.ne member (by decide)⟩

theorem lines_append {line : List Char} (single : OneLine line) (rest : List Char) :
    lines (line ++ '\n' :: rest) = line :: lines rest := by
  induction line with
  | nil => simp [lines]
  | cons c line ih =>
    obtain ⟨⟨newline, carriage⟩, single⟩ := List.forall_mem_cons.mp single
    simp [lines, carriage, ih single]

theorem lines_flatMap {parts : List (List Char)} (single : ∀ part ∈ parts, OneLine part) :
    lines (parts.flatMap fun part => part ++ ['\n']) = parts := by
  induction parts with
  | nil => rfl
  | cons part rest ih =>
    obtain ⟨first, others⟩ := List.forall_mem_cons.mp single
    simp only [List.flatMap_cons, List.append_assoc, List.singleton_append]
    rw [lines_append first, ih others]

theorem splitAtDefines_cons {c : Char} (other : c ≠ ':') (rest : List Char) :
    splitAtDefines (c :: ':' :: ':' :: '=' :: rest) = some ([c], rest) := by
  simp [splitAtDefines, other]

theorem forall_mem_intercalate {holds : Char → Prop} {sep : Char} (between : holds sep)
    {parts : List (List Char)} (inside : ∀ part ∈ parts, ∀ c ∈ part, holds c) :
    ∀ c ∈ List.intercalate [sep] parts, holds c := by
  induction parts with
  | nil => simp
  | cons part rest ih =>
    obtain ⟨first, others⟩ := List.forall_mem_cons.mp inside
    cases rest with
    | nil => simpa using first
    | cons next more =>
      intro c member
      rw [List.intercalate_cons_cons, List.mem_append, List.mem_append, List.mem_singleton] at member
      rcases member with (found | rfl) | found
      · exact first c found
      · exact between
      · exact ih others c found

end Text

/-! ### Characters of symbols -/

theorem Symbol.isBlank_toChar (s : Symbol) : Text.isBlank s.toChar = false := by
  obtain ⟨id⟩ := s
  revert id
  decide

theorem Symbol.toChar_ne_mark (s : Symbol) : s.toChar ≠ ':' ∧ s.toChar ≠ '|' := by
  obtain ⟨id⟩ := s
  revert id
  decide

theorem Rhs.solid_chars (rhs : Rhs) : Text.Solid rhs.chars := by
  cases rhs with
  | epsilon => simp [chars, show Text.isBlank 'l' = false by decide]
  | sequence symbols =>
    intro c member
    obtain ⟨s, _, rfl⟩ := List.mem_map.mp member
    exact s.isBlank_toChar

theorem Rhs.bar_not_mem_chars (rhs : Rhs) : '|' ∉ rhs.chars := by
  cases rhs with
  | epsilon => decide
  | sequence symbols =>
    intro member
    obtain ⟨s, _, same⟩ := List.mem_map.mp member
    exact s.toChar_ne_mark.2 same

end ContextFree
