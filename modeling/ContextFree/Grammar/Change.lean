import ContextFree.Event
import ContextFree.Grammar.Basic

/-! The effect of an operation on a grammar: its answer, the grammar afterwards and
the records it wrote.
-/

set_option autoImplicit false

namespace ContextFree

structure Change (α : Type) where
  report : α
  grammar : Grammar
  log : List Event

namespace Change

variable {α : Type}

def refuse (g : Grammar) (fault : Fault) : Change (Except Fault α) where
  report := .error fault
  grammar := g
  log := []

def accept (value : α) (g : Grammar) : Change (Except Fault α) where
  report := .ok value
  grammar := g
  log := []

end Change

end ContextFree
