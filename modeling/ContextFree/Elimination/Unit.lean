import ContextFree.Alphabet.Search
import ContextFree.Grammar.Edit

/-! Elimination of unit rules `A ::= B` for a nonterminal `B`.

A nonterminal inherits the other rules of every nonterminal it reaches through
unit rules. Epsilon rules are not inherited.
-/

set_option autoImplicit false

namespace ContextFree

namespace Grammar

/-- The nonterminal that is all of the right-hand side. -/
def unitTarget? (g : Grammar) (rhs : Rhs) : Option Symbol :=
  rhs.single?.filter g.nonterminals.contains

def isUnitRule (g : Grammar) (rule : Rule) : Bool :=
  (g.unitTarget? rule.rhs).isSome

def unitRules (g : Grammar) : List Rule :=
  g.rules.filter g.isUnitRule

def hasUnitRules (g : Grammar) : Bool :=
  g.rules.any g.isUnitRule

def unitTargets (g : Grammar) (s : Symbol) : List Symbol :=
  (g.productionsOf s).filterMap g.unitTarget?

end Grammar

structure UnitMatrix where
  rows : Vector SymbolSet 62

namespace UnitMatrix

def blank : UnitMatrix where
  rows := Vector.replicate 62 .empty

def row (matrix : UnitMatrix) (s : Symbol) : SymbolSet :=
  matrix.rows[s.id]

def setRow (matrix : UnitMatrix) (s : Symbol) (row : SymbolSet) : UnitMatrix where
  rows := matrix.rows.set s.id row

theorem row_blank (s : Symbol) : blank.row s = .empty := by
  simp [blank, row]

theorem row_setRow (matrix : UnitMatrix) (s t : Symbol) (row : SymbolSet) :
    (matrix.setRow s row).row t = if t = s then row else matrix.row t := by
  obtain ⟨i⟩ := s
  obtain ⟨j⟩ := t
  by_cases same : j = i
  · simp [setRow, UnitMatrix.row, same]
  · have other : (i : Nat) ≠ j := fun equal => same (Fin.ext equal.symm)
    simp [setRow, UnitMatrix.row, same, other]

def derives (matrix : UnitMatrix) (source target : Symbol) : Bool :=
  (matrix.row source).contains target

def targets (matrix : UnitMatrix) (source : Symbol) : List Symbol :=
  (matrix.row source).toList

end UnitMatrix

/-- A matrix that is being filled row by row, with the stack that all rows share. -/
structure UnitFilling where
  matrix : UnitMatrix
  pending : List Symbol

namespace Grammar

/-- Put into the row of a symbol what it reaches through zero or more unit rules. -/
def fillRow (g : Grammar) (filling : UnitFilling) (origin : Symbol) : UnitFilling :=
  let search := Search.run (.along g.unitTargets)
    ⟨(filling.matrix.row origin).put origin, origin :: filling.pending⟩
  { matrix := filling.matrix.setRow origin search.found, pending := search.pending }

/-- What nonterminals reach through zero or more unit rules. The rows of other symbols
are empty. -/
def unitMatrix (g : Grammar) : UnitMatrix :=
  (g.nonterminals.listing.foldl g.fillRow ⟨.blank, []⟩).matrix

def unitReach (g : Grammar) (origin : Symbol) : SymbolSet :=
  g.unitMatrix.row origin

/-- Pairs of a nonterminal and another one it reaches through unit rules. -/
def unitChains (g : Grammar) : List (Symbol × Symbol) :=
  let matrix := g.unitMatrix
  g.nonterminals.listing.flatMap fun source =>
    ((matrix.targets source).filter fun target => decide (target ≠ source)).map (source, ·)

/-- What the source of a unit chain takes over from its target. -/
def inheritance (g : Grammar) (chain : Symbol × Symbol) : List Rule :=
  ((g.productionsOf chain.2).filter fun rhs =>
    !rhs.isEpsilon && (g.unitTarget? rhs).isNone).map (Rule.mk chain.1)

def removeUnitRules (g : Grammar) : Change (List Rule) :=
  let chains := g.unitChains
  let removed := g.unitRules
  { report := removed
    grammar := (g.addRules (chains.flatMap g.inheritance)).removeRules removed
    log := chains.map (fun chain => .unitChain chain.1 chain.2) ++ [.removedUnitRules removed.length] }

end Grammar

end ContextFree
