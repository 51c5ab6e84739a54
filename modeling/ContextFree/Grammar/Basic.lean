import ContextFree.Fault
import ContextFree.Order.OrderedMap
import ContextFree.Order.OrderedSet

/-! Context-free grammars and the questions they answer directly.

Every left-hand side owns an ordered set of right-hand sides. The edits keep no
empty set, but a grammar read from a document may hold one, and its rules may
mention symbols that are not declared.
-/

set_option autoImplicit false

namespace ContextFree

structure Grammar where
  nonterminals : SymbolSet
  terminals : SymbolSet
  productions : OrderedMap Symbol (OrderedSet Rhs)
  start : Option Symbol
  deriving DecidableEq

namespace Grammar

def empty : Grammar where
  nonterminals := .empty
  terminals := .empty
  productions := .empty
  start := none

def isEmpty (g : Grammar) : Bool :=
  g.productions.isEmpty

/-- The same productions and start, and sets that agree as they are stored. -/
def agrees (first second : Grammar) : Bool :=
  first.nonterminals.agrees second.nonterminals && first.terminals.agrees second.terminals &&
    decide (first.productions = second.productions) && decide (first.start = second.start)

/-- The kind a symbol is declared as. A symbol declared as both is a nonterminal. -/
def kindOf (g : Grammar) (s : Symbol) : Option Kind :=
  if g.nonterminals.contains s then some .nonterminal
  else if g.terminals.contains s then some .terminal
  else none

def symbols (g : Grammar) : SymbolSet :=
  g.nonterminals.union g.terminals

def declared? (g : Grammar) (c : Char) : Option Symbol :=
  (Symbol.ofChar? c).filter fun s => (g.kindOf s).isSome

def defined (g : Grammar) (c : Char) (kind : Kind) : Except Fault Symbol :=
  match (Symbol.ofChar? c).filter fun s => decide (g.kindOf s = some kind) with
  | some s => .ok s
  | none => .error (.notDefined c kind)

def requireStart (g : Grammar) : Except Fault Symbol :=
  match g.start with
  | some s => .ok s
  | none => .error .noStart

def productionsOf (g : Grammar) (lhs : Symbol) : List Rhs :=
  match g.productions.get? lhs with
  | some set => set.toList
  | none => []

/-- All rules, ordered by left-hand side, then by right-hand side. -/
def rules (g : Grammar) : List Rule :=
  g.productions.entries.flatMap fun entry => entry.2.toList.map (Rule.mk entry.1)

theorem mem_productionsOf {g : Grammar} {lhs : Symbol} {rhs : Rhs} :
    rhs ∈ g.productionsOf lhs ↔ ∃ set, g.productions.get? lhs = some set ∧ rhs ∈ set := by
  unfold productionsOf
  split
  · rename_i set found
    simp [found, OrderedSet.mem_toList]
  · rename_i missing
    simp [missing]

theorem mem_rules {g : Grammar} {rule : Rule} :
    rule ∈ g.rules ↔ rule.rhs ∈ g.productionsOf rule.lhs := by
  obtain ⟨lhs, rhs⟩ := rule
  simp only [rules, List.mem_flatMap, List.mem_map, Rule.mk.injEq, mem_productionsOf,
    OrderedMap.get?_eq_some]
  constructor
  · rintro ⟨⟨_, set⟩, member, _, inside, rfl, rfl⟩
    exact ⟨set, member, inside⟩
  · rintro ⟨set, member, inside⟩
    exact ⟨(lhs, set), member, rhs, inside, rfl, rfl⟩

theorem pairwise_rules (g : Grammar) : g.rules.Pairwise fun a b => Ordered.before a b = true := by
  rw [rules, List.pairwise_flatMap]
  constructor
  · intro entry _
    rw [List.pairwise_map]
    refine entry.2.ascending.imp fun less => ?_
    exact Rule.before_iff.mpr (.inr ⟨rfl, less⟩)
  · refine g.productions.ascending.imp fun less first left second right => ?_
    obtain ⟨_, _, rfl⟩ := List.mem_map.mp left
    obtain ⟨_, _, rfl⟩ := List.mem_map.mp right
    exact Rule.before_iff.mpr (.inl less)

def hasRule (g : Grammar) (lhs : Symbol) (rhs : Rhs) : Bool :=
  decide (rhs ∈ g.productionsOf lhs)

@[simp] theorem hasRule_iff {g : Grammar} {lhs : Symbol} {rhs : Rhs} :
    g.hasRule lhs rhs = true ↔ (⟨lhs, rhs⟩ : Rule) ∈ g.rules := by
  simp [hasRule, mem_rules]

def occursOnRhs (g : Grammar) (s : Symbol) : Bool :=
  g.rules.any fun rule => rule.rhs.mentions s

/-- Read declared symbols one by one. The whole text is kept for the fault. -/
def readSymbols (g : Grammar) (text : String) : List Char → Except Fault (List Symbol)
  | [] => .ok []
  | c :: cs =>
    match g.declared? c with
    | some s => (g.readSymbols text cs).map (s :: ·)
    | none => .error (.foreignSymbol c text)

def parseRhs (g : Grammar) (text : String) : Except Fault Rhs :=
  match text.toList with
  | ['l'] => .ok .epsilon
  | [] => .error .emptyRhs
  | chars => (g.readSymbols text chars).map Rhs.ofList

end Grammar

end ContextFree
