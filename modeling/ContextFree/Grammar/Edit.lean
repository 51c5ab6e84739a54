import ContextFree.Grammar.Change

/-! Edits of a grammar.

The first group works on rules and symbols without questions; the second
checks its arguments and reports a fault.
-/

set_option autoImplicit false

namespace ContextFree

namespace Grammar

def addRule (g : Grammar) (lhs : Symbol) (rhs : Rhs) : Grammar :=
  let set := (g.productions.get? lhs).getD .empty
  { g with productions := g.productions.insert lhs (set.insert rhs) }

def insertRule (g : Grammar) (lhs : Symbol) (rhs : Rhs) : Bool × Grammar :=
  (!g.hasRule lhs rhs, g.addRule lhs rhs)

@[simp] theorem mem_rules_addRule {g : Grammar} {lhs : Symbol} {rhs : Rhs} {rule : Rule} :
    rule ∈ (g.addRule lhs rhs).rules ↔ rule = ⟨lhs, rhs⟩ ∨ rule ∈ g.rules := by
  obtain ⟨other, symbols⟩ := rule
  simp only [mem_rules, mem_productionsOf, addRule, OrderedMap.get?_insert, Rule.mk.injEq]
  by_cases same : other = lhs
  · subst same
    cases found : g.productions.get? other <;> simp
  · simp [same]

def addRules (g : Grammar) (rules : List Rule) : Grammar :=
  rules.foldl (fun g rule => g.addRule rule.lhs rule.rhs) g

@[simp] theorem mem_rules_addRules {g : Grammar} {added : List Rule} {rule : Rule} :
    rule ∈ (g.addRules added).rules ↔ rule ∈ added ∨ rule ∈ g.rules := by
  unfold addRules
  induction added generalizing g with
  | nil => simp
  | cons head tail ih =>
    rw [List.foldl_cons, ih, mem_rules_addRule, List.mem_cons]
    exact or_left_comm.trans or_assoc.symm

/-- Remove a rule. A left-hand side with an empty set is dropped, also when the
rule was not there. -/
def removeRule (g : Grammar) (lhs : Symbol) (rhs : Rhs) : Grammar :=
  match g.productions.get? lhs with
  | none => g
  | some set =>
    let remaining := set.erase rhs
    { g with productions :=
        if remaining.isEmpty then g.productions.erase lhs
        else g.productions.insert lhs remaining }

@[simp] theorem mem_rules_removeRule {g : Grammar} {lhs : Symbol} {rhs : Rhs} {rule : Rule} :
    rule ∈ (g.removeRule lhs rhs).rules ↔ rule ∈ g.rules ∧ rule ≠ ⟨lhs, rhs⟩ := by
  obtain ⟨other, symbols⟩ := rule
  unfold removeRule
  split
  · rename_i missing
    simp only [mem_rules, mem_productionsOf, ne_eq, Rule.mk.injEq]
    constructor
    · rintro ⟨set, found, member⟩
      refine ⟨⟨set, found, member⟩, fun same => ?_⟩
      rw [same.1, missing] at found
      cases found
    · exact And.left
  · rename_i set found
    simp only [mem_rules, mem_productionsOf, ne_eq, Rule.mk.injEq]
    by_cases same : other = lhs
    · subst same
      split
      · rename_i emptied
        have none_left : set.toList.filter (fun x => decide (x ≠ rhs)) = [] :=
          List.isEmpty_iff.mp emptied
        have only : ∀ x ∈ set.toList, x = rhs := by simpa using none_left
        simpa [found, ← OrderedSet.mem_toList] using only symbols
      · simp [found]
    · split <;> simp [same]

def removeRules (g : Grammar) (rules : List Rule) : Grammar :=
  rules.foldl (fun g rule => g.removeRule rule.lhs rule.rhs) g

@[simp] theorem mem_rules_removeRules {g : Grammar} {removed : List Rule} {rule : Rule} :
    rule ∈ (g.removeRules removed).rules ↔ rule ∈ g.rules ∧ rule ∉ removed := by
  unfold removeRules
  induction removed generalizing g with
  | nil => simp
  | cons head tail ih =>
    rw [List.foldl_cons, ih, mem_rules_removeRule, List.mem_cons, not_or, and_assoc]

/-- Keep the rules that pass the test, and no empty set. -/
def retain (g : Grammar) (keep : Symbol → Rhs → Bool) : Grammar :=
  { g with productions := g.productions.filterMap fun lhs set =>
      let remaining := set.filter (keep lhs)
      if remaining.isEmpty then none else some remaining }

@[simp] theorem mem_rules_retain {g : Grammar} {keep : Symbol → Rhs → Bool} {rule : Rule} :
    rule ∈ (g.retain keep).rules ↔ rule ∈ g.rules ∧ keep rule.lhs rule.rhs = true := by
  obtain ⟨lhs, rhs⟩ := rule
  simp only [mem_rules, mem_productionsOf, retain, OrderedMap.get?_filterMap]
  cases found : g.productions.get? lhs with
  | none => simp
  | some set =>
    simp only [Option.bind_some, Option.some.injEq, exists_eq_left']
    constructor
    · rintro ⟨kept, result, member⟩
      split at result
      · cases result
      · cases result
        exact OrderedSet.mem_filter.mp member
    · intro member
      have inside : rhs ∈ set.filter (keep lhs) := OrderedSet.mem_filter.mpr member
      refine ⟨set.filter (keep lhs), if_neg fun emptied => ?_, inside⟩
      have nothing : (set.filter (keep lhs)).toList = [] := List.isEmpty_iff.mp emptied
      rw [← OrderedSet.mem_toList, nothing] at inside
      cases inside

def removeSymbols (g : Grammar) (removed : SymbolSet) : Grammar :=
  retain {
      nonterminals := g.nonterminals.difference removed
      terminals := g.terminals.difference removed
      productions := g.productions.filterMap fun lhs set =>
        if removed.contains lhs then none else some set
      start := g.start.filter fun s => !removed.contains s }
    fun _ rhs => rhs.toList.all fun s => !removed.contains s

theorem mem_rules_removeSymbols {g : Grammar} {removed : SymbolSet} {rule : Rule} :
    rule ∈ (g.removeSymbols removed).rules ↔
      rule ∈ g.rules ∧ rule.lhs ∉ removed ∧ ∀ s ∈ rule.rhs.toList, s ∉ removed := by
  rw [removeSymbols, mem_rules_retain]
  simp only [mem_rules, mem_productionsOf, OrderedMap.get?_filterMap, List.all_eq_true,
    Bool.not_eq_true', SymbolSet.mem_iff, Bool.not_eq_true]
  cases removed.contains rule.lhs <;> cases g.productions.get? rule.lhs <;> simp

def removalLog (removed : SymbolSet) : List Event :=
  removed.toList.map .removingSymbol

def declare (g : Grammar) (s : Symbol) : Kind → Grammar
  | .nonterminal => { g with nonterminals := g.nonterminals.put s }
  | .terminal => { g with terminals := g.terminals.put s }

def withStart (g : Grammar) (start : Symbol) : Grammar :=
  { g with start := some start }

/-- Declare a character that is not in use, with the kind its case allows. -/
def addSymbol (g : Grammar) (c : Char) (kind : Kind) : Change (Except Fault Symbol) :=
  match Symbol.ofChar? c with
  | none => .refuse g (.cannotBe c kind)
  | some s =>
    if Kind.ofChar? c = some kind then
      if (g.kindOf s).isSome then .refuse g (.alreadyDefined c)
      else .accept s (g.declare s kind)
    else .refuse g (.cannotBe c kind)

def addNonterminal (g : Grammar) (c : Char) : Change (Except Fault Symbol) :=
  g.addSymbol c .nonterminal

def addTerminal (g : Grammar) (c : Char) : Change (Except Fault Symbol) :=
  g.addSymbol c .terminal

def removeSymbol (g : Grammar) (c : Char) (kind : Kind) : Change (Except Fault Unit) :=
  match g.defined c kind with
  | .error fault => .refuse g fault
  | .ok s =>
    let removed := SymbolSet.ofList [s]
    ⟨.ok (), g.removeSymbols removed, removalLog removed⟩

def removeNonterminal (g : Grammar) (c : Char) : Change (Except Fault Unit) :=
  g.removeSymbol c .nonterminal

def removeTerminal (g : Grammar) (c : Char) : Change (Except Fault Unit) :=
  g.removeSymbol c .terminal

def setStart (g : Grammar) (c : Char) : Change (Except Fault Unit) :=
  match g.defined c .nonterminal with
  | .error fault => .refuse g fault
  | .ok s => .accept () (g.withStart s)

def parseRule (g : Grammar) (lhs : Char) (rhs : String) : Except Fault Rule := do
  let lhs ← g.defined lhs .nonterminal
  let rhs ← g.parseRhs rhs
  return ⟨lhs, rhs⟩

def addProduction (g : Grammar) (lhs : Char) (rhs : String) : Change (Except Fault Unit) :=
  match g.parseRule lhs rhs with
  | .error fault => .refuse g fault
  | .ok rule =>
    if g.hasRule rule.lhs rule.rhs then .refuse g (.duplicate rule)
    else .accept () (g.addRule rule.lhs rule.rhs)

/-- Remove a production. When there is none to remove, the left-hand side still
loses a set that is empty. -/
def removeProduction (g : Grammar) (lhs : Char) (rhs : String) : Change (Except Fault Unit) :=
  match g.parseRule lhs rhs with
  | .error fault => .refuse g fault
  | .ok rule =>
    let after := g.removeRule rule.lhs rule.rhs
    if g.hasRule rule.lhs rule.rhs then .accept () after
    else .refuse after (.missing lhs rhs)

end Grammar

end ContextFree
