import ContextFree.Alphabet.Supply
import ContextFree.Grammar.Edit

/-! A grammar on its way to Chomsky normal form, with the letters that are left for
new nonterminals.

Three stages follow one another: a fresh start symbol if the old one occurs on a
right-hand side, nonterminals in place of terminals in longer right-hand sides,
and binary rules in place of longer ones.
-/

set_option autoImplicit false

namespace ContextFree

structure Draft where
  grammar : Grammar
  supply : Supply
  /-- The nonterminals introduced so far, in order. -/
  introduced : List Symbol
  deriving DecidableEq

namespace Draft

def ofGrammar (g : Grammar) : Draft where
  grammar := g
  supply := .avoiding g.symbols
  introduced := []

def fresh (draft : Draft) : Except Fault (Symbol × Draft) :=
  match draft.supply.next? with
  | none => .error .outOfLetters
  | some (letter, supply) =>
    .ok (letter,
      { grammar := draft.grammar.declare letter .nonterminal
        supply
        introduced := draft.introduced ++ [letter] })

def addRule (draft : Draft) (lhs : Symbol) (symbols : List Symbol) : Draft :=
  { draft with grammar := draft.grammar.addRule lhs (Rhs.ofList symbols) }

def replaceRule (draft : Draft) (rule : Rule) (symbols : List Symbol) : Draft :=
  { draft with
    grammar := (draft.grammar.removeRule rule.lhs rule.rhs).addRule rule.lhs (Rhs.ofList symbols) }

/-! ### The start symbol -/

/-- If the start symbol occurs on a right-hand side, a fresh one takes over its
right-hand sides, and the old one loses its epsilon rule. -/
def isolateStart (draft : Draft) (start : Symbol) : Except Fault Draft :=
  if draft.grammar.occursOnRhs start then do
    let (letter, draft) ← draft.fresh
    let g := draft.grammar
    let copied := g.addRules ((g.productionsOf start).map (Rule.mk letter))
    return { draft with grammar := (copied.removeRule start .epsilon).withStart letter }
  else .ok draft

/-! ### Terminals -/

/-- A nonterminal for each terminal, which derives nothing else. -/
abbrev Wrappers := List (Symbol × Symbol)

def wrapped? (g : Grammar) (lhs : Symbol) : Option Symbol :=
  match g.productionsOf lhs with
  | [rhs] => rhs.single?.filter fun s => g.terminals.contains s && decide (g.start ≠ some lhs)
  | _ => none

/-- The wrappers a grammar has already. Of two for one terminal the smaller comes
first. -/
def wrappers (g : Grammar) : Wrappers :=
  g.nonterminals.toList.filterMap fun lhs => (wrapped? g lhs).map (·, lhs)

def wrap (draft : Draft) (known : Wrappers) (terminal : Symbol) :
    Except Fault (Symbol × Draft × Wrappers) :=
  match known.find? fun entry => decide (entry.1 = terminal) with
  | some (_, wrapper) => .ok (wrapper, draft, known)
  | none => do
    let (letter, draft) ← draft.fresh
    return (letter, draft.addRule letter [terminal], known ++ [(terminal, letter)])

def wrapAll (draft : Draft) (known : Wrappers) :
    List Symbol → Except Fault (List Symbol × Draft × Wrappers)
  | [] => .ok ([], draft, known)
  | s :: rest => do
    let (head, draft, known) ←
      if draft.grammar.terminals.contains s then draft.wrap known s else .ok (s, draft, known)
    let (tail, draft, known) ← draft.wrapAll known rest
    return (head :: tail, draft, known)

def wrapRules (draft : Draft) (known : Wrappers) : List Rule → Except Fault Draft
  | [] => .ok draft
  | rule :: rest => do
    let (symbols, draft, known) ← draft.wrapAll known rule.rhs.toList
    (draft.replaceRule rule symbols).wrapRules known rest

def isMixed (g : Grammar) (rule : Rule) : Bool :=
  decide (2 ≤ rule.rhs.length) && rule.rhs.toList.any g.terminals.contains

def isolateTerminals (draft : Draft) : Except Fault Draft :=
  draft.wrapRules (wrappers draft.grammar) (draft.grammar.rules.filter (isMixed draft.grammar))

/-! ### Long right-hand sides -/

/-- The nonterminals that stand for a suffix of a right-hand side. -/
abbrev Suffixes := List (List Symbol × Symbol)

/-- A symbol for the suffix `s :: rest`: itself if nothing follows, else a
nonterminal shared by all rules with this suffix. -/
def nameSuffix (draft : Draft) (known : Suffixes) (s : Symbol) :
    List Symbol → Except Fault (Symbol × Draft × Suffixes)
  | [] => .ok (s, draft, known)
  | next :: rest => do
    let (tail, draft, known) ← draft.nameSuffix known next rest
    match known.find? fun entry => decide (entry.1 = s :: next :: rest) with
    | some (_, name) => return (name, draft, known)
    | none =>
      let (letter, draft) ← draft.fresh
      return (letter, draft.addRule letter [s, tail], known ++ [(s :: next :: rest, letter)])

def splitRules (draft : Draft) (known : Suffixes) : List Rule → Except Fault Draft
  | [] => .ok draft
  | rule :: rest =>
    match rule.rhs.toList with
    | first :: second :: more => do
      let (tail, draft, known) ← draft.nameSuffix known second more
      (draft.replaceRule rule [first, tail]).splitRules known rest
    | _ => draft.splitRules known rest

def binarize (draft : Draft) : Except Fault Draft :=
  draft.splitRules [] (draft.grammar.rules.filter fun rule => decide (2 < rule.rhs.length))

end Draft

end ContextFree
