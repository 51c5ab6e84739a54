import ContextFree.Document.Packed
import ContextFree.Grammar.Basic
import ContextFree.Json.Reader

/-! Symbols, right-hand sides and grammars as JSON documents.

A symbol is a string of one character. The empty string is `"Epsilon"`, a
sequence is an object with the one key `Symbols`. A grammar lists its two symbol
sets, its productions by left-hand side and its start symbol; nothing is asked
of how they fit together.
-/

set_option autoImplicit false

namespace ContextFree

namespace Symbol

def toJson (s : Symbol) : Json :=
  .string [s.toChar]

def ofText? : List Char → Option Symbol
  | [c] => ofChar? c
  | _ => none

def ofJson? (value : Json) : Option Symbol :=
  value.toText?.bind ofText?

end Symbol

namespace Rhs

def toJson : Rhs → Json
  | .epsilon => .string "Epsilon".toList
  | .sequence symbols => .object [("Symbols".toList, .array (symbols.map Symbol.toJson))]

def ofMember? (key : List Char) (value : Json) : Option Rhs :=
  if key = "Epsilon".toList then
    match value with
    | .null => some .epsilon
    | _ => none
  else if key = "Symbols".toList then
    value.toItems?.bind fun items => (items.mapM Symbol.ofJson?).map .sequence
  else none

/-- The empty string also has the form of an object, with the content `null`. -/
def ofJson? (value : Json) : Option Rhs :=
  match value with
  | .string spelling =>
    if Json.unescape spelling = some "Epsilon".toList then some .epsilon else none
  | value =>
    match value.toMembers? with
    | some [(key, content)] => ofMember? key content
    | _ => none

end Rhs

namespace Grammar

def productionsToJson (productions : OrderedMap Symbol (OrderedSet Rhs)) : Json :=
  .object (productions.entries.map fun entry =>
    ([entry.1.toChar], .array (entry.2.toList.map Rhs.toJson)))

def startToJson : Option Symbol → Json
  | some s => s.toJson
  | none => .null

def toJson (g : Grammar) : Json :=
  .object
    [("nonterminals".toList, g.nonterminals.toJson),
      ("terminals".toList, g.terminals.toJson),
      ("productions".toList, productionsToJson g.productions),
      ("start".toList, startToJson g.start)]

def entryOfMember? (member : List Char × Json) : Option (Symbol × OrderedSet Rhs) := do
  let lhs ← Symbol.ofText? member.1
  let items ← member.2.toItems?
  let rhs ← items.mapM Rhs.ofJson?
  return (lhs, .ofList rhs)

/-- Of a repeated left-hand side the last set counts. -/
def productionsOfJson? (value : Json) : Option (OrderedMap Symbol (OrderedSet Rhs)) := do
  let members ← value.toMembers?
  let entries ← members.mapM entryOfMember?
  return .ofList entries

/-- A start symbol that is left out is none. -/
def startOfJson? : Option Json → Option (Option Symbol)
  | none | some .null => some none
  | some value => (Symbol.ofJson? value).map some

def ofJson? (value : Json) : Option Grammar := do
  let [some nonterminals, some terminals, some productions, start] ←
    value.fields? ["nonterminals", "terminals", "productions", "start"] | none
  let nonterminals ← SymbolSet.ofJson? nonterminals
  let terminals ← SymbolSet.ofJson? terminals
  let productions ← productionsOfJson? productions
  let start ← startOfJson? start
  return { nonterminals, terminals, productions, start }

def toJsonText (g : Grammar) : String :=
  g.toJson.text

def ofJsonText? (text : String) : Option Grammar :=
  (Json.parse? text.toList).bind ofJson?

end Grammar

end ContextFree
