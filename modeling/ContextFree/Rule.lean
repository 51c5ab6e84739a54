import ContextFree.Alphabet.SymbolSet

/-! Rules of a grammar: one symbol on the left, the empty string or a sequence of
symbols on the right.

The empty string is written `l`. It is a case of its own, apart from an empty
sequence: documents can hold both, and only the first one is an epsilon rule.
-/

set_option autoImplicit false

namespace ContextFree

inductive Rhs where
  | epsilon
  | sequence (symbols : List Symbol)
  deriving DecidableEq

namespace Rhs

/-- The right-hand side with the given symbols; no symbols give the empty string. -/
def ofList : List Symbol → Rhs
  | [] => .epsilon
  | head :: tail => .sequence (head :: tail)

def toList : Rhs → List Symbol
  | .epsilon => []
  | .sequence symbols => symbols

@[simp] theorem toList_ofList (symbols : List Symbol) : (ofList symbols).toList = symbols := by
  cases symbols <;> rfl

def isEpsilon : Rhs → Bool
  | .epsilon => true
  | .sequence _ => false

@[simp] theorem isEpsilon_iff {rhs : Rhs} : rhs.isEpsilon = true ↔ rhs = .epsilon := by
  cases rhs <;> simp [isEpsilon]

def single? (rhs : Rhs) : Option Symbol :=
  match rhs.toList with
  | [s] => some s
  | _ => none

theorem single?_eq_some {rhs : Rhs} {s : Symbol} : rhs.single? = some s ↔ rhs = .sequence [s] := by
  rcases rhs with _ | _ | ⟨_, _ | _⟩ <;> simp [single?, toList]

def mentions (rhs : Rhs) (s : Symbol) : Bool :=
  rhs.toList.contains s

def length (rhs : Rhs) : Nat :=
  rhs.toList.length

def within (rhs : Rhs) (set : SymbolSet) : Bool :=
  rhs.toList.all set.contains

def chars : Rhs → List Char
  | .epsilon => ['l']
  | .sequence symbols => symbols.map Symbol.toChar

def text (rhs : Rhs) : String :=
  String.ofList rhs.chars

def inspect : Rhs → String
  | .epsilon => "Epsilon"
  | .sequence symbols =>
    "Symbols([" ++ ", ".intercalate (symbols.map fun s => s.toChar.toString) ++ "])"

end Rhs

namespace Rhs

def before : Rhs → Rhs → Bool
  | _, .epsilon => false
  | .epsilon, .sequence _ => true
  | .sequence first, .sequence second => Ordered.before first second

instance : Ordered Rhs where
  before := before
  before_irrefl
    | .epsilon => rfl
    | .sequence symbols => Ordered.before_irrefl symbols
  before_trans {a b c} first second := by
    cases a <;> cases b <;> cases c <;> simp only [before, Bool.false_eq_true] at first second ⊢
    exact Ordered.before_trans first second
  before_connected a b := by
    cases a <;> cases b <;> simp [before, Ordered.before_connected]

end Rhs

structure Rule where
  lhs : Symbol
  rhs : Rhs
  deriving DecidableEq

namespace Rule

def text (rule : Rule) : String :=
  rule.lhs.toChar.toString ++ "::=" ++ rule.rhs.text

def inspect (rule : Rule) : String :=
  "CfgRule \x7b lhs: " ++ rule.lhs.toChar.toString ++ ", rhs: " ++ rule.rhs.inspect ++ " \x7d"

end Rule

instance : Ordered Rule :=
  Ordered.ofKey (fun rule => (rule.lhs, rule.rhs)) fun {a b} same => by
    cases a
    cases b
    simpa using same

theorem Rule.before_iff {a b : Rule} :
    Ordered.before a b = true ↔
      Ordered.before a.lhs b.lhs = true ∨ a.lhs = b.lhs ∧ Ordered.before a.rhs b.rhs = true :=
  Ordered.before_pair_iff

end ContextFree
