/-! JSON values that keep the spelling of their numbers and strings.

Whether a number fits, or a string has a meaning, is left to the reader of a
value: a part of a document that nobody looks at needs only the right shape.
-/

set_option autoImplicit false

namespace ContextFree

inductive Json where
  | null
  | bool (value : Bool)
  /-- The literal as written. -/
  | number (spelling : List Char)
  /-- What stands between the quotes, with its escapes. -/
  | string (spelling : List Char)
  | array (items : List Json)
  /-- The members in order, each with the spelling of its key. -/
  | object (members : List (List Char × Json))

namespace Json

mutual

def print : Json → List Char
  | .null => ['n', 'u', 'l', 'l']
  | .bool true => ['t', 'r', 'u', 'e']
  | .bool false => ['f', 'a', 'l', 's', 'e']
  | .number spelling => spelling
  | .string spelling => '"' :: spelling ++ ['"']
  | .array [] => ['[', ']']
  | .array (first :: rest) => '[' :: first.print ++ printItems rest
  | .object [] => ['{', '}']
  | .object ((key, value) :: rest) => '{' :: '"' :: key ++ '"' :: ':' :: value.print ++ printMembers rest

/-- The items after the first one, and the closing bracket. -/
def printItems : List Json → List Char
  | [] => [']']
  | item :: rest => ',' :: item.print ++ printItems rest

def printMembers : List (List Char × Json) → List Char
  | [] => ['}']
  | (key, value) :: rest => ',' :: '"' :: key ++ '"' :: ':' :: value.print ++ printMembers rest

end

def text (value : Json) : String :=
  String.ofList value.print

def ofNat (n : Nat) : Json :=
  .number (Nat.toDigits 10 n)

def toNat? : Json → Option Nat
  | .number spelling =>
    if spelling.all Char.isDigit then some (Nat.ofDigitChars 10 spelling 0) else none
  | _ => none

end Json

end ContextFree
