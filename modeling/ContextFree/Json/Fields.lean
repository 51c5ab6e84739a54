import ContextFree.Json.StringLiteral
import ContextFree.Json.Value

/-! Looking up the fields of a record in a JSON value.

A record is an object, or an array that lists all its fields in order. In an
object unknown keys are skipped, and a known key stands at most once.
-/

set_option autoImplicit false

namespace ContextFree.Json

def toText? : Json → Option (List Char)
  | .string spelling => unescape spelling
  | _ => none

def toItems? : Json → Option (List Json)
  | .array items => some items
  | _ => none

def toMembers? : Json → Option (List (List Char × Json))
  | .object members => members.mapM fun member => (unescape member.1).map (·, member.2)
  | _ => none

/-- The value under a key that stands at most once. -/
def field? (members : List (List Char × Json)) (name : String) : Option (Option Json) :=
  match members.filter fun member => decide (member.1 = name.toList) with
  | [] => some none
  | [member] => some (some member.2)
  | _ => none

def fields? (value : Json) (names : List String) : Option (List (Option Json)) :=
  match value with
  | .array items => if items.length = names.length then some (items.map some) else none
  | value => value.toMembers?.bind fun members => names.mapM (field? members)

end ContextFree.Json
