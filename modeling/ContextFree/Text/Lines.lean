/-! Cutting a text into lines and a line at its first `::=`. -/

set_option autoImplicit false

namespace ContextFree.Text

/-- The lines of a text. A line ends at a newline, together with one carriage
return right before it; the last line needs no end. -/
def lines : List Char → List (List Char)
  | [] => []
  | '\n' :: rest => [] :: lines rest
  | '\r' :: '\n' :: rest => [] :: lines rest
  | c :: rest =>
    match lines rest with
    | [] => [[c]]
    | line :: more => (c :: line) :: more

def splitAtDefines : List Char → Option (List Char × List Char)
  | [] => none
  | ':' :: ':' :: '=' :: rest => some ([], rest)
  | c :: rest => (splitAtDefines rest).map fun parts => (c :: parts.1, parts.2)

end ContextFree.Text
