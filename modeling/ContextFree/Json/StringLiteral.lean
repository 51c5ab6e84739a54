/-! String literals of JSON.

Reading a literal checks the form of its escapes and keeps its spelling. Its
meaning is a second step, which also asks that surrogates come in pairs.
-/

set_option autoImplicit false

namespace ContextFree.Json

def hexDigit? (c : Char) : Option Nat :=
  if c.isDigit then some (c.toNat - 48)
  else if 97 ≤ c.toNat ∧ c.toNat ≤ 102 then some (c.toNat - 87)
  else if 65 ≤ c.toNat ∧ c.toNat ≤ 70 then some (c.toNat - 55)
  else none

def hexUnit? (a b c d : Char) : Option Nat := do
  let a ← hexDigit? a
  let b ← hexDigit? b
  let c ← hexDigit? c
  let d ← hexDigit? d
  return ((a * 16 + b) * 16 + c) * 16 + d

def shortEscape? : Char → Option Char
  | '"' => some '"'
  | '\\' => some '\\'
  | '/' => some '/'
  | 'b' => some (Char.ofNat 8)
  | 'f' => some (Char.ofNat 12)
  | 'n' => some '\n'
  | 'r' => some '\r'
  | 't' => some '\t'
  | _ => none

/-- Read a literal after its opening quote: its spelling and what follows. -/
def readString : List Char → Option (List Char × List Char)
  | [] => none
  | '"' :: rest => some ([], rest)
  | '\\' :: 'u' :: a :: b :: c :: d :: rest => do
    let _ ← hexUnit? a b c d
    let (spelling, rest) ← readString rest
    return ('\\' :: 'u' :: a :: b :: c :: d :: spelling, rest)
  | '\\' :: e :: rest => do
    let _ ← shortEscape? e
    let (spelling, rest) ← readString rest
    return ('\\' :: e :: spelling, rest)
  | c :: rest =>
    if c.toNat < 32 then none
    else do
      let (spelling, rest) ← readString rest
      return (c :: spelling, rest)

def isHighSurrogate (unit : Nat) : Bool :=
  decide (0xD800 ≤ unit) && decide (unit < 0xDC00)

def isLowSurrogate (unit : Nat) : Bool :=
  decide (0xDC00 ≤ unit) && decide (unit < 0xE000)

/-- The code points and UTF-16 units a spelling lists, one for each character or
escape. -/
def unescapeUnits : List Char → Option (List Nat)
  | [] => some []
  | '\\' :: 'u' :: a :: b :: c :: d :: rest => do
    let unit ← hexUnit? a b c d
    let units ← unescapeUnits rest
    return unit :: units
  | '\\' :: e :: rest => do
    let c ← shortEscape? e
    let units ← unescapeUnits rest
    return c.toNat :: units
  | c :: rest => do
    let units ← unescapeUnits rest
    return c.toNat :: units

/-- Join surrogates to characters. One without its partner is no text. -/
def joinUnits : List Nat → Option (List Char)
  | [] => some []
  | unit :: rest =>
    if isHighSurrogate unit then
      match rest with
      | low :: rest =>
        if isLowSurrogate low then
          (joinUnits rest).map
            (Char.ofNat (0x10000 + (unit - 0xD800) * 0x400 + (low - 0xDC00)) :: ·)
        else none
      | [] => none
    else if isLowSurrogate unit then none
    else (joinUnits rest).map (Char.ofNat unit :: ·)

def unescape (spelling : List Char) : Option (List Char) :=
  (unescapeUnits spelling).bind joinUnits

end ContextFree.Json
