import ContextFree.Alphabet.SymbolSet
import ContextFree.Json.Fields

/-! Symbol sets in documents: the words and the width of their stored form.

Any words that fit 32 bits and any width that fits 64 are a set.
-/

set_option autoImplicit false

namespace ContextFree

namespace PackedBits

def toJson (packed : PackedBits) : Json :=
  .object [("bit_vec".toList, .object
    [("storage".toList, .array (packed.words.map fun word => .ofNat word.toNat)),
      ("nbits".toList, .ofNat packed.width)])]

def wordOfJson? (value : Json) : Option (BitVec 32) :=
  value.toNat?.bind fun n => if n < 0x100000000 then some (BitVec.ofNat 32 n) else none

def widthOfJson? (value : Json) : Option Nat :=
  value.toNat?.bind fun n => if n < 0x10000000000000000 then some n else none

def ofJson? (value : Json) : Option PackedBits := do
  let [some bits] ← value.fields? ["bit_vec"] | none
  let [some storage, some nbits] ← bits.fields? ["storage", "nbits"] | none
  let items ← storage.toItems?
  let words ← items.mapM wordOfJson?
  let width ← widthOfJson? nbits
  return ⟨words, width⟩

end PackedBits

namespace SymbolSet

def toJson (set : SymbolSet) : Json :=
  set.pack.toJson

def ofJson? (value : Json) : Option SymbolSet :=
  (PackedBits.ofJson? value).map unpack

end SymbolSet

end ContextFree
