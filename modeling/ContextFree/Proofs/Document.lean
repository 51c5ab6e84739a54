import ContextFree.Document.Grammar
import ContextFree.Proofs.Json
import ContextFree.Proofs.Validity

/-! What is saved as a document is read back.

This holds for every grammar, valid or not: empty production sets, empty sequences,
undeclared symbols and stray bits of a stored set are kept.
-/

set_option autoImplicit false

namespace ContextFree

theorem mapM_map_eq_some {α β : Type} {encode : α → β} {decode : β → Option α} {values : List α}
    (back : ∀ value ∈ values, decode (encode value) = some value) :
    (values.map encode).mapM decode = some values := by
  induction values with
  | nil => rfl
  | cons value rest ih =>
    obtain ⟨first, others⟩ := List.forall_mem_cons.mp back
    simp [List.mapM_cons, first, ih others]

theorem OrderedSet.ofList_toList {α : Type} [Ordered α] (set : OrderedSet α) : ofList set.toList = set :=
  ext_mem fun _ => mem_ofList

theorem OrderedMap.get?_foldl_insert {κ ν : Type} [Ordered κ] [DecidableEq κ] {entries : List (κ × ν)}
    (ascending : entries.Pairwise fun a b => Ordered.before a.1 b.1 = true) (map : OrderedMap κ ν) (key : κ) :
    (entries.foldl (fun map entry => map.insert entry.1 entry.2) map).get? key =
      (findEntry key entries).or (map.get? key) := by
  induction entries generalizing map with
  | nil => rfl
  | cons entry rest ih =>
    obtain ⟨first, others⟩ := List.pairwise_cons.mp ascending
    rw [List.foldl_cons, ih others, get?_insert, findEntry]
    by_cases same : key = entry.1
    · rw [if_pos same, if_pos same, same, findEntry_eq_none first]
      rfl
    · rw [if_neg same, if_neg same]

theorem OrderedMap.ofList_entries {κ ν : Type} [Ordered κ] [DecidableEq κ] (map : OrderedMap κ ν) :
    ofList map.entries = map := by
  apply ext_get?
  intro key
  rw [ofList, get?_foldl_insert map.ascending, get?_empty, Option.or_none]
  rfl

namespace Json

theorem verbatim_of_keys {members : List (List Char × Json)} {keys : List (List Char)}
    (same : members.map Prod.fst = keys) (all : ∀ key ∈ keys, Verbatim key) :
    ∀ member ∈ members, Verbatim member.1 := by
  intro member inside
  apply all
  rw [← same]
  exact List.mem_map_of_mem inside

theorem toMembers?_object {members : List (List Char × Json)}
    (keys : ∀ member ∈ members, Verbatim member.1) : (object members).toMembers? = some members := by
  have read := @mapM_map_eq_some _ _ id (fun member => (unescape member.1).map (·, member.2)) members
    fun member inside => by simp [unescape_of_verbatim (keys member inside)]
  rwa [List.map_id] at read

theorem fields?_object {members : List (List Char × Json)} (keys : ∀ member ∈ members, Verbatim member.1)
    (names : List String) : (object members).fields? names = names.mapM (field? members) := by
  simp only [fields?, toMembers?_object keys, Option.bind_some]

theorem toNat?_ofNat (n : Nat) : (ofNat n).toNat? = some n := by
  have digits : (Nat.toDigits 10 n).all Char.isDigit = true :=
    List.all_eq_true.mpr fun c member => Nat.isDigit_of_mem_toDigits (by decide) (by decide) member
  rw [ofNat, toNat?, if_pos digits, Nat.ofDigitChars_ten_toDigits]

/-- A value that is plain and decoded as it was encoded survives as text. -/
theorem decode_text {α : Type} {decode : Json → Option α} {value : α} {encoded : Json} (plain : Plain encoded)
    (back : decode encoded = some value) : (parse? encoded.text.toList).bind decode = some value := by
  rw [text, String.toList_ofList, parse?_print plain, Option.bind_some, back]

end Json

/-! ### Symbols and right-hand sides -/

namespace Symbol

theorem verbatim_toChar (s : Symbol) : Json.Verbatim [s.toChar] := by
  obtain ⟨id⟩ := s
  revert id
  decide

theorem plain_toJson (s : Symbol) : s.toJson.Plain :=
  .string s.verbatim_toChar

theorem ofJson?_toJson (s : Symbol) : ofJson? s.toJson = some s := by
  rw [ofJson?, toJson, Json.toText?, Json.unescape_of_verbatim s.verbatim_toChar, Option.bind_some, ofText?,
    ofChar?_toChar]

end Symbol

namespace Rhs

theorem verbatim_key (symbols : List Symbol) :
    ∀ member ∈ [("Symbols".toList, Json.array (symbols.map Symbol.toJson))], Json.Verbatim member.1 :=
  Json.verbatim_of_keys (show _ = ["Symbols".toList] from rfl) (by decide)

theorem plain_toJson (rhs : Rhs) : rhs.toJson.Plain := by
  cases rhs with
  | epsilon => exact .string (by decide)
  | sequence symbols =>
    have items : (Json.array (symbols.map Symbol.toJson)).Plain :=
      .array (List.forall_mem_map.mpr fun s _ => s.plain_toJson)
    exact .object (verbatim_key symbols) (List.forall_mem_singleton.mpr items)

theorem ofJson?_toJson (rhs : Rhs) : ofJson? rhs.toJson = some rhs := by
  cases rhs with
  | epsilon => decide +kernel
  | sequence symbols =>
    have items : (symbols.map Symbol.toJson).mapM Symbol.ofJson? = some symbols :=
      mapM_map_eq_some fun s _ => s.ofJson?_toJson
    have members := Json.toMembers?_object (verbatim_key symbols)
    have other : "Symbols".toList ≠ "Epsilon".toList := by decide
    simp only [toJson, ofJson?, members, ofMember?, if_neg other, if_pos, Json.toItems?, Option.bind_some,
      items, Option.map_some]

end Rhs

/-! ### Symbol sets -/

namespace PackedBits

def content (bits : PackedBits) : List (List Char × Json) :=
  [("storage".toList, .array (bits.words.map fun word => .ofNat word.toNat)),
    ("nbits".toList, .ofNat bits.width)]

theorem verbatim_content (bits : PackedBits) : ∀ member ∈ bits.content, Json.Verbatim member.1 :=
  Json.verbatim_of_keys (show _ = ["storage".toList, "nbits".toList] from rfl) (by decide)

theorem verbatim_key (content : Json) : ∀ member ∈ [("bit_vec".toList, content)], Json.Verbatim member.1 :=
  Json.verbatim_of_keys (show _ = ["bit_vec".toList] from rfl) (by decide)

theorem plain_toJson (bits : PackedBits) : bits.toJson.Plain := by
  have words : (Json.array (bits.words.map fun word => .ofNat word.toNat)).Plain :=
    .array (List.forall_mem_map.mpr fun word _ => .nat word.toNat)
  have content : (Json.object bits.content).Plain :=
    .object bits.verbatim_content
      (List.forall_mem_cons.mpr ⟨words, List.forall_mem_singleton.mpr (.nat bits.width)⟩)
  exact .object (verbatim_key _) (List.forall_mem_singleton.mpr content)

theorem wordOfJson?_ofNat (word : BitVec 32) : wordOfJson? (.ofNat word.toNat) = some word := by
  rw [wordOfJson?, Json.toNat?_ofNat, Option.bind_some, if_pos word.isLt, BitVec.ofNat_toNat, BitVec.setWidth_eq]

theorem widthOfJson?_ofNat {width : Nat} (narrow : width < 0x10000000000000000) :
    widthOfJson? (.ofNat width) = some width := by
  rw [widthOfJson?, Json.toNat?_ofNat, Option.bind_some, if_pos narrow]

theorem ofJson?_toJson {bits : PackedBits} (narrow : bits.width < 0x10000000000000000) :
    ofJson? bits.toJson = some bits := by
  have outer : bits.toJson.fields? ["bit_vec"] = some [some (.object bits.content)] := by
    rw [toJson, Json.fields?_object (verbatim_key _)]
    rfl
  have inner : (Json.object bits.content).fields? ["storage", "nbits"] =
      some [some (.array (bits.words.map fun word => .ofNat word.toNat)), some (.ofNat bits.width)] := by
    rw [Json.fields?_object bits.verbatim_content]
    rfl
  have words : (bits.words.map fun word => Json.ofNat word.toNat).mapM wordOfJson? = some bits.words :=
    mapM_map_eq_some fun word _ => wordOfJson?_ofNat word
  simp only [ofJson?, outer, inner, Json.toItems?, words, widthOfJson?_ofNat narrow, Option.bind_eq_bind,
    Option.bind_some]
  rfl

end PackedBits

namespace SymbolSet

/-- The set is what words of the given width hold. -/
def StoredIn (set : SymbolSet) (width : Nat) : Prop :=
  ∃ words, set = unpack ⟨words, width⟩

theorem StoredIn.pack_eq {set : SymbolSet} {width : Nat} (stored : set.StoredIn width) :
    set.pack.width = width ∧ unpack set.pack = set := by
  obtain ⟨words, rfl⟩ := stored
  rw [pack_unpack]
  exact ⟨rfl, rfl⟩

theorem storedIn_of_blank {set : SymbolSet} (blank : set.frame = .blank) : set.StoredIn 62 := by
  have width : set.pack.width = 62 := by
    rw [pack, blank]
    rfl
  refine ⟨set.pack.words, ?_⟩
  rw [← width]
  exact (unpack_pack (blank.trans PackedBits.blank_eq_spare)).symm

theorem plain_toJson (set : SymbolSet) : set.toJson.Plain :=
  set.pack.plain_toJson

theorem ofJson?_toJson {set : SymbolSet} {width : Nat} (stored : set.StoredIn width)
    (narrow : width < 0x10000000000000000) : ofJson? set.toJson = some set := by
  obtain ⟨same, unpacked⟩ := stored.pack_eq
  rw [ofJson?, toJson, PackedBits.ofJson?_toJson (same ▸ narrow), Option.map_some, unpacked]

end SymbolSet

/-! ### Grammars -/

namespace Grammar

theorem verbatim_lhs (productions : OrderedMap Symbol (OrderedSet Rhs)) :
    ∀ member ∈ productions.entries.map fun entry =>
      ([entry.1.toChar], Json.array (entry.2.toList.map Rhs.toJson)), Json.Verbatim member.1 :=
  List.forall_mem_map.mpr fun entry _ => entry.1.verbatim_toChar

theorem plain_productionsToJson (productions : OrderedMap Symbol (OrderedSet Rhs)) :
    (productionsToJson productions).Plain := by
  refine .object (verbatim_lhs productions) (List.forall_mem_map.mpr fun entry _ => .array ?_)
  exact List.forall_mem_map.mpr fun rhs _ => rhs.plain_toJson

theorem plain_startToJson (start : Option Symbol) : (startToJson start).Plain := by
  cases start with
  | none => exact .null
  | some s => exact s.plain_toJson

theorem entryOfMember?_eq (lhs : Symbol) (set : OrderedSet Rhs) :
    entryOfMember? ([lhs.toChar], .array (set.toList.map Rhs.toJson)) = some (lhs, set) := by
  have items : (set.toList.map Rhs.toJson).mapM Rhs.ofJson? = some set.toList :=
    mapM_map_eq_some fun rhs _ => rhs.ofJson?_toJson
  simp [entryOfMember?, Symbol.ofText?, Json.toItems?, items, OrderedSet.ofList_toList]

theorem productionsOfJson?_toJson (productions : OrderedMap Symbol (OrderedSet Rhs)) :
    productionsOfJson? (productionsToJson productions) = some productions := by
  have members := Json.toMembers?_object (verbatim_lhs productions)
  have entries : (productions.entries.map fun entry =>
      ([entry.1.toChar], Json.array (entry.2.toList.map Rhs.toJson))).mapM entryOfMember? =
      some productions.entries :=
    mapM_map_eq_some fun entry _ => entryOfMember?_eq entry.1 entry.2
  simp [productionsOfJson?, productionsToJson, members, entries, OrderedMap.ofList_entries]

theorem startOfJson?_toJson (start : Option Symbol) : startOfJson? (some (startToJson start)) = some start := by
  cases start with
  | none => rfl
  | some s =>
    have read := s.ofJson?_toJson
    simp only [startToJson, Symbol.toJson] at read ⊢
    rw [startOfJson?, read]
    · rfl
    · intro impossible
      cases impossible

theorem verbatim_fields (nonterminals terminals productions start : Json) :
    ∀ member ∈ [("nonterminals".toList, nonterminals), ("terminals".toList, terminals),
      ("productions".toList, productions), ("start".toList, start)], Json.Verbatim member.1 :=
  Json.verbatim_of_keys
    (show _ = ["nonterminals".toList, "terminals".toList, "productions".toList, "start".toList] from rfl)
    (by decide)

theorem plain_toJson (g : Grammar) : g.toJson.Plain := by
  refine .object (verbatim_fields _ _ _ _) ?_
  simp only [List.forall_mem_cons]
  exact ⟨g.nonterminals.plain_toJson, g.terminals.plain_toJson, plain_productionsToJson _,
    plain_startToJson _, by simp⟩

theorem ofJson?_toJson {g : Grammar} {width other : Nat} (nonterminals : g.nonterminals.StoredIn width)
    (terminals : g.terminals.StoredIn other) (narrow : width < 0x10000000000000000 ∧ other < 0x10000000000000000) :
    ofJson? g.toJson = some g := by
  have fields : g.toJson.fields? ["nonterminals", "terminals", "productions", "start"] =
      some [some g.nonterminals.toJson, some g.terminals.toJson, some (productionsToJson g.productions),
        some (startToJson g.start)] := by
    rw [toJson, Json.fields?_object (verbatim_fields _ _ _ _)]
    rfl
  simp only [ofJson?, fields, Option.bind_eq_bind, Option.bind_some,
    SymbolSet.ofJson?_toJson nonterminals narrow.1, SymbolSet.ofJson?_toJson terminals narrow.2,
    productionsOfJson?_toJson, startOfJson?_toJson]
  rfl

/-- Grammars, right-hand sides, symbols and symbol sets are read back from the text
they are saved as. Sets have any words, and the 62 bits of the alphabet or any other
width that fits 64 bits. -/
theorem documents_read_back :
    (∀ (g : Grammar) {width other : Nat}, g.nonterminals.StoredIn width → g.terminals.StoredIn other →
      width < 0x10000000000000000 → other < 0x10000000000000000 → ofJsonText? g.toJsonText = some g) ∧
      (∀ rhs : Rhs, (Json.parse? rhs.toJson.text.toList).bind Rhs.ofJson? = some rhs) ∧
        (∀ s : Symbol, (Json.parse? s.toJson.text.toList).bind Symbol.ofJson? = some s) ∧
          ∀ (set : SymbolSet) {width : Nat}, set.StoredIn width → width < 0x10000000000000000 →
            (Json.parse? set.toJson.text.toList).bind SymbolSet.ofJson? = some set := by
  refine ⟨fun g _ _ nonterminals terminals narrow small => ?_, fun rhs => ?_, fun s => ?_,
    fun set _ stored narrow => ?_⟩
  · exact Json.decode_text g.plain_toJson (ofJson?_toJson nonterminals terminals ⟨narrow, small⟩)
  · exact Json.decode_text rhs.plain_toJson rhs.ofJson?_toJson
  · exact Json.decode_text s.plain_toJson s.ofJson?_toJson
  · exact Json.decode_text set.plain_toJson (SymbolSet.ofJson?_toJson stored narrow)

/-- The symbol `S` has an empty production set and `A`, which is not declared, an empty
sequence. The two bits past the alphabet are set. -/
def stray : Grammar where
  nonterminals := .unpack ⟨[0x10000000#32, 0xC0000000#32], 62⟩
  terminals := .empty
  productions := .ofList [(⟨28⟩, .empty), (⟨10⟩, .ofList [.sequence []])]
  start := none

theorem documents_read_back_stray :
    ofJsonText? stray.toJsonText = some stray ∧
      (Json.parse? stray.nonterminals.toJson.text.toList).bind SymbolSet.ofJson? = some stray.nonterminals := by
  have nonterminals : stray.nonterminals.StoredIn 62 := ⟨_, rfl⟩
  have terminals : stray.terminals.StoredIn 62 := SymbolSet.storedIn_of_blank rfl
  obtain ⟨grammars, _, _, sets⟩ := documents_read_back
  exact ⟨grammars stray nonterminals terminals (by decide) (by decide),
    sets stray.nonterminals nonterminals (by decide)⟩

end Grammar

end ContextFree
