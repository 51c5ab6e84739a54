import ContextFree.Document.Grammar

/-! How documents are spelled.

The text of a list is the texts of its parts with commas between them, and no text has
blanks. What a document says, letter by letter, follows from this by unfolding.
-/

set_option autoImplicit false

namespace ContextFree

namespace Json

theorem append_commas {α : Type} {piece : α → String} {closing : String} (tail : List α → String)
    (last : tail [] = closing) (more : ∀ next rest, tail (next :: rest) = "," ++ (piece next ++ tail rest))
    (first : α) (rest : List α) :
    piece first ++ tail rest = ",".intercalate (piece first :: rest.map piece) ++ closing := by
  induction rest generalizing first with
  | nil => rw [last, List.map_nil, String.intercalate_singleton]
  | cons next rest ih =>
    rw [more, ih, List.map_cons, String.intercalate_cons_cons]
    simp only [String.append_assoc]

theorem text_append_printItems (first : Json) (rest : List Json) :
    first.text ++ String.ofList (printItems rest) = ",".intercalate (first.text :: rest.map text) ++ "]" := by
  refine append_commas (fun rest => String.ofList (printItems rest)) rfl (fun next rest => ?_) first rest
  have tail : printItems (next :: rest) = ',' :: (next.print ++ printItems rest) := rfl
  rw [tail, String.ofList_cons, String.ofList_append]
  rfl

theorem text_array (items : List Json) : (array items).text = "[" ++ ",".intercalate (items.map text) ++ "]" := by
  cases items with
  | nil => rfl
  | cons first rest =>
    have whole : (array (first :: rest)).print = '[' :: (first.print ++ printItems rest) := rfl
    rw [text, whole, String.ofList_cons, String.ofList_append, ← text, text_append_printItems, String.append_assoc]
    rfl

def memberText (member : List Char × Json) : String :=
  "\"" ++ String.ofList member.1 ++ "\":" ++ member.2.text

theorem ofList_print_member (key : List Char) (value : Json) (rest : List Char) :
    String.ofList ('"' :: key ++ '"' :: ':' :: value.print ++ rest) =
      memberText (key, value) ++ String.ofList rest := by
  have pieces : '"' :: key ++ '"' :: ':' :: value.print ++ rest =
      ['"'] ++ key ++ ['"', ':'] ++ value.print ++ rest := by simp
  rw [pieces, String.ofList_append, String.ofList_append, String.ofList_append, String.ofList_append]
  rfl

theorem text_append_printMembers (first : List Char × Json) (rest : List (List Char × Json)) :
    memberText first ++ String.ofList (printMembers rest) =
      ",".intercalate (memberText first :: rest.map memberText) ++ "\x7d" := by
  refine append_commas (fun rest => String.ofList (printMembers rest)) rfl (fun next rest => ?_) first rest
  have tail : printMembers (next :: rest) =
      ',' :: ('"' :: next.1 ++ '"' :: ':' :: next.2.print ++ printMembers rest) := rfl
  rw [tail, String.ofList_cons, ofList_print_member]
  rfl

theorem text_object (members : List (List Char × Json)) :
    (object members).text = "\x7b" ++ ",".intercalate (members.map memberText) ++ "\x7d" := by
  cases members with
  | nil => rfl
  | cons first rest =>
    have whole : (object (first :: rest)).print =
        '{' :: ('"' :: first.1 ++ '"' :: ':' :: first.2.print ++ printMembers rest) := rfl
    rw [text, whole, String.ofList_cons, ofList_print_member, text_append_printMembers, List.map_cons,
      String.append_assoc]
    rfl

theorem text_ofNat (n : Nat) : (ofNat n).text = toString n :=
  Nat.toString_eq_ofList_toDigits.symm

end Json

theorem Symbol.text_toJson (s : Symbol) : s.toJson.text = "\"" ++ s.toChar.toString ++ "\"" := by
  obtain ⟨id⟩ := s
  revert id
  decide +kernel

theorem Rhs.text_toJson_epsilon : epsilon.toJson.text = "\"Epsilon\"" := by
  decide +kernel

theorem Rhs.text_toJson_sequence (symbols : List Symbol) : (sequence symbols).toJson.text =
    "\x7b\"Symbols\":[" ++ ",".intercalate (symbols.map fun s => s.toJson.text) ++ "]\x7d" := by
  rw [toJson, Json.text_object, List.map_singleton, String.intercalate_singleton, Json.memberText,
    Json.text_array, List.map_map]
  simp only [String.append_assoc]
  rfl

example : (Rhs.sequence [⟨36⟩, ⟨28⟩]).toJson.text = "\x7b\"Symbols\":[\"a\",\"S\"]\x7d" := by
  decide +kernel

theorem PackedBits.text_toJson (bits : PackedBits) : bits.toJson.text =
    "\x7b\"bit_vec\":\x7b\"storage\":[" ++ ",".intercalate (bits.words.map fun word => toString word.toNat) ++
      "],\"nbits\":" ++ toString bits.width ++ "\x7d\x7d" := by
  have words : (bits.words.map fun word => Json.ofNat word.toNat).map Json.text =
      bits.words.map fun word => toString word.toNat := by
    rw [List.map_map]
    exact List.map_congr_left fun word _ => Json.text_ofNat word.toNat
  simp only [toJson, Json.text_object, List.map_cons, List.map_nil, String.intercalate_cons_cons,
    String.intercalate_singleton, Json.memberText, Json.text_array, words, Json.text_ofNat, String.append_assoc]
  rfl

theorem Grammar.toJsonText_eq (g : Grammar) : g.toJsonText =
    "\x7b\"nonterminals\":" ++ g.nonterminals.toJson.text ++ ",\"terminals\":" ++ g.terminals.toJson.text ++
      ",\"productions\":\x7b" ++ ",".intercalate (g.productions.entries.map fun entry =>
        entry.1.toJson.text ++ ":[" ++ ",".intercalate (entry.2.toList.map fun rhs => rhs.toJson.text) ++ "]") ++
      "\x7d,\"start\":" ++ (match g.start with | some s => s.toJson.text | none => "null") ++ "\x7d" := by
  have entry (lhs : Symbol) (set : OrderedSet Rhs) :
      Json.memberText ([lhs.toChar], .array (set.toList.map Rhs.toJson)) =
        lhs.toJson.text ++ ":[" ++ ",".intercalate (set.toList.map fun rhs => rhs.toJson.text) ++ "]" := by
    rw [Json.memberText, Json.text_array, List.map_map, Symbol.text_toJson]
    simp only [String.append_assoc]
    rfl
  have start : (startToJson g.start).text = match g.start with | some s => s.toJson.text | none => "null" := by
    cases g.start <;> rfl
  have productions : (productionsToJson g.productions).text =
      "\x7b" ++ ",".intercalate (g.productions.entries.map fun entry =>
        entry.1.toJson.text ++ ":[" ++ ",".intercalate (entry.2.toList.map fun rhs => rhs.toJson.text) ++ "]") ++
      "\x7d" := by
    rw [productionsToJson, Json.text_object, List.map_map]
    simp only [Function.comp_def, entry]
  rw [toJsonText, toJson, Json.text_object]
  simp only [List.map_cons, List.map_nil, String.intercalate_cons_cons, String.intercalate_singleton,
    Json.memberText, productions, start, String.append_assoc]
  rfl

end ContextFree
