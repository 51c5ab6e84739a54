import ContextFree.Json.Reader

/-! Compact JSON text is read back.

A plain value has natural numbers only, and strings in which every character stands
for itself. Its compact text is read as this value, whatever delimiter follows: each
value gives back what stands behind it.
-/

set_option autoImplicit false

namespace ContextFree.Json

/-! ### Strings -/

/-- Every character may stand for itself in a string literal. -/
def Verbatim (spelling : List Char) : Prop :=
  ∀ c ∈ spelling, c ≠ '"' ∧ c ≠ '\\' ∧ 32 ≤ c.toNat

instance (spelling : List Char) : Decidable (Verbatim spelling) :=
  List.decidableBAll _ spelling

theorem verbatim_cons {c : Char} {spelling : List Char} :
    Verbatim (c :: spelling) ↔ (c ≠ '"' ∧ c ≠ '\\' ∧ 32 ≤ c.toNat) ∧ Verbatim spelling := by
  simp only [Verbatim, List.forall_mem_cons]

theorem readString_append {spelling : List Char} (verbatim : Verbatim spelling) (rest : List Char) :
    readString (spelling ++ '"' :: rest) = some (spelling, rest) := by
  induction spelling with
  | nil => simp [readString]
  | cons c spelling ih =>
    obtain ⟨⟨_, backslash, visible⟩, others⟩ := verbatim_cons.mp verbatim
    have first : ¬ c.toNat < 32 := by omega
    simp [readString, backslash, first, ih others]

theorem unescapeUnits_of_verbatim {spelling : List Char} (verbatim : Verbatim spelling) :
    unescapeUnits spelling = some (spelling.map Char.toNat) := by
  induction spelling with
  | nil => rfl
  | cons c spelling ih =>
    obtain ⟨⟨_, backslash, _⟩, others⟩ := verbatim_cons.mp verbatim
    simp [unescapeUnits, backslash, ih others]

theorem joinUnits_map_toNat (text : List Char) : joinUnits (text.map Char.toNat) = some text := by
  -- no character is a surrogate
  induction text with
  | nil => rfl
  | cons c text ih =>
    have single : isHighSurrogate c.toNat = false ∧ isLowSurrogate c.toNat = false := by
      have valid : c.toNat < 0xD800 ∨ 0xDFFF < c.toNat ∧ c.toNat < 0x110000 := c.valid
      simp only [isHighSurrogate, isLowSurrogate, Bool.and_eq_false_iff, decide_eq_false_iff_not]
      omega
    rw [List.map_cons]
    unfold joinUnits
    simp [single, ih]

theorem unescape_of_verbatim {spelling : List Char} (verbatim : Verbatim spelling) :
    unescape spelling = some spelling := by
  rw [unescape, unescapeUnits_of_verbatim verbatim, Option.bind_some, joinUnits_map_toNat]

/-! ### Numbers -/

/-- The rest is empty or starts with a delimiter, so no number goes on in it. -/
def Ends (rest : List Char) : Prop :=
  ∀ c tail, rest = c :: tail → c = ',' ∨ c = ']' ∨ c = '}'

theorem ends_nil : Ends [] := by
  intro c tail impossible
  cases impossible

theorem ends_cons {c : Char} {tail : List Char} (delimiter : c = ',' ∨ c = ']' ∨ c = '}') :
    Ends (c :: tail) := by
  intro d rest same
  cases same
  exact delimiter

theorem Ends.cases {rest : List Char} (ends : Ends rest) :
    rest = [] ∨ ∃ tail, rest = ',' :: tail ∨ rest = ']' :: tail ∨ rest = '}' :: tail := by
  cases rest with
  | nil => exact .inl rfl
  | cons c tail =>
    right
    refine ⟨tail, ?_⟩
    rcases ends c tail rfl with rfl | rfl | rfl <;> simp

theorem exists_toDigits_eq_cons (n : Nat) : ∃ d rest, Nat.toDigits 10 n = d :: rest ∧ d.isDigit = true := by
  obtain ⟨d, rest, digits⟩ := List.exists_cons_of_ne_nil (Nat.toDigits_ne_nil : Nat.toDigits 10 n ≠ [])
  have first : d ∈ Nat.toDigits 10 n := digits ▸ List.mem_cons_self
  exact ⟨d, rest, digits, Nat.isDigit_of_mem_toDigits (by decide) (by decide) first⟩

theorem ne_of_isDigit {d c : Char} (digit : d.isDigit = true) (other : c.isDigit = false) : d ≠ c := by
  rintro rfl
  simp [digit] at other

theorem toDigits_ne_zero_cons {n : Nat} (positive : n ≠ 0) (tail : List Char) :
    Nat.toDigits 10 n ≠ '0' :: tail := by
  induction n using Nat.strongRecOn generalizing tail with
  | ind n ih =>
    by_cases small : n < 10
    · rw [Nat.toDigits_of_lt_base small]
      have digit : ∀ d < 10, d ≠ 0 → Nat.digitChar d ≠ '0' := by decide
      intro same
      exact digit n small positive (List.cons.inj same).1
    · rw [Nat.toDigits_of_base_le (by decide) (by omega)]
      obtain ⟨d, rest, digits, _⟩ := exists_toDigits_eq_cons (n / 10)
      rw [digits]
      intro same
      have zero : d = '0' := (List.cons.inj same).1
      rw [zero] at digits
      exact ih (n / 10) (by omega) (by omega) rest digits

theorem readDigits_append {digits rest : List Char} (all : ∀ c ∈ digits, c.isDigit = true)
    (filled : digits ≠ []) (ends : Ends rest) : readDigits (digits ++ rest) = some (digits, rest) := by
  have stop : rest.takeWhile Char.isDigit = [] ∧ rest.dropWhile Char.isDigit = rest := by
    rcases ends.cases with rfl | ⟨tail, rfl | rfl | rfl⟩ <;> simp
  have front : (digits ++ rest).takeWhile Char.isDigit = digits := by
    rw [List.takeWhile_append_of_pos all, stop.1, List.append_nil]
  have back : (digits ++ rest).dropWhile Char.isDigit = rest := by
    rw [List.dropWhile_append_of_pos all, stop.2]
  rw [readDigits, front, back]
  cases digits with
  | nil => exact absurd rfl filled
  | cons => rfl

theorem readInteger_append (n : Nat) {rest : List Char} (ends : Ends rest) :
    readInteger (Nat.toDigits 10 n ++ rest) = some (Nat.toDigits 10 n, rest) := by
  by_cases zero : n = 0
  · subst zero
    rw [Nat.toDigits_zero]
    rcases ends.cases with rfl | ⟨tail, rfl | rfl | rfl⟩ <;> rfl
  · have digits : readDigits (Nat.toDigits 10 n ++ rest) = some (Nat.toDigits 10 n, rest) :=
      readDigits_append (fun c member => Nat.isDigit_of_mem_toDigits (by decide) (by decide) member)
        Nat.toDigits_ne_nil ends
    unfold readInteger
    split
    · rename_i tail leading
      obtain ⟨d, more, first, _⟩ := exists_toDigits_eq_cons n
      rw [first] at leading
      have same : d = '0' := (List.cons.inj leading).1
      rw [same] at first
      exact absurd first (toDigits_ne_zero_cons zero more)
    · exact digits

theorem readNumber_append (n : Nat) {rest : List Char} (ends : Ends rest) :
    readNumber (Nat.toDigits 10 n ++ rest) = some (Nat.toDigits 10 n, rest) := by
  have minus : readMinus (Nat.toDigits 10 n ++ rest) = ([], Nat.toDigits 10 n ++ rest) := by
    obtain ⟨d, more, digits, digit⟩ := exists_toDigits_eq_cons n
    have unsigned : d ≠ '-' := ne_of_isDigit digit (by decide)
    simp [digits, readMinus, unsigned]
  have fraction : readFraction rest = some ([], rest) := by
    rcases ends.cases with rfl | ⟨tail, rfl | rfl | rfl⟩ <;> rfl
  have exponent : readExponent rest = some ([], rest) := by
    rcases ends.cases with rfl | ⟨tail, rfl | rfl | rfl⟩ <;> simp [readExponent]
  simp [readNumber, minus, readInteger_append n ends, fraction, exponent]

/-! ### Values -/

/-- Numbers are natural, and strings stand for themselves. -/
inductive Plain : Json → Prop where
  | null : Plain .null
  | bool (value : Bool) : Plain (.bool value)
  | nat (n : Nat) : Plain (.ofNat n)
  | string {spelling : List Char} : Verbatim spelling → Plain (.string spelling)
  | array {items : List Json} : (∀ item ∈ items, Plain item) → Plain (.array items)
  | object {members : List (List Char × Json)} : (∀ member ∈ members, Verbatim member.1) →
      (∀ member ∈ members, Plain member.2) → Plain (.object members)

/-- The text starts with a character that no list ends with, and with no blank. -/
def Opens (cs : List Char) : Prop :=
  ∃ c rest, cs = c :: rest ∧ isBlank c = false ∧ c ≠ ']'

theorem Plain.opens {value : Json} (plain : Plain value) : Opens value.print := by
  cases plain with
  | null => exact ⟨'n', _, rfl, by decide, by decide⟩
  | bool value =>
    cases value with
    | true => exact ⟨'t', _, rfl, by decide, by decide⟩
    | false => exact ⟨'f', _, rfl, by decide, by decide⟩
  | nat n =>
    obtain ⟨d, rest, digits, digit⟩ := exists_toDigits_eq_cons n
    refine ⟨d, rest, by rw [ofNat, print, digits], ?_, ne_of_isDigit digit (by decide)⟩
    have space : d ≠ ' ' := ne_of_isDigit digit (by decide)
    have newline : d ≠ '\n' := ne_of_isDigit digit (by decide)
    have tab : d ≠ '\t' := ne_of_isDigit digit (by decide)
    have carriage : d ≠ '\r' := ne_of_isDigit digit (by decide)
    simp [isBlank, space, newline, tab, carriage]
  | string _ => exact ⟨'"', _, rfl, by decide, by decide⟩
  | @array items _ =>
    cases items with
    | nil => exact ⟨'[', _, rfl, by decide, by decide⟩
    | cons item rest => exact ⟨'[', _, rfl, by decide, by decide⟩
  | @object members _ _ =>
    cases members with
    | nil => exact ⟨'{', _, rfl, by decide, by decide⟩
    | cons member rest => exact ⟨'{', _, rfl, by decide, by decide⟩

theorem Opens.skipBlanks_append {cs : List Char} (opens : Opens cs) (rest : List Char) :
    skipBlanks (cs ++ rest) = cs ++ rest := by
  obtain ⟨c, tail, rfl, visible, _⟩ := opens
  simp [skipBlanks, visible]

/-- The value is read from its text, given fuel for every character. -/
def Reads (value : Json) : Prop :=
  ∀ fuel rest, value.print.length ≤ fuel → Ends rest →
    readValue fuel (value.print ++ rest) = some (value, rest)

theorem ends_printItems (items : List Json) (rest : List Char) : Ends (printItems items ++ rest) := by
  cases items with
  | nil => exact ends_cons (by simp)
  | cons item items => exact ends_cons (by simp)

theorem ends_printMembers (members : List (List Char × Json)) (rest : List Char) :
    Ends (printMembers members ++ rest) := by
  cases members with
  | nil => exact ends_cons (by simp)
  | cons member members => exact ends_cons (by simp)

theorem skipBlanks_cons {c : Char} (visible : isBlank c = false) (rest : List Char) :
    skipBlanks (c :: rest) = c :: rest := by
  simp [skipBlanks, visible]

/-! A list is read from the text of its parts. -/

section Lists

variable {fuel : Nat} {cs tail rest : List Char} {value : Json}

theorem readItems_last (read : readValue fuel cs = some (value, ']' :: rest)) :
    readItems (fuel + 1) cs = some ([value], rest) := by
  rw [readItems, read]
  simp [skipBlanks_cons (show isBlank ']' = false by decide)]

theorem readItems_next {items : List Json} (read : readValue fuel cs = some (value, ',' :: tail))
    (more : readItems fuel (skipBlanks tail) = some (items, rest)) :
    readItems (fuel + 1) cs = some (value :: items, rest) := by
  rw [readItems, read]
  simp [skipBlanks_cons (show isBlank ',' = false by decide), more]

theorem readValue_array {items : List Json} (opens : Opens cs)
    (read : readItems fuel (cs ++ tail) = some (items, rest)) :
    readValue (fuel + 1) ('[' :: (cs ++ tail)) = some (.array items, rest) := by
  obtain ⟨c, more, rfl, visible, other⟩ := opens
  simp only [List.cons_append] at read ⊢
  simp [readValue, skipBlanks_cons visible, other, read]

theorem readValue_object {members : List (List Char × Json)}
    (read : readMembers fuel ('"' :: cs) = some (members, rest)) :
    readValue (fuel + 1) ('{' :: '"' :: cs) = some (.object members, rest) := by
  simp [readValue, skipBlanks_cons (show isBlank '"' = false by decide), read]

variable {key : List Char} (verbatim : Verbatim key)
include verbatim

theorem readMembers_last (read : readValue fuel (skipBlanks cs) = some (value, '}' :: rest)) :
    readMembers (fuel + 1) ('"' :: (key ++ '"' :: ':' :: cs)) = some ([(key, value)], rest) := by
  simp [readMembers, readString_append verbatim, skipBlanks_cons (show isBlank ':' = false by decide), read,
    skipBlanks_cons (show isBlank '}' = false by decide)]

theorem readMembers_next {members : List (List Char × Json)}
    (read : readValue fuel (skipBlanks cs) = some (value, ',' :: tail))
    (more : readMembers fuel (skipBlanks tail) = some (members, rest)) :
    readMembers (fuel + 1) ('"' :: (key ++ '"' :: ':' :: cs)) = some ((key, value) :: members, rest) := by
  simp [readMembers, readString_append verbatim, skipBlanks_cons (show isBlank ':' = false by decide), read,
    skipBlanks_cons (show isBlank ',' = false by decide), more]

end Lists

theorem readItems_append {first : Json} {items : List Json} (head : Reads first)
    (reads : ∀ item ∈ items, Reads item) (opens : ∀ item ∈ items, Opens item.print) {fuel : Nat}
    (enough : first.print.length + (printItems items).length ≤ fuel) (rest : List Char) :
    readItems fuel (first.print ++ (printItems items ++ rest)) = some (first :: items, rest) := by
  induction items generalizing first fuel with
  | nil =>
    cases fuel with
    | zero => simp [printItems] at enough
    | succ fuel =>
      exact readItems_last (head fuel _ (by simpa [printItems] using enough) (ends_printItems [] rest))
  | cons item items ih =>
    cases fuel with
    | zero => simp [printItems] at enough
    | succ fuel =>
      simp only [printItems, List.cons_append, List.length_cons, List.length_append] at enough
      obtain ⟨next, others⟩ := List.forall_mem_cons.mp reads
      obtain ⟨opening, openings⟩ := List.forall_mem_cons.mp opens
      have more := ih next others openings (by omega : _ ≤ fuel)
      rw [← opening.skipBlanks_append] at more
      have read := head fuel (printItems (item :: items) ++ rest) (by omega) (ends_printItems _ rest)
      simp only [printItems, List.cons_append, List.append_assoc] at read ⊢
      exact readItems_next read more

theorem readMembers_append {key : List Char} {value : Json} {members : List (List Char × Json)}
    (verbatim : Verbatim key) (head : Reads value) (opens : Opens value.print)
    (keys : ∀ member ∈ members, Verbatim member.1) (reads : ∀ member ∈ members, Reads member.2)
    (others : ∀ member ∈ members, Opens member.2.print) {fuel : Nat}
    (enough : value.print.length + (printMembers members).length ≤ fuel) (rest : List Char) :
    readMembers fuel ('"' :: (key ++ '"' :: ':' :: (value.print ++ (printMembers members ++ rest)))) =
      some ((key, value) :: members, rest) := by
  induction members generalizing key value fuel with
  | nil =>
    cases fuel with
    | zero => simp [printMembers] at enough
    | succ fuel =>
      apply readMembers_last verbatim
      rw [opens.skipBlanks_append]
      exact head fuel _ (by simpa [printMembers] using enough) (ends_printMembers [] rest)
  | cons member members ih =>
    obtain ⟨nextKey, next⟩ := member
    cases fuel with
    | zero => simp [printMembers] at enough
    | succ fuel =>
      simp only [printMembers, List.cons_append, List.length_cons, List.length_append] at enough
      obtain ⟨plainKey, keys⟩ := List.forall_mem_cons.mp keys
      obtain ⟨nextReads, reads⟩ := List.forall_mem_cons.mp reads
      obtain ⟨opening, openings⟩ := List.forall_mem_cons.mp others
      have fits : next.print.length + (printMembers members).length ≤ fuel := by omega
      have more := ih plainKey nextReads opening keys reads openings fits
      rw [← skipBlanks_cons (show isBlank '"' = false by decide)] at more
      have read := head fuel (printMembers ((nextKey, next) :: members) ++ rest) (by omega)
        (ends_printMembers _ rest)
      rw [← opens.skipBlanks_append] at read
      simp only [printMembers, List.cons_append, List.append_assoc] at read ⊢
      exact readMembers_next verbatim read more

theorem Plain.reads {value : Json} (plain : Plain value) : Reads value := by
  induction plain with
  | null =>
    intro fuel rest enough _
    cases fuel with
    | zero => simp [print] at enough
    | succ fuel => simp [print, readValue]
  | bool value =>
    intro fuel rest enough _
    cases fuel with
    | zero => cases value <;> simp [print] at enough
    | succ fuel => cases value <;> simp [print, readValue]
  | nat n =>
    intro fuel rest enough ends
    obtain ⟨d, more, digits, digit⟩ := exists_toDigits_eq_cons n
    have read := readNumber_append n ends
    have marks : d ≠ 'n' ∧ d ≠ 't' ∧ d ≠ 'f' ∧ d ≠ '"' ∧ d ≠ '[' ∧ d ≠ '{' := by
      refine ⟨?_, ?_, ?_, ?_, ?_, ?_⟩ <;> exact ne_of_isDigit digit (by decide)
    simp only [ofNat, print, digits, List.cons_append] at enough read ⊢
    cases fuel with
    | zero => simp at enough
    | succ fuel => simp [readValue, marks, read]
  | string verbatim =>
    intro fuel rest enough _
    cases fuel with
    | zero => simp [print] at enough
    | succ fuel => simp [print, readValue, readString_append verbatim]
  | @array items plain ih =>
    intro fuel rest enough _
    cases fuel with
    | zero => cases items <;> simp [print] at enough
    | succ fuel =>
      cases items with
      | nil => simp [print, readValue, skipBlanks_cons (show isBlank ']' = false by decide)]
      | cons first items =>
        obtain ⟨head, others⟩ := List.forall_mem_cons.mp ih
        obtain ⟨opening, plain⟩ := List.forall_mem_cons.mp plain
        simp only [print, List.cons_append, List.append_assoc, List.length_cons, List.length_append]
          at enough ⊢
        refine readValue_array opening.opens (readItems_append head others ?_ (by omega) rest)
        exact fun item member => (plain item member).opens
  | @object members keys plain ih =>
    intro fuel rest enough _
    cases fuel with
    | zero => cases members <;> simp [print] at enough
    | succ fuel =>
      cases members with
      | nil => simp [print, readValue, skipBlanks_cons (show isBlank '}' = false by decide)]
      | cons member members =>
        obtain ⟨key, value⟩ := member
        obtain ⟨head, others⟩ := List.forall_mem_cons.mp ih
        obtain ⟨opening, plain⟩ := List.forall_mem_cons.mp plain
        obtain ⟨verbatim, keys⟩ := List.forall_mem_cons.mp keys
        simp only [print, List.cons_append, List.append_assoc, List.length_cons, List.length_append]
          at enough ⊢
        have fits : value.print.length + (printMembers members).length ≤ fuel := by omega
        refine readValue_object (readMembers_append verbatim head opening.opens keys others ?_ fits rest)
        exact fun member inside => (plain member inside).opens

/-- The compact text of a plain value is read as this value. -/
theorem parse?_print {value : Json} (plain : Plain value) : parse? value.print = some value := by
  have skip := plain.opens.skipBlanks_append []
  have read := plain.reads (2 * value.print.length + 2) [] (by omega) ends_nil
  simp only [List.append_nil] at skip read
  rw [parse?, skip, read]
  rfl

end ContextFree.Json
