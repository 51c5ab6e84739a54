import ContextFree.Proofs.Format

/-! Where a text is refused.

Lines are read one after the other, so a refused text has a first line that cannot be
read: the text up to it is read, and what follows it does not matter. The column is
counted from the front of the line, over blanks, the left-hand side and the alternatives
before. It points into the line or right behind it, and at the character itself if that
is refused as a symbol.
-/

set_option autoImplicit false

namespace ContextFree

namespace Text

/-! ### Cutting a text behind a line -/

/-- The text up to the end of its first lines, line ends included. -/
def firstLines : Nat → List Char → List Char
  | 0, _ => []
  | _ + 1, [] => []
  | count + 1, c :: rest => c :: if c = '\n' then firstLines count rest else firstLines (count + 1) rest

theorem firstLines_isPrefix (count : Nat) (cs : List Char) : firstLines count cs <+: cs := by
  induction cs generalizing count with
  | nil => cases count <;> simp [firstLines]
  | cons c rest ih =>
    cases count with
    | zero => simp [firstLines]
    | succ count =>
      rw [firstLines, List.cons_prefix_cons]
      refine ⟨rfl, ?_⟩
      split
      · exact ih count
      · exact ih (count + 1)

theorem lines_cons {c : Char} {rest : List Char} (inner : c ≠ '\n')
    (whole : ∀ more, c = '\r' → rest ≠ '\n' :: more) :
    lines (c :: rest) =
      match lines rest with
      | [] => [[c]]
      | line :: more => (c :: line) :: more :=
  lines.eq_4 c rest inner whole

theorem firstLines_cons {c : Char} (inner : c ≠ '\n') (count : Nat) (rest : List Char) :
    firstLines (count + 1) (c :: rest) = c :: firstLines (count + 1) rest := by
  rw [firstLines, if_neg inner]

theorem firstLines_ne_newline {rest : List Char} (other : ∀ more, rest ≠ '\n' :: more) (count : Nat)
    (more : List Char) : firstLines (count + 1) rest ≠ '\n' :: more := by
  cases rest with
  | nil => simp [firstLines]
  | cons c rest =>
    intro same
    rw [firstLines, List.cons.injEq] at same
    exact other rest (by rw [same.1])

theorem lines_firstLines (count : Nat) (cs : List Char) :
    lines (firstLines count cs) = (lines cs).take count := by
  induction cs generalizing count with
  | nil => cases count <;> simp [firstLines, lines]
  | cons c rest ih =>
    cases count with
    | zero => simp [firstLines, lines]
    | succ count =>
      by_cases newline : c = '\n'
      · simp [newline, firstLines, lines, ih]
      · rw [firstLines_cons newline]
        by_cases ending : c = '\r' ∧ ∃ more, rest = '\n' :: more
        · obtain ⟨rfl, more, rfl⟩ := ending
          simpa [firstLines, lines] using ih (count + 1)
        · have whole (more : List Char) (last : c = '\r') : rest ≠ '\n' :: more :=
            fun same => ending ⟨last, more, same⟩
          have kept (more : List Char) (last : c = '\r') : firstLines (count + 1) rest ≠ '\n' :: more :=
            firstLines_ne_newline (fun other => whole other last) count more
          rw [lines_cons newline kept, lines_cons newline whole, ih]
          cases lines rest <;> simp

/-! ### Places in a text -/

theorem exists_trim (cs : List Char) : ∃ back, cs = cs.takeWhile isBlank ++ (trim cs ++ back) := by
  refine ⟨((trimLeft cs).reverse.takeWhile isBlank).reverse, ?_⟩
  rw [trim, trimRight, ← List.reverse_append, List.takeWhile_append_dropWhile, List.reverse_reverse,
    trimLeft, List.takeWhile_append_dropWhile]

theorem head_of_trim {cs : List Char} {c : Char} (single : trim cs = [c])
    (begins : ∀ d, cs.head? = some d → isBlank d = false) : cs.head? = some c := by
  obtain ⟨back, parts⟩ := exists_trim cs
  rw [single] at parts
  cases cs with
  | nil => simp at parts
  | cons d rest =>
    simp only [List.takeWhile_cons, begins d rfl, Bool.false_eq_true, if_false, List.nil_append] at parts
    rw [parts]
    rfl

theorem head_trim {cs : List Char} {c : Char} (first : (trim cs).head? = some c) : isBlank c = false := by
  obtain ⟨rest, shape⟩ := List.head?_eq_some_iff.mp first
  obtain ⟨back, parts⟩ := exists_trim cs
  have left : trimLeft cs = c :: (rest ++ back) := by
    rw [shape, List.cons_append] at parts
    refine (List.append_right_inj (cs.takeWhile isBlank)).mp ?_
    rw [← parts, trimLeft, List.takeWhile_append_dropWhile]
  have visible := List.head?_dropWhile_not isBlank cs
  rw [← trimLeft, left] at visible
  exact visible

end Text

/-- A place in the text or right behind it. A character that is no symbol stands there. -/
structure Locates (cs : List Char) (cause : LoadCause) (place : Nat) : Prop where
  inside : place ≤ cs.length
  shows : ∀ c, cause = .notASymbol c → cs[place]? = some c

namespace Locates

variable {cs : List Char} {cause : LoadCause} {place : Nat}

theorem behind (located : Locates cs cause place) (front : List Char) :
    Locates (front ++ cs) cause (front.length + place) where
  inside := by
    have inside := located.inside
    simp only [List.length_append]
    omega
  shows c same := by
    simpa [List.getElem?_append_right] using located.shows c same

theorem before (located : Locates cs cause place) (back : List Char) :
    Locates (cs ++ back) cause place where
  inside := by
    have inside := located.inside
    simp only [List.length_append]
    omega
  shows c same := List.getElem?_append_left (List.getElem?_eq_some_iff.mp (located.shows c same)).1 ▸
    located.shows c same

theorem untrimmed (located : Locates (Text.trim cs) cause place) :
    Locates cs cause (Text.indent cs + place) := by
  obtain ⟨back, parts⟩ := Text.exists_trim cs
  have whole := (located.before back).behind (cs.takeWhile Text.isBlank)
  rwa [← parts] at whole

end Locates

namespace Grammar

variable {g : Grammar}

/-! ### Places on a line -/

theorem declareChar_eq_error {c : Char} {cause : LoadCause} (failed : g.declareChar c = .error cause) :
    cause = .notASymbol c := by
  unfold declareChar at failed
  split at failed
  · cases failed
  · cases failed
  · cases failed
    rfl

theorem locates_declareChars {offset : Nat} {cs : List Char} {error : LineError}
    (failed : g.declareChars offset cs = .error error) :
    ∃ place, error.2 = offset + place ∧ Locates cs error.1 place := by
  induction cs generalizing g offset with
  | nil => cases failed
  | cons c rest ih =>
    rw [declareChars] at failed
    split at failed
    · obtain ⟨place, same, located⟩ := ih failed
      exact ⟨1 + place, by omega, located.behind [c]⟩
    · rename_i refused
      cases failed
      rw [declareChar_eq_error refused]
      exact ⟨0, rfl, ⟨Nat.zero_le _, fun d same => by cases same; rfl⟩⟩

theorem locates_loadAlternative {lhs : Char} {offset : Nat} {alternative : List Char} {error : LineError}
    (failed : g.loadAlternative lhs offset alternative = .error error) :
    ∃ place, error.2 = offset + place ∧ Locates alternative error.1 place := by
  rw [loadAlternative_eq] at failed
  rcases bind_eq_error failed with undeclared | ⟨middle, _, refused⟩
  · split at undeclared
    · cases undeclared
    · obtain ⟨place, same, located⟩ := locates_declareChars undeclared
      exact ⟨Text.indent alternative + place, by omega, located.untrimmed⟩
  · split at refused
    · cases refused
    · cases refused
      exact ⟨Text.indent alternative, rfl, (List.takeWhile_sublist _).length_le, nofun⟩

theorem locates_loadAlternatives {lhs : Char} {offset : Nat} {alternatives : List (List Char)}
    {error : LineError} (failed : g.loadAlternatives lhs offset alternatives = .error error) :
    ∃ place, error.2 = offset + place ∧ Locates (List.intercalate ['|'] alternatives) error.1 place := by
  induction alternatives generalizing g offset with
  | nil => cases failed
  | cons alternative rest ih =>
    rw [loadAlternatives] at failed
    rcases bind_eq_error failed with first | ⟨middle, _, others⟩
    · obtain ⟨place, same, located⟩ := locates_loadAlternative first
      refine ⟨place, same, ?_⟩
      cases rest with
      | nil => simpa [List.intercalate] using located
      | cons next more =>
        rw [List.intercalate_cons_cons, List.append_assoc]
        exact located.before _
    · obtain ⟨place, same, located⟩ := ih others
      cases rest with
      | nil => cases others
      | cons next more =>
        rw [List.intercalate_cons_cons]
        refine ⟨_, ?_, located.behind (alternative ++ ['|'])⟩
        simp only [same, List.length_append, List.length_singleton]
        omega

theorem loadLhs_eq_error {lhs c : Char} (failed : g.loadLhs lhs = .error (.notASymbol c)) : lhs = c := by
  rcases bind_eq_error failed with undeclared | ⟨middle, _, refused⟩
  · cases declareChar_eq_error undeclared
    rfl
  · split at refused
    · cases refused
    · cases refused

theorem locates_loadTrimmed {line : List Char} {error : LineError}
    (begins : ∀ c, line.head? = some c → Text.isBlank c = false)
    (failed : g.loadTrimmed line = .error error) : Locates line error.1 error.2 := by
  unfold loadTrimmed at failed
  split at failed
  · cases failed
    exact ⟨Nat.zero_le _, nofun⟩
  · rename_i before after cut
    have parts := (Text.splitAtDefines_eq_some.mp cut).parts
    split at failed
    · rename_i lhs single
      split at failed
      · rename_i cause refused
        cases failed
        refine ⟨Nat.zero_le _, fun c same => ?_⟩
        obtain rfl : cause = .notASymbol c := same
        obtain rfl : lhs = c := loadLhs_eq_error refused
        -- the line begins with the left-hand side, for it has no blanks in front
        have front : before.head? = some lhs := by
          refine Text.head_of_trim single fun d first => begins d ?_
          rw [parts, List.head?_append, first]
          rfl
        rw [parts, ← List.head?_eq_getElem?, List.head?_append, front]
        rfl
      · obtain ⟨place, same, located⟩ := locates_loadAlternatives failed
        rw [List.intercalate_splitOn] at located
        have whole := located.behind (before ++ [':', ':', '='])
        rw [parts, same]
        simpa using whole
    · cases failed
      exact ⟨Nat.zero_le _, nofun⟩

theorem locates_loadLine {number : Nat} {line : List Char} {error : LoadError}
    (failed : g.loadLine number line = .error error) :
    error.line = number ∧ ∃ place, error.column = place + 1 ∧ Locates line error.cause place := by
  unfold loadLine at failed
  split at failed
  · cases failed
  · split at failed
    · cases failed
    · rename_i refused
      cases failed
      have located := locates_loadTrimmed (fun c => Text.head_trim) refused
      exact ⟨rfl, _, rfl, located.untrimmed⟩

/-! ### The first line that is refused -/

theorem loadLines_append (number : Nat) (first second : List (List Char)) :
    g.loadLines number (first ++ second) =
      g.loadLines number first >>= fun next => next.loadLines (number + first.length) second := by
  induction first generalizing g number with
  | nil => rfl
  | cons line rest ih =>
    rw [List.cons_append, loadLines, loadLines, bind_assoc]
    congr
    funext next
    rw [ih, List.length_cons, Nat.add_assoc, Nat.add_comm 1]

/-- The lines before the first refused one are read. -/
theorem loadLines_eq_error {number : Nat} {lines : List (List Char)} {error : LoadError}
    (failed : g.loadLines number lines = .error error) :
    ∃ before line after middle, lines = before ++ line :: after ∧ g.loadLines number before = .ok middle ∧
      middle.loadLine (number + before.length) line = .error error := by
  induction lines generalizing g number with
  | nil => cases failed
  | cons line rest ih =>
    rw [loadLines] at failed
    rcases bind_eq_error failed with first | ⟨next, loaded, others⟩
    · exact ⟨[], line, rest, g, rfl, rfl, first⟩
    · obtain ⟨before, refused, after, middle, rfl, read, fails⟩ := ih others
      refine ⟨line :: before, refused, after, middle, rfl, ?_, ?_⟩
      · rw [loadLines, loaded]
        exact read
      · rwa [List.length_cons, Nat.add_comm before.length, ← Nat.add_assoc]

theorem exists_load {text : String} {start : Char} (upper : start.isUpper = true) {middle : Grammar}
    (read : empty.loadLines 1 (Text.lines text.toList) = .ok middle) : ∃ g, load text start = .ok g := by
  obtain ⟨rules, described, new, _⟩ := (loadLines_eq_ok valid_empty).mp read
  obtain ⟨s, rfl⟩ := Symbol.exists_of_isUpper upper
  have kind := Kind.ofChar?_eq_nonterminal.mpr upper
  exact ⟨_, load_eq_ok.mpr ⟨rules, s, described, new.1, rfl, kind, rfl⟩⟩

theorem load_eq_error {text : String} {start : Char} (upper : start.isUpper = true) {error : LoadError} :
    load text start = .error error ↔ empty.loadLines 1 (Text.lines text.toList) = .error error := by
  constructor
  · intro failed
    cases read : empty.loadLines 1 (Text.lines text.toList) with
    | error other =>
      rw [load, read] at failed
      exact failed
    | ok middle =>
      obtain ⟨g, loaded⟩ := exists_load upper read
      cases loaded.symm.trans failed
  · intro failed
    rw [load, failed]
    rfl

end Grammar

theorem LoadCause.eq_of_reason {cause : LoadCause} {c : Char}
    (same : cause.reason = (LoadCause.notASymbol c).reason) : cause = .notASymbol c := by
  delta LoadCause.reason at same
  have letters := congrArg String.toList same
  cases cause with
  | noDefines => simp at letters
  | badLhs => simp at letters
  | notASymbol d => simpa using letters
  | refused fault =>
    delta Fault.reason at letters
    cases fault with
    | notDefined d kind => cases kind <;> simp [Kind.text] at letters
    | _ => simp at letters

namespace Grammar

/-- The line of an error is the first that cannot be read: the text before it is read, and
the text cut behind it is refused for the same error. The column is in the line or right
behind it, and a character that is refused as a symbol stands there. -/
theorem load_error_position {text : String} {start : Char} {error : LoadError}
    (upper : start.isUpper = true) (failed : load text start = .error error) :
    1 ≤ error.line ∧ ∃ refused, (Text.lines text.toList)[error.line - 1]? = some refused ∧
      (∃ g, load (String.ofList (Text.firstLines (error.line - 1) text.toList)) start = .ok g) ∧
      Text.firstLines error.line text.toList <+: text.toList ∧
      load (String.ofList (Text.firstLines error.line text.toList)) start = .error error ∧
      (∀ part : String, Text.lines part.toList = (Text.lines text.toList).take (error.line - 1) →
        ∃ g, load part start = .ok g) ∧
      (∀ part : String, Text.lines part.toList = (Text.lines text.toList).take error.line →
        load part start = .error error) ∧
      1 ≤ error.column ∧ error.column ≤ refused.length + 1 ∧
      ∀ c, error.reason = (LoadCause.notASymbol c).reason → refused[error.column - 1]? = some c := by
  obtain ⟨before, line, after, middle, shape, read, refused⟩ :=
    loadLines_eq_error ((load_eq_error upper).mp failed)
  obtain ⟨number, place, column, located⟩ := locates_loadLine refused
  have earlier {part : String} (cut : Text.lines part.toList = (Text.lines text.toList).take (error.line - 1)) :
      ∃ g, load part start = .ok g := by
    have loaded : empty.loadLines 1 (Text.lines part.toList) = .ok middle := by
      rw [cut, shape, number, Nat.add_sub_cancel_left, List.take_left, read]
    exact exists_load upper loaded
  have again {part : String} (cut : Text.lines part.toList = (Text.lines text.toList).take error.line) :
      load part start = .error error := by
    rw [load_eq_error upper, cut, shape, number, Nat.add_comm, List.take_length_add_append, loadLines_append, read]
    have stopped : middle.loadLines (1 + before.length) [line] = .error error := by
      rw [loadLines, refused]
      rfl
    exact stopped
  have inside := located.inside
  refine ⟨by omega, line, ?_, earlier ?_, Text.firstLines_isPrefix _ _, again ?_, fun _ => earlier, fun _ => again,
    by omega, by omega, fun c same => ?_⟩
  · rw [shape, number, Nat.add_sub_cancel_left, List.getElem?_append_right (Nat.le_refl _), Nat.sub_self]
    rfl
  · rw [String.toList_ofList, Text.lines_firstLines]
  · rw [String.toList_ofList, Text.lines_firstLines]
  · rw [column, Nat.add_sub_cancel]
    exact located.shows c (LoadCause.eq_of_reason same)

/-- Blanks of any width are counted, and the text behind the line is not read. -/
theorem load_error_position_indented :
    load "S::=aB\r\n\n\u2003 B ::= b |\u3000c+d\nS" 'S' = .error ⟨.notASymbol '+', 3, 14⟩ ∧
      (∃ g, load "S::=aB\r\n\n" 'S' = .ok g) ∧
        load "S::=aB\r\n\n\u2003 B ::= b |\u3000c+d\n" 'S' = .error ⟨.notASymbol '+', 3, 14⟩ ∧
          "\u2003 B ::= b |\u3000c+d".toList[13]? = some '+' := by
  have failed : load "S::=aB\r\n\n\u2003 B ::= b |\u3000c+d\nS" 'S' = .error ⟨.notASymbol '+', 3, 14⟩ := by
    decide +kernel
  obtain ⟨_, line, found, earlier, _, cut, _, _, _, _, shows⟩ := load_error_position (by decide) failed
  have third : (Text.lines "S::=aB\r\n\n\u2003 B ::= b |\u3000c+d\nS".toList)[2]? =
      some "\u2003 B ::= b |\u3000c+d".toList := by
    decide +kernel
  cases Option.some.inj (found.symm.trans third)
  exact ⟨failed, earlier, cut, shows '+' rfl⟩

end Grammar

end ContextFree
