import ContextFree.Proofs.RoundTrip
import Mathlib.Data.List.TakeWhile

/-! The texts that are read, said without reading them.

A text lists pairs: the letter before the first `::=` of a line, and one alternative
behind it, without the blanks around them. Reading accepts the texts that list pairs,
none of them twice, and gives the grammar with these pairs as its rules. So the order
of lines and alternatives does not show in the grammar.
-/

set_option autoImplicit false

namespace ContextFree

namespace Text

/-! ### Lines of the format -/

/-- The text has a `::=`, with the given parts around the first one. -/
structure FirstDefines (cs before after : List Char) : Prop where
  parts : cs = before ++ ':' :: ':' :: '=' :: after
  first : ∀ earlier later, cs = earlier ++ ':' :: ':' :: '=' :: later → before.length ≤ earlier.length

/-- An alternative as it is written: `l`, or letters and digits without `l`. -/
def IsAlternative (cs : List Char) : Prop :=
  cs = ['l'] ∨ cs ≠ [] ∧ ∀ c ∈ cs, c.isAlphanum = true ∧ c ≠ 'l'

instance (cs : List Char) : Decidable (IsAlternative cs) :=
  letI := List.decidableBAll (fun c : Char => c.isAlphanum = true ∧ c ≠ 'l') cs
  inferInstanceAs (Decidable (_ ∨ _))

/-- The lines list the pairs, in order; blank lines list none. -/
inductive Lists : List (List Char) → List (Char × List Char) → Prop where
  | nil : Lists [] []
  | blank {line : List Char} {lines : List (List Char)} {pairs : List (Char × List Char)} :
      (∀ c ∈ line, isBlank c = true) → Lists lines pairs → Lists (line :: lines) pairs
  | entry {line before after : List Char} {lhs : Char} {lines : List (List Char)}
      {pairs : List (Char × List Char)} : FirstDefines (trim line) before after →
      trim before = [lhs] → lhs.isUpper = true →
      (∀ alternative ∈ after.splitOn '|', IsAlternative (trim alternative)) → Lists lines pairs →
      Lists (line :: lines) ((after.splitOn '|').map (fun alternative => (lhs, trim alternative)) ++ pairs)

theorem trim_eq_nil {cs : List Char} : trim cs = [] ↔ ∀ c ∈ cs, isBlank c = true := by
  rw [trim, trimRight, List.reverse_eq_nil_iff, List.dropWhile_eq_nil_iff, trimLeft]
  simp only [List.mem_reverse]
  constructor
  · intro blank c member
    rw [← List.takeWhile_append_dropWhile (p := isBlank) (l := cs), List.mem_append] at member
    rcases member with front | back
    · exact List.mem_takeWhile_imp front
    · exact blank c back
  · intro blank c member
    exact blank c ((List.dropWhile_sublist isBlank).mem member)

theorem splitAtDefines_ne_none (before after : List Char) :
    splitAtDefines (before ++ ':' :: ':' :: '=' :: after) ≠ none := by
  induction before with
  | nil => simp [splitAtDefines]
  | cons c rest ih =>
    rw [List.cons_append]
    unfold splitAtDefines
    split
    · rename_i nothing
      cases nothing
    · simp
    · rename_i same
      obtain ⟨_, rfl⟩ := List.cons.inj same
      simpa using ih

theorem firstDefines_of_splitAtDefines {cs before after : List Char}
    (cut : splitAtDefines cs = some (before, after)) : FirstDefines cs before after := by
  induction cs using splitAtDefines.induct generalizing before with
  | case1 => simp [splitAtDefines] at cut
  | case2 rest =>
    simp only [splitAtDefines, Option.some.injEq, Prod.mk.injEq] at cut
    obtain ⟨rfl, rfl⟩ := cut
    exact ⟨rfl, fun _ _ _ => Nat.zero_le _⟩
  | case3 c rest other ih =>
    rw [splitAtDefines, Option.map_eq_some_iff] at cut
    · obtain ⟨⟨front, back⟩, found, same⟩ := cut
      obtain ⟨rfl, rfl⟩ := Prod.mk.inj same
      have inside := ih found
      refine ⟨congrArg (c :: ·) inside.parts, fun earlier later split => ?_⟩
      cases earlier with
      | nil =>
        obtain ⟨rfl, rfl⟩ := List.cons.inj split
        exact absurd rfl (other later rfl)
      | cons d earlier =>
        have shorter := inside.first earlier later (List.cons.inj split).2
        simp only [List.length_cons]
        omega
    · exact other

theorem splitAtDefines_eq_some {cs before after : List Char} :
    splitAtDefines cs = some (before, after) ↔ FirstDefines cs before after := by
  refine ⟨firstDefines_of_splitAtDefines, fun cut => ?_⟩
  cases found : splitAtDefines cs with
  | none =>
    rw [cut.parts] at found
    exact absurd found (splitAtDefines_ne_none before after)
  | some parts =>
    have other := firstDefines_of_splitAtDefines found
    have length : parts.1.length = before.length :=
      Nat.le_antisymm (other.first _ _ cut.parts) (cut.first _ _ other.parts)
    obtain ⟨front, back⟩ := List.append_inj (other.parts.symm.trans cut.parts) length
    simp only [List.cons.injEq, true_and] at back
    rw [← front, ← back]

theorem Lists.cut {line before after : List Char} {lhs : Char} {lines : List (List Char)}
    {pairs : List (Char × List Char)} (found : splitAtDefines (trim line) = some (before, after))
    (letter : trim before = [lhs]) (upper : lhs.isUpper = true)
    (alternatives : ∀ alternative ∈ after.splitOn '|', IsAlternative (trim alternative))
    (rest : Lists lines pairs) :
    Lists (line :: lines) ((after.splitOn '|').map (fun alternative => (lhs, trim alternative)) ++ pairs) :=
  .entry (splitAtDefines_eq_some.mp found) letter upper alternatives rest

theorem Lists.unique {lines : List (List Char)} {first second : List (Char × List Char)}
    (left : Lists lines first) (right : Lists lines second) : first = second := by
  have filled {line before after : List Char} (cut : FirstDefines (trim line) before after)
      (blank : ∀ c ∈ line, isBlank c = true) : False := by
    have parts := cut.parts
    rw [trim_eq_nil.mpr blank] at parts
    simp at parts
  induction left generalizing second with
  | nil =>
    cases right
    rfl
  | blank empty _ ih =>
    cases right with
    | blank _ rest => exact ih rest
    | entry cut _ _ _ _ => exact (filled cut empty).elim
  | entry cut letter _ _ _ ih =>
    cases right with
    | blank empty _ => exact (filled cut empty).elim
    | entry again other _ _ rest =>
      have same := (splitAtDefines_eq_some.mpr cut).symm.trans (splitAtDefines_eq_some.mpr again)
      simp only [Option.some.injEq, Prod.mk.injEq] at same
      obtain ⟨rfl, rfl⟩ := same
      cases List.singleton_inj.mp (letter.symm.trans other)
      rw [ih rest]

end Text

/-! ### Characters and right-hand sides -/

theorem isAlphanum_iff {c : Char} :
    c.isAlphanum = true ↔ (c.isUpper = true ∨ c.isLower = true) ∨ c.isDigit = true := by
  rw [← Bool.or_eq_true, ← Bool.or_eq_true]
  exact Iff.rfl

theorem Symbol.exists_of_isAlphanum {c : Char} (letter : c.isAlphanum = true) :
    ∃ s : Symbol, c = s.toChar := by
  have ranges : 48 ≤ c.toNat ∧ c.toNat ≤ 57 ∨ 65 ≤ c.toNat ∧ c.toNat ≤ 90 ∨
      97 ≤ c.toNat ∧ c.toNat ≤ 122 := by
    rcases isAlphanum_iff.mp letter with (upper | lower) | digit
    · exact .inr (.inl (of_decide_eq_true upper))
    · obtain ⟨above, below⟩ := (Bool.and_eq_true _ _).mp lower
      exact .inr (.inr ⟨of_decide_eq_true above, of_decide_eq_true below⟩)
    · obtain ⟨above, below⟩ := (Bool.and_eq_true _ _).mp digit
      exact .inl ⟨of_decide_eq_true above, of_decide_eq_true below⟩
  cases found : ofChar? c with
  | some s => exact ⟨s, ofChar?_eq_some.mp found⟩
  | none =>
    unfold ofChar? at found
    split at found
    · cases found
    · split at found
      · cases found
      · split at found
        · cases found
        · omega

theorem Symbol.exists_of_isUpper {c : Char} (upper : c.isUpper = true) : ∃ s : Symbol, c = s.toChar :=
  exists_of_isAlphanum (isAlphanum_iff.mpr (.inl (.inl upper)))

theorem Symbol.exists_declarable_iff {c : Char} :
    (∃ s : Symbol, c = s.toChar ∧ s.Declarable) ↔ c.isAlphanum = true ∧ c ≠ 'l' := by
  constructor
  · rintro ⟨s, rfl, kind, allowed⟩
    refine ⟨isAlphanum_iff.mpr ?_, Declarable.ne_reserved ⟨kind, allowed⟩⟩
    cases kind with
    | nonterminal => exact .inl (.inl (Kind.ofChar?_eq_nonterminal.mp allowed))
    | terminal =>
      rcases (Kind.ofChar?_eq_terminal.mp allowed).2 with lower | digit
      · exact .inl (.inr lower)
      · exact .inr digit
  · rintro ⟨letter, other⟩
    obtain ⟨s, rfl⟩ := exists_of_isAlphanum letter
    refine ⟨s, rfl, ?_⟩
    rcases isAlphanum_iff.mp letter with (upper | lower) | digit
    · exact ⟨_, Kind.ofChar?_eq_nonterminal.mpr upper⟩
    · exact ⟨_, Kind.ofChar?_eq_terminal.mpr ⟨other, .inl lower⟩⟩
    · exact ⟨_, Kind.ofChar?_eq_terminal.mpr ⟨other, .inr digit⟩⟩

/-- The right-hand side that is written so: `l` is the empty string. -/
def Rhs.ofChars (cs : List Char) : Rhs :=
  if cs = ['l'] then .epsilon else .sequence (cs.filterMap Symbol.ofChar?)

theorem Rhs.ofChars_chars {rhs : Rhs} (declarable : ∀ s ∈ rhs.toList, s.Declarable) :
    ofChars rhs.chars = rhs := by
  cases rhs with
  | epsilon => rfl
  | sequence symbols =>
    have other : symbols.map Symbol.toChar ≠ ['l'] := by
      intro reserved
      have inside : 'l' ∈ symbols.map Symbol.toChar := reserved ▸ List.mem_singleton_self 'l'
      obtain ⟨s, member, letter⟩ := List.mem_map.mp inside
      exact (declarable s member).ne_reserved letter
    rw [ofChars, chars, if_neg other, List.filterMap_map]
    have read : (Symbol.ofChar? ∘ Symbol.toChar) = some := funext Symbol.ofChar?_toChar
    rw [read, List.filterMap_some]

theorem Text.isAlternative_iff {cs : List Char} :
    IsAlternative cs ↔
      ∃ rhs : Rhs, cs = rhs.chars ∧ rhs ≠ .sequence [] ∧ ∀ s ∈ rhs.toList, s.Declarable := by
  constructor
  · rintro (rfl | ⟨filled, letters⟩)
    · exact ⟨.epsilon, rfl, Rhs.noConfusion, by simp [Rhs.toList]⟩
    · have spelled : ∃ symbols : List Symbol, cs = symbols.map Symbol.toChar ∧
          ∀ s ∈ symbols, s.Declarable := by
        clear filled
        induction cs with
        | nil => exact ⟨[], rfl, by simp⟩
        | cons c rest ih =>
          obtain ⟨first, others⟩ := List.forall_mem_cons.mp letters
          obtain ⟨s, rfl, declarable⟩ := Symbol.exists_declarable_iff.mpr first
          obtain ⟨symbols, rfl, all⟩ := ih others
          exact ⟨s :: symbols, rfl, List.forall_mem_cons.mpr ⟨declarable, all⟩⟩
      obtain ⟨symbols, rfl, declarable⟩ := spelled
      refine ⟨.sequence symbols, rfl, fun nothing => filled ?_, declarable⟩
      rw [Rhs.sequence.inj nothing, List.map_nil]
  · rintro ⟨rhs, rfl, proper, declarable⟩
    cases rhs with
    | epsilon => exact .inl rfl
    | sequence symbols =>
      refine .inr ⟨fun nothing => proper ?_, fun c member => ?_⟩
      · rw [List.map_eq_nil_iff.mp nothing]
      · obtain ⟨s, inside, rfl⟩ := List.mem_map.mp member
        exact Symbol.exists_declarable_iff.mp ⟨s, rfl, declarable s inside⟩

def Rule.pair (rule : Rule) : Char × List Char :=
  (rule.lhs.toChar, rule.rhs.chars)

theorem Rule.Writable.pair_injective {first second : Rule} (left : first.Writable) (right : second.Writable)
    (same : first.pair = second.pair) : first = second := by
  obtain ⟨lhs, rhs⟩ := first
  obtain ⟨other, body⟩ := second
  obtain ⟨letter, written⟩ := Prod.mk.inj same
  cases Symbol.toChar_injective letter
  cases Rhs.chars_injective left.rhs right.rhs written
  rfl

namespace Grammar

variable {g : Grammar}

/-! ### Pairs and rules -/

theorem lists_of_writes {line : List Char} {lhs : Symbol} {bodies : List Rhs} (writes : Writes line lhs bodies)
    {lines : List (List Char)} {pairs : List (Char × List Char)} (rest : Text.Lists lines pairs) :
    Text.Lists (line :: lines) ((bodies.map (Rule.mk lhs)).map Rule.pair ++ pairs) := by
  obtain ⟨before, after, cut, letter, spelled⟩ := writes.parts
  obtain ⟨first, others, filled⟩ := writes.exists_cons
  have upper : lhs.toChar.isUpper = true :=
    Kind.ofChar?_eq_nonterminal.mp (writes.writable first (filled ▸ List.mem_cons_self)).lhs
  have alternatives : ∀ alternative ∈ after.splitOn '|', Text.IsAlternative (Text.trim alternative) := by
    intro alternative member
    have written : Text.trim alternative ∈ bodies.map Rhs.chars :=
      spelled ▸ List.mem_map_of_mem member
    obtain ⟨rhs, inside, same⟩ := List.mem_map.mp written
    have writable := writes.writable rhs inside
    exact Text.isAlternative_iff.mpr ⟨rhs, same.symm, writable.proper, writable.rhs⟩
  have pairs_eq : (bodies.map (Rule.mk lhs)).map Rule.pair =
      (after.splitOn '|').map fun alternative => (lhs.toChar, Text.trim alternative) := by
    have paired := congrArg (List.map (Prod.mk lhs.toChar)) spelled
    rw [List.map_map, List.map_map] at paired
    rw [List.map_map]
    exact paired.symm
  rw [pairs_eq]
  exact .cut cut letter upper alternatives rest

theorem exists_writes {line before after : List Char} {lhs : Char}
    (cut : Text.FirstDefines (Text.trim line) before after) (letter : Text.trim before = [lhs])
    (upper : lhs.isUpper = true)
    (alternatives : ∀ alternative ∈ after.splitOn '|', Text.IsAlternative (Text.trim alternative)) :
    ∃ s bodies, Writes line s bodies ∧ (bodies.map (Rule.mk s)).map Rule.pair =
      (after.splitOn '|').map fun alternative => (lhs, Text.trim alternative) := by
  have kind : Kind.ofChar? lhs = some .nonterminal := Kind.ofChar?_eq_nonterminal.mpr upper
  obtain ⟨s, rfl⟩ := Symbol.exists_of_isUpper upper
  have written {alternative : List Char} (member : alternative ∈ after.splitOn '|') :
      (Rhs.ofChars (Text.trim alternative)).chars = Text.trim alternative ∧
        Rule.Writable ⟨s, Rhs.ofChars (Text.trim alternative)⟩ := by
    obtain ⟨rhs, same, proper, declarable⟩ := Text.isAlternative_iff.mp (alternatives alternative member)
    rw [same, Rhs.ofChars_chars declarable]
    exact ⟨rfl, kind, proper, declarable⟩
  refine ⟨s, (after.splitOn '|').map fun alternative => Rhs.ofChars (Text.trim alternative), ⟨?_, ?_⟩, ?_⟩
  · refine ⟨before, after, Text.splitAtDefines_eq_some.mpr cut, letter, ?_⟩
    rw [List.map_map]
    exact List.map_congr_left fun alternative member => (written member).1.symm
  · exact List.forall_mem_map.mpr fun alternative member => (written member).2
  · rw [List.map_map, List.map_map]
    exact List.map_congr_left fun alternative member => congrArg (Prod.mk s.toChar) (written member).1

/-- The lines list the pairs of the rules that they describe. -/
theorem lists_iff {lines : List (List Char)} {pairs : List (Char × List Char)} :
    Text.Lists lines pairs ↔ ∃ rules, Describes lines rules ∧ pairs = rules.map Rule.pair := by
  constructor
  · intro lists
    induction lists with
    | nil => exact ⟨[], .nil, rfl⟩
    | blank empty _ ih =>
      obtain ⟨rules, described, rfl⟩ := ih
      exact ⟨rules, .blank (Text.trim_eq_nil.mpr empty) described, rfl⟩
    | entry cut letter upper alternatives _ ih =>
      obtain ⟨rules, described, rfl⟩ := ih
      obtain ⟨s, bodies, writes, same⟩ := exists_writes cut letter upper alternatives
      refine ⟨_, .entry writes described, ?_⟩
      rw [List.map_append, same]
  · rintro ⟨rules, described, rfl⟩
    induction described with
    | nil => exact .nil
    | blank empty _ ih => exact .blank (Text.trim_eq_nil.mp empty) ih
    | entry writes _ ih =>
      rw [List.map_append]
      exact lists_of_writes writes ih

theorem nodup_map_pair {rules : List Rule} (writable : ∀ rule ∈ rules, rule.Writable) :
    (rules.map Rule.pair).Nodup ↔ rules.Nodup :=
  ⟨.of_map Rule.pair, .map_on fun first left second right =>
    (writable first left).pair_injective (writable second right)⟩

/-! ### The grammar of the pairs -/

/-- The grammar has the pairs as rules and no symbols but theirs and the start. -/
structure Assembles (g : Grammar) (start : Char) (pairs : List (Char × List Char)) : Prop where
  valid : g.Valid
  chosen : g.start.map Symbol.toChar = some start
  rules : ∀ rule, rule ∈ g.rules ↔
    ∃ pair ∈ pairs, rule.lhs.toChar = pair.1 ∧ rule.rhs = Rhs.ofChars pair.2
  symbols : ∀ s, s ∈ g.symbols ↔ s.toChar = start ∨ g.Occurs s

theorem assembles_assemble {rules : List Rule} {start : Symbol} (writable : ∀ rule ∈ rules, rule.Writable)
    (upper : Kind.ofChar? start.toChar = some .nonterminal) :
    (assemble rules start).Assembles start.toChar (rules.map Rule.pair) where
  valid := valid_assemble writable upper
  chosen := rfl
  rules := by
    intro rule
    rw [mem_rules_assemble]
    constructor
    · intro member
      exact ⟨rule.pair, List.mem_map_of_mem member, rfl, (Rhs.ofChars_chars (writable rule member).rhs).symm⟩
    · rintro ⟨_, listed, letter, written⟩
      obtain ⟨other, member, rfl⟩ := List.mem_map.mp listed
      rw [Rule.pair, Rhs.ofChars_chars (writable other member).rhs] at written
      have same : rule = other := by
        obtain ⟨lhs, rhs⟩ := rule
        exact congrArg₂ Rule.mk (Symbol.toChar_injective letter) written
      rw [same]
      exact member
  symbols := by
    intro s
    rw [mem_symbols_assemble writable upper]
    simp only [Occurs, mem_rules_assemble]
    exact or_congr_left ⟨congrArg Symbol.toChar, Symbol.toChar_injective⟩

theorem Assembles.unique {other : Grammar} {start : Char} {pairs : List (Char × List Char)}
    (left : g.Assembles start pairs) (right : other.Assembles start pairs) : other = g := by
  have rules (rule : Rule) : rule ∈ other.rules ↔ rule ∈ g.rules := by
    rw [left.rules, right.rules]
  refine eq_of_symbols left.valid right.valid rules (fun s => ?_) ?_
  · simp only [left.symbols, right.symbols, Occurs, rules]
  · apply Option.map_injective (fun _ _ => Symbol.toChar_injective)
    rw [left.chosen, right.chosen]

theorem load_eq_ok_iff_lists {text : String} {c : Char} :
    load text c = .ok g ↔ c.isUpper = true ∧
      ∃ pairs, Text.Lists (Text.lines text.toList) pairs ∧ pairs.Nodup ∧ g.Assembles c pairs := by
  rw [load_eq_ok]
  constructor
  · rintro ⟨rules, start, described, nodup, rfl, upper, rfl⟩
    refine ⟨Kind.ofChar?_eq_nonterminal.mp upper, rules.map Rule.pair, ?_, ?_, ?_⟩
    · exact lists_iff.mpr ⟨rules, described, rfl⟩
    · exact (nodup_map_pair described.writable).mpr nodup
    · exact assembles_assemble described.writable upper
  · rintro ⟨upper, pairs, lists, nodup, assembles⟩
    obtain ⟨rules, described, rfl⟩ := lists_iff.mp lists
    obtain ⟨start, chosen, rfl⟩ := Option.map_eq_some_iff.mp assembles.chosen
    have kind := Kind.ofChar?_eq_nonterminal.mpr upper
    refine ⟨rules, start, described, (nodup_map_pair described.writable).mp nodup, rfl, kind, ?_⟩
    exact (assembles_assemble described.writable kind).unique assembles

/-- A text is read if its lines list pairs, none of them twice, and the start is an
uppercase letter. The pairs are the rules of the grammar, which has no further symbols
but the start. A text that lists the same pairs in another order gives the same
grammar. -/
theorem load_accepts_format (text : String) (start : Char) :
    ((∃ g, load text start = .ok g) ↔ start.isUpper = true ∧
      ∃ pairs, Text.Lists (Text.lines text.toList) pairs ∧ pairs.Nodup) ∧
      ∀ g pairs, load text start = .ok g → Text.Lists (Text.lines text.toList) pairs →
        g.Assembles start pairs ∧
          ∀ other more, Text.Lists (Text.lines other.toList) more → more.Perm pairs →
            load other start = .ok g := by
  refine ⟨⟨?_, ?_⟩, ?_⟩
  · rintro ⟨g, loaded⟩
    obtain ⟨upper, pairs, lists, nodup, _⟩ := load_eq_ok_iff_lists.mp loaded
    exact ⟨upper, pairs, lists, nodup⟩
  · rintro ⟨upper, pairs, lists, nodup⟩
    obtain ⟨rules, described, rfl⟩ := lists_iff.mp lists
    have kind := Kind.ofChar?_eq_nonterminal.mpr upper
    obtain ⟨s, rfl⟩ := Symbol.exists_of_isUpper upper
    exact ⟨_, load_eq_ok_iff_lists.mpr
      ⟨upper, _, lists, nodup, assembles_assemble described.writable kind⟩⟩
  · intro g pairs loaded lists
    obtain ⟨upper, found, listed, nodup, assembles⟩ := load_eq_ok_iff_lists.mp loaded
    cases listed.unique lists
    refine ⟨assembles, fun other more relisted perm => ?_⟩
    refine load_eq_ok_iff_lists.mpr ⟨upper, more, relisted, perm.nodup_iff.mpr nodup, ?_⟩
    exact { assembles with rules := fun rule => by simp only [assembles.rules, perm.mem_iff] }

/-- Blanks, line ends and the order of lines and alternatives make no difference. -/
theorem load_accepts_reordered :
    ∃ g, load " S ::= aSb | l\n\nA::=a" 'S' = .ok g ∧ load "A::=a\r\nS::=l\nS::=aSb" 'S' = .ok g ∧
      (⟨⟨28⟩, .sequence [⟨36⟩, ⟨28⟩, ⟨37⟩]⟩ : Rule) ∈ g.rules := by
  have loose : Text.Lists (Text.lines " S ::= aSb | l\n\nA::=a".toList)
      [('S', ['a', 'S', 'b']), ('S', ['l']), ('A', ['a'])] := by
    have lines : Text.lines " S ::= aSb | l\n\nA::=a".toList =
        [" S ::= aSb | l".toList, [], "A::=a".toList] := by
      decide +kernel
    rw [lines]
    refine .cut (show _ = some ("S ".toList, " aSb | l".toList) by decide +kernel)
      (by decide +kernel : _ = ['S']) (by decide) (by decide +kernel) (.blank (by simp) ?_)
    exact .cut (show _ = some (['A'], ['a']) by decide +kernel)
      (by decide +kernel : _ = ['A']) (by decide) (by decide +kernel) .nil
  have tight : Text.Lists (Text.lines "A::=a\r\nS::=l\nS::=aSb".toList)
      [('A', ['a']), ('S', ['l']), ('S', ['a', 'S', 'b'])] := by
    have lines : Text.lines "A::=a\r\nS::=l\nS::=aSb".toList =
        ["A::=a".toList, "S::=l".toList, "S::=aSb".toList] := by
      decide +kernel
    rw [lines]
    refine .cut (show _ = some (['A'], ['a']) by decide +kernel)
      (by decide +kernel : _ = ['A']) (by decide) (by decide +kernel) ?_
    refine .cut (show _ = some (['S'], ['l']) by decide +kernel)
      (by decide +kernel : _ = ['S']) (by decide) (by decide +kernel) ?_
    exact .cut (show _ = some (['S'], "aSb".toList) by decide +kernel)
      (by decide +kernel : _ = ['S']) (by decide) (by decide +kernel) .nil
  obtain ⟨accepts, gives⟩ := load_accepts_format " S ::= aSb | l\n\nA::=a" 'S'
  obtain ⟨g, loaded⟩ := accepts.mpr ⟨by decide, _, loose, by decide⟩
  obtain ⟨assembles, reordered⟩ := gives g _ loaded loose
  refine ⟨g, loaded, reordered _ _ tight (by decide), (assembles.rules _).mpr ?_⟩
  exact ⟨('S', ['a', 'S', 'b']), by decide, by decide, by decide⟩

end Grammar

end ContextFree
