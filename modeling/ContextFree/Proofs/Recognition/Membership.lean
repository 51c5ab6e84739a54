import ContextFree.Proofs.Reachable
import ContextFree.Proofs.Recognition.NormalForm

/-! Normalization, transformation and recognition decide membership.

In normal form with a start symbol that occurs on no right-hand side, the empty
word is derived by its own rule and every other word is composed. The terminals
that are left after normalization are the letters of the language.
-/

set_option autoImplicit false

namespace ContextFree

namespace Grammar

variable {g : Grammar} {start : Symbol}

/-! ### Words as texts -/

theorem filter_ofChar?_eq_some {c : Char} {s : Symbol} :
    (Symbol.ofChar? c).filter g.terminals.contains = some s ↔ c = s.toChar ∧ s ∈ g.terminals := by
  rw [Option.filter_eq_some_iff, Symbol.ofChar?_eq_some, SymbolSet.mem_iff]

theorem readWord_eq_ok {text : String} {chars : List Char} {word : List Symbol} :
    g.readWord text chars = .ok word ↔
      chars = word.map Symbol.toChar ∧ ∀ t ∈ word, t ∈ g.terminals :=
  read_eq_ok rfl (fun _ _ => rfl) (fun _ _ => filter_ofChar?_eq_some)

theorem readWord_eq_error {text : String} {chars : List Char} {fault : Fault}
    (failed : g.readWord text chars = .error fault) :
    fault.kind = .word ∧ ∃ c ∈ chars, ∀ t ∈ g.terminals, t.toChar ≠ c := by
  induction chars with
  | nil => cases failed
  | cons c rest ih =>
    rw [readWord] at failed
    split at failed
    · cases others : g.readWord text rest with
      | ok tail =>
        rw [others] at failed
        cases failed
      | error other =>
        rw [others] at failed
        cases failed
        obtain ⟨kind, d, inside, foreign⟩ := ih others
        exact ⟨kind, d, List.mem_cons_of_mem c inside, foreign⟩
    · rename_i missing
      cases failed
      refine ⟨rfl, c, List.mem_cons_self, fun t terminal same => ?_⟩
      rw [filter_ofChar?_eq_some.mpr ⟨same.symm, terminal⟩] at missing
      cases missing

theorem recognizes_of_isEmpty (empty : g.isEmpty = true) (text : String) :
    g.recognizes text = .error .emptyGrammar := by
  rw [recognizes, table, if_pos empty]
  rfl

theorem recognizes_eq (filled : ¬ g.isEmpty = true) (chosen : g.start = some start)
    (chomsky : g.isChomsky = true) (text : String) :
    g.recognizes text =
      (g.readWord text text.toList).map fun word => (g.tableOf start word).derived := by
  rw [recognizes, table, if_neg filled, requireStart, chosen]
  simp only [bind, Except.bind, chomsky, if_true]
  cases g.readWord text text.toList <;> rfl

/-! ### The whole way -/

def HasWord (g : Grammar) (text : String) : Prop :=
  ∃ word, g.InLanguage word ∧ symbolsText word = text

def UsesLetter (g : Grammar) (c : Char) : Prop :=
  ∃ text, g.HasWord text ∧ c ∈ text.toList

theorem inLanguage_iff (chosen : g.start = some start) {word : List Symbol} :
    g.InLanguage word ↔ g.Generates start word := by
  unfold InLanguage
  rw [chosen]
  simp

theorem hasWord_iff (chosen : g.start = some start) {text : String} :
    g.HasWord text ↔ ∃ word, g.Generates start word ∧ text.toList = word.map Symbol.toChar := by
  unfold HasWord symbolsText
  refine exists_congr fun word => ?_
  rw [inLanguage_iff chosen, ← String.toList_inj, String.toList_ofList, eq_comm]

theorem usesLetter_iff (chosen : g.start = some start) {c : Char} :
    g.UsesLetter c ↔ ∃ word, g.Generates start word ∧ ∃ t ∈ word, t.toChar = c := by
  unfold UsesLetter
  constructor
  · intro ⟨text, found, inside⟩
    obtain ⟨word, generates, letters⟩ := (hasWord_iff chosen).mp found
    rw [letters] at inside
    exact ⟨word, generates, List.mem_map.mp inside⟩
  · intro ⟨word, generates, inside⟩
    refine ⟨symbolsText word, ⟨word, (inLanguage_iff chosen).mpr generates, rfl⟩, ?_⟩
    rw [symbolsText, String.toList_ofList]
    exact List.mem_map.mpr inside

structure Prepared (g : Grammar) (start : Symbol) (final : Grammar) : Prop where
  valid : final.Valid
  chomsky : final.isChomsky = true
  terminals : ∀ t, t ∈ final.terminals ↔ ∃ word, g.Generates start word ∧ t ∈ word
  empty : final.isEmpty = true ↔ ∀ word, ¬ g.Generates start word
  generates : ∃ chosen, final.start = some chosen ∧ final.occursOnRhs chosen = false ∧
    ∀ word, final.Generates chosen word ↔ g.Generates start word

theorem prepared (valid : g.Valid) (chosen : g.start = some start) {fresh : List Symbol}
    (succeeded : g.normalize.grammar.toChomsky.report = .ok fresh) :
    Prepared g start g.normalize.grammar.toChomsky.grammar := by
  have normal := valid.normalize
  have starts := start_normalize chosen
  obtain ⟨again, other, wellFormed, transformed⟩ := transformed_toChomsky normal succeeded
  rw [starts, Option.some.injEq] at other
  subst other
  obtain ⟨_, _, _, useless⟩ := (isWellFormed_iff normal starts).mp wellFormed
  obtain ⟨new, first, isolated, words⟩ := transformed.generates_start
  have same {word : List Symbol} : g.normalize.grammar.Generates start word ↔ g.Generates start word :=
    generates_start_normalize valid chosen
  refine ⟨transformed.valid, transformed.chomsky, fun t => ?_, ?_, new, first, isolated, fun word => ?_⟩
  · rw [transformed.terminals, mem_terminals_iff normal useless]
    simp only [same]
  · rw [isEmpty_iff transformed.valid.pruned]
    constructor
    · intro nothing word generates
      have declared := transformed.valid.start_declared new first
      apply not_generates_of_no_rules transformed.valid nothing declared word
      exact (words word).mpr (same.mpr generates)
    · intro none_derived
      -- normalization has taken all rules, and no stage adds one
      have nothing := (rules_eq_nil_iff normal useless starts).mpr fun word generates =>
        none_derived word (same.mp generates)
      rw [toChomsky_of_no_rules nothing]
      exact nothing
  · rw [words, same]

theorem Prepared.recognizes {final : Grammar} (prepared : Prepared g start final)
    (chosen : g.start = some start) (text : String) :
    ((∀ word, ¬ g.HasWord word) ∧ final.recognizes text = .error .emptyGrammar) ∨
      (∃ word, g.HasWord word) ∧
        ((∃ fault, final.recognizes text = .error fault ∧ fault.kind = .word ∧
            ∃ c ∈ text.toList, ¬ g.UsesLetter c) ∨
          (∀ c ∈ text.toList, g.UsesLetter c) ∧
            ∃ derived, final.recognizes text = .ok derived ∧ (derived = true ↔ g.HasWord text)) := by
  obtain ⟨new, first, isolated, words⟩ := prepared.generates
  by_cases empty : final.isEmpty = true
  · refine .inl ⟨fun word found => ?_, recognizes_of_isEmpty empty text⟩
    obtain ⟨symbols, generates, _⟩ := (hasWord_iff chosen).mp found
    exact prepared.empty.mp empty symbols generates
  · right
    constructor
    · by_contra nothing
      refine empty (prepared.empty.mpr fun word generates => nothing ⟨symbolsText word, word, ?_, rfl⟩)
      exact (inLanguage_iff chosen).mpr generates
    · rw [recognizes_eq empty first prepared.chomsky]
      cases read : final.readWord text text.toList with
      | error fault =>
        obtain ⟨kind, c, inside, foreign⟩ := readWord_eq_error read
        refine .inl ⟨fault, rfl, kind, c, inside, fun used => ?_⟩
        obtain ⟨word, generates, t, found, same⟩ := (usesLetter_iff chosen).mp used
        exact foreign t ((prepared.terminals t).mpr ⟨word, generates, found⟩) same
      | ok symbols =>
        obtain ⟨letters, all⟩ := readWord_eq_ok.mp read
        refine .inr ⟨fun c inside => ?_, _, rfl, ?_⟩
        · rw [letters] at inside
          obtain ⟨t, found, same⟩ := List.mem_map.mp inside
          obtain ⟨word, generates, occurs⟩ := (prepared.terminals t).mp (all t found)
          exact (usesLetter_iff chosen).mpr ⟨word, generates, t, occurs, same⟩
        · have covered := covered_of_chomsky prepared.valid prepared.chomsky first (.inr isolated)
          rw [derived_tableOf prepared.valid prepared.chomsky first covered all, words, hasWord_iff chosen]
          constructor
          · intro generates
            exact ⟨symbols, generates, letters⟩
          · intro ⟨word, generates, spelled⟩
            -- the text is read in one way only
            have same := List.map_injective_iff.mpr (fun _ _ => Symbol.toChar_injective)
              (letters.symm.trans spelled)
            rw [same]
            exact generates

/-- After normalization and transformation the recognizer accepts the words of the
original grammar. It refuses every word if there is none, then every text with a
character of no word, and rejects the rest. -/
theorem recognizes_normalized (reachable : g.Reachable) {report : NormalizationReport}
    {fresh : List Symbol} (normalized : g.normalize.report = .ok report)
    (transformed : g.normalize.grammar.toChomsky.report = .ok fresh) (text : String) :
    (g.normalize.grammar.toChomsky.grammar.recognizes text = .ok true ↔ g.HasWord text) ∧
      ((∃ fault, g.normalize.grammar.toChomsky.grammar.recognizes text = .error fault ∧
          fault.kind = .precondition) ↔ ∀ word, ¬ g.HasWord word) ∧
        ((∃ fault, g.normalize.grammar.toChomsky.grammar.recognizes text = .error fault ∧
            fault.kind = .word) ↔
          (∃ word, g.HasWord word) ∧ ∃ c ∈ text.toList, ¬ g.UsesLetter c) ∧
          (g.normalize.grammar.toChomsky.grammar.recognizes text = .ok false ↔
            (∃ word, g.HasWord word) ∧ (∀ c ∈ text.toList, g.UsesLetter c) ∧ ¬ g.HasWord text) := by
  obtain ⟨start, chosen⟩ : ∃ start, g.start = some start := by
    cases chosen : g.start with
    | none =>
      rw [normalize_of_no_start chosen] at normalized
      cases normalized
    | some start => exact ⟨start, rfl⟩
  have outcome := (prepared reachable.valid chosen transformed).recognizes chosen text
  rcases outcome with ⟨nothing, result⟩ | ⟨⟨word, found⟩, ⟨fault, result, kind, c, inside, foreign⟩ |
    ⟨letters, derived, result, decides⟩⟩
  · simp [result, nothing, Fault.kind]
  · have absent : ¬ g.HasWord text := fun found => foreign ⟨text, found, inside⟩
    have inhabited : ∃ word, g.HasWord word := ⟨word, found⟩
    have some_foreign : ∃ c ∈ text.toList, ¬ g.UsesLetter c := ⟨c, inside, foreign⟩
    rw [result]
    refine ⟨by simp [absent], ?_, ?_, ?_⟩
    · simpa [kind] using inhabited
    · simpa [kind, inhabited] using some_foreign
    · simpa [inhabited, absent] using some_foreign
  · have inhabited : ∃ word, g.HasWord word := ⟨word, found⟩
    rw [result]
    refine ⟨?_, ?_, ?_, ?_⟩
    · rw [Except.ok.injEq, decides]
    · simpa using inhabited
    · simpa using fun _ _ => letters
    · rw [Except.ok.injEq, and_iff_right inhabited, and_iff_right letters, ← decides, Bool.not_eq_true]

theorem recognizes_balanced : balanced.HasWord "aabb" ∧ ¬ balanced.HasWord "aab" := by
  obtain ⟨report, normalized⟩ := normalize_succeeds (show balanced.start = some ⟨28⟩ from rfl)
  have transformed : balanced.normalize.grammar.toChomsky.report = .ok [⟨35⟩, ⟨34⟩, ⟨33⟩, ⟨32⟩] := by
    decide +kernel
  have decides := recognizes_normalized reachable_balanced normalized transformed
  constructor
  · apply (decides "aabb").1.mp
    decide +kernel
  · intro found
    have accepted := (decides "aab").1.mpr found
    revert accepted
    decide +kernel

end Grammar

end ContextFree
