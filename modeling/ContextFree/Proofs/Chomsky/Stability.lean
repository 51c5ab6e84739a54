import ContextFree.Proofs.Chomsky.Connected
import ContextFree.Proofs.Recognition.Membership

/-! A second transformation into Chomsky normal form.

The result of a transformation is well-formed again, and there is nothing left to do for
a second one. There is one exception: if the start symbol occurs on a right-hand side and
has the empty word only, then it loses this word to the new start symbol and is useless
from then on.
-/

set_option autoImplicit false

namespace ContextFree

namespace Grammar

variable {g : Grammar} {start : Symbol}

/-- The start symbol occurs on a right-hand side, and the empty word is the only one. -/
def Degenerate (g : Grammar) : Prop :=
  g.start.any g.occursOnRhs = true ∧ ∀ word, g.InLanguage word ↔ word = []

theorem degenerate_iff (chosen : g.start = some start) :
    g.Degenerate ↔ g.occursOnRhs start = true ∧ ∀ word, g.Generates start word ↔ word = [] := by
  rw [Degenerate, chosen, Option.any_some]
  simp only [inLanguage_iff chosen]

/-! ### Normal forms -/

theorem isWellFormed_of_connected (valid : g.Valid) (chosen : g.start = some start)
    (chomsky : g.isChomsky = true) (isolated : g.occursOnRhs start = false)
    (connected : g.Connected start) : g.isWellFormed = true := by
  obtain ⟨_, useless⟩ := (connected_iff valid (valid.start_declared start chosen)).mp connected
  refine (isWellFormed_iff valid chosen).mpr ⟨?_, ?_, ?_, useless⟩
  · exact fun rule => eq_start_of_epsilon chomsky chosen
  · intro rule member
    by_contra unit
    obtain ⟨target, found⟩ := Option.ne_none_iff_exists'.mp unit
    obtain ⟨shape, declared⟩ := unitTarget?_eq_some.mp found
    rcases chomsky_cases chomsky member with ⟨empty, _⟩ | ⟨t, terminal, single⟩ | ⟨_, _, _, _, pair⟩
    · simp [shape, Rhs.toList] at empty
    · simp only [shape, Rhs.toList, List.cons.injEq, and_true] at single
      rw [single] at declared
      exact valid.not_terminal declared terminal
    · simp [shape, Rhs.toList] at pair
  · exact covered_of_chomsky valid chomsky chosen (.inr isolated)

theorem draftChomsky_of_chomsky (valid : g.Valid) (chomsky : g.isChomsky = true)
    (isolated : g.occursOnRhs start = false) : g.draftChomsky start = .ok (.ofGrammar g) := by
  have short : ∀ rule ∈ g.rules, rule.rhs.length ≤ 2 ∧ Draft.isMixed g rule = false := by
    intro rule member
    rw [← Bool.not_eq_true, Draft.isMixed_iff, Rhs.length]
    rcases chomsky_cases chomsky member with ⟨empty, _⟩ | ⟨t, _, single⟩ | ⟨left, one, right, two, pair⟩
    · simp [empty]
    · simp [single]
    · simp [pair, valid.not_terminal one, valid.not_terminal two]
  have unmixed : g.rules.filter (Draft.isMixed g) = [] := by
    rw [List.filter_eq_nil_iff]
    intro rule member
    rw [(short rule member).2]
    exact Bool.false_ne_true
  have cut : (g.rules.filter fun rule => decide (2 < rule.rhs.length)) = [] := by
    rw [List.filter_eq_nil_iff]
    intro rule member
    rw [decide_eq_true_eq]
    exact Nat.not_lt.mpr (short rule member).1
  simp [draftChomsky, Draft.isolateStart, Draft.ofGrammar, isolated, bind, Except.bind,
    Draft.isolateTerminals, unmixed, Draft.wrapRules, Draft.binarize, cut, Draft.splitRules]

theorem toChomsky_of_chomsky (valid : g.Valid) (chosen : g.start = some start)
    (wellFormed : g.isWellFormed = true) (chomsky : g.isChomsky = true)
    (isolated : g.occursOnRhs start = false) :
    g.toChomsky.report = .ok [] ∧ g.toChomsky.grammar = g := by
  unfold toChomsky
  rw [chosen]
  simp only [wellFormed, if_true, draftChomsky_of_chomsky valid chomsky isolated]
  exact ⟨rfl, rfl⟩

theorem toChomsky_of_not_wellFormed (malformed : g.isWellFormed = false) :
    g.toChomsky.report = .error .notWellFormed ∧ g.toChomsky.grammar = g := by
  unfold toChomsky
  split
  · exact ⟨rfl, rfl⟩
  · rw [malformed]
    exact ⟨rfl, rfl⟩

/-! ### The result -/

structure Staged (g : Grammar) (start : Symbol) (first second third : Draft) : Prop where
  started : Draft.Started g start first
  isolated : Draft.Isolated g start first
  reworded : ∃ new, Draft.Reworded (Draft.mixedRules first.grammar) (Draft.wrappers first.grammar) new
    first second
  valid : second.grammar.Valid
  cut : ∃ new, Draft.Cut (Draft.longRules second.grammar) [] new second third
  start : third.grammar.start = first.grammar.start

theorem exists_staged (valid : g.Valid) (chosen : g.start = some start)
    (wellFormed : g.isWellFormed = true) {draft : Draft} (drafted : g.draftChomsky start = .ok draft) :
    ∃ first second, Staged g start first second draft := by
  obtain ⟨first, one, drafted⟩ := bind_eq_ok drafted
  obtain ⟨second, two, three⟩ := bind_eq_ok drafted
  have isolated := Draft.isolated_isolateStart valid chosen wellFormed one
  obtain ⟨meaning, plain⟩ := isolated.isolateTerminals two
  obtain ⟨later, final, _⟩ := plain.binarize three
  have starts := Draft.ends_isolateStart g start
  have terminals := Draft.ends_isolateTerminals isolated.valid isolated.toSupplied
  have suffixes := Draft.ends_binarize second
  rw [one] at starts
  rw [two] at terminals
  rw [three] at suffixes
  exact ⟨first, second, starts.of_ok, isolated, terminals.of_ok, plain.valid, suffixes.of_ok,
    final.simulates.start⟩

/-- The stages keep a grammar connected where the old start symbol has a word to keep. -/
theorem Staged.connected {first second third : Draft} (staged : Staged g start first second third)
    (valid : g.Valid) (chosen : g.start = some start) (wellFormed : g.isWellFormed = true)
    (connected : g.Connected start)
    (filled : g.occursOnRhs start = true → ∃ word, word ≠ [] ∧ g.Generates start word) :
    ∃ letter, third.grammar.start = some letter ∧ third.grammar.Connected letter := by
  obtain ⟨_, reworded⟩ := staged.reworded
  obtain ⟨_, cut⟩ := staged.cut
  obtain ⟨letter, starts, connected⟩ :=
    connected.of_started valid chosen wellFormed staged.started staged.isolated filled
  refine ⟨letter, staged.start.trans starts, ?_⟩
  exact cut.connected (reworded.connected connected staged.isolated.valid) staged.valid

theorem Staged.nonterminals {first second third : Draft} (staged : Staged g start first second third)
    {s : Symbol} (declared : s ∈ g.nonterminals) : s ∈ third.grammar.nonterminals := by
  obtain ⟨_, reworded⟩ := staged.reworded
  obtain ⟨_, cut⟩ := staged.cut
  rw [cut.takes.mem_nonterminals, reworded.takes.mem_nonterminals]
  exact .inl (.inl (staged.isolated.nonterminals s declared))

theorem Degenerate.not_wellFormed (valid : g.Valid) (chosen : g.start = some start)
    (wellFormed : g.isWellFormed = true) {draft : Draft} (drafted : g.draftChomsky start = .ok draft)
    (degenerate : g.Degenerate) : draft.grammar.isWellFormed = false := by
  -- the old start symbol is useless if it has the empty word only and loses it
  obtain ⟨occurs, only⟩ := (degenerate_iff chosen).mp degenerate
  have declared := valid.start_declared start chosen
  obtain ⟨first, second, staged⟩ := exists_staged valid chosen wellFormed drafted
  obtain ⟨valid, chomsky, _, ⟨new, starts, isolated, words⟩, kept⟩ :=
    transformed_draftChomsky valid chosen wellFormed drafted
  have other : start ≠ new := by
    cases staged.started with
    | same absent =>
      rw [occurs] at absent
      cases absent
    | moved _ unused _ grammar =>
      rw [staged.start, grammar] at starts
      cases starts
      rintro rfl
      exact unused (mem_symbols.mpr (.inl declared))
  rw [← Bool.not_eq_true]
  intro again
  obtain ⟨_, _, _, useless⟩ := (isWellFormed_iff valid starts).mp again
  have reaches := ((findsUseless_eq_false valid).mp useless).1 start
    (mem_symbols.mpr (.inl (staged.nonterminals declared)))
  have productive : new ∈ draft.grammar.productive :=
    (mem_productive_iff valid).mpr ⟨[], (words []).mpr ((only []).mpr rfl)⟩
  obtain ⟨word, generates⟩ := (mem_productive_iff valid).mp (reaches.productive productive)
  by_cases empty : word = []
  · subst empty
    exact other (eq_start_of_generates_nil valid chomsky starts isolated generates)
  · exact empty ((only word).mp ((kept start declared word empty).mp generates))

theorem wellFormed_of_not_degenerate (valid : g.Valid) (chosen : g.start = some start)
    (wellFormed : g.isWellFormed = true) {draft : Draft} (drafted : g.draftChomsky start = .ok draft)
    (result : g.toChomsky.grammar = draft.grammar)
    (regular : ¬ g.Degenerate) : draft.grammar.isWellFormed = true := by
  obtain ⟨_, _, _, useless⟩ := (isWellFormed_iff valid chosen).mp wellFormed
  by_cases productive : start ∈ g.productive
  · have connected := (connected_iff valid (valid.start_declared start chosen)).mpr ⟨productive, useless⟩
    have transformed := transformed_draftChomsky valid chosen wellFormed drafted
    obtain ⟨new, starts, isolated, _⟩ := transformed.generates_start
    obtain ⟨first, second, staged⟩ := exists_staged valid chosen wellFormed drafted
    obtain ⟨letter, same, connected⟩ := staged.connected valid chosen wellFormed connected fun occurs => by
      by_contra none_filled
      have only : ∀ word, g.Generates start word → word = [] := fun word generates =>
        by_contra fun filled => none_filled ⟨word, filled, generates⟩
      refine regular ((degenerate_iff chosen).mpr ⟨occurs, fun word => ⟨only word, ?_⟩⟩)
      rintro rfl
      obtain ⟨word, generates⟩ := (mem_productive_iff valid).mp productive
      rwa [only word generates] at generates
    rw [Option.some.inj (same.symm.trans starts)] at connected
    exact isWellFormed_of_connected transformed.valid starts transformed.chomsky isolated connected
  · -- there is no rule, so that nothing changes
    have nothing := (rules_eq_nil_iff valid useless chosen).mpr fun word generates =>
      productive ((mem_productive_iff valid).mpr ⟨word, generates⟩)
    rw [← result, toChomsky_of_no_rules nothing]
    exact wellFormed

/-- The result of a transformation is well-formed, and a second transformation takes no
letter and changes nothing. Only if the start symbol occurs on a right-hand side and the
empty word is the only word, the result is not well-formed and the second one fails. -/
theorem toChomsky_stable (valid : g.Valid) {fresh : List Symbol}
    (succeeded : g.toChomsky.report = .ok fresh) :
    (¬ g.Degenerate →
      g.toChomsky.grammar.isWellFormed = true ∧ g.toChomsky.grammar.toChomsky.report = .ok [] ∧
        g.toChomsky.grammar.toChomsky.grammar = g.toChomsky.grammar) ∧
      (g.Degenerate →
        g.toChomsky.grammar.isWellFormed = false ∧
          (∃ fault, g.toChomsky.grammar.toChomsky.report = .error fault ∧ fault.kind = .precondition) ∧
            g.toChomsky.grammar.toChomsky.grammar = g.toChomsky.grammar) := by
  obtain ⟨start, draft, chosen, wellFormed, drafted, result⟩ := exists_draft succeeded
  have transformed := transformed_draftChomsky valid chosen wellFormed drafted
  obtain ⟨new, starts, isolated, _⟩ := transformed.generates_start
  rw [result]
  constructor
  · intro regular
    have again := wellFormed_of_not_degenerate valid chosen wellFormed drafted result regular
    exact ⟨again, toChomsky_of_chomsky transformed.valid starts again transformed.chomsky isolated⟩
  · intro degenerate
    have malformed := degenerate.not_wellFormed valid chosen wellFormed drafted
    obtain ⟨refused, same⟩ := toChomsky_of_not_wellFormed malformed
    exact ⟨malformed, ⟨_, refused, rfl⟩, same⟩

/-- The rules `S ::= l` and `S ::= SS`. Symbol 28 is `S`. -/
def idle : Grammar :=
  (((empty.declare ⟨28⟩ .nonterminal).addRule ⟨28⟩ .epsilon).addRule ⟨28⟩
    (.sequence [⟨28⟩, ⟨28⟩])).withStart ⟨28⟩

theorem degenerate_idle : idle.Degenerate := by
  have chosen : idle.start = some ⟨28⟩ := rfl
  have letters : idle.terminals.toList = [] := by decide +kernel
  refine (degenerate_iff chosen).mpr ⟨by decide +kernel, fun word => ⟨?_, ?_⟩⟩
  · intro ⟨_, final⟩
    -- there are no terminals to make a word of
    apply List.eq_nil_iff_forall_not_mem.mpr
    intro t inside
    have terminal := SymbolSet.mem_toList.mpr (final t inside)
    rw [letters] at terminal
    cases terminal
  · rintro rfl
    exact generates_nil_of_epsilon (by decide +kernel)

theorem toChomsky_stable_balanced :
    balanced.normalize.grammar.toChomsky.grammar.toChomsky.report = .ok [] ∧
      idle.toChomsky.report = .ok [⟨35⟩] ∧ idle.toChomsky.grammar.isWellFormed = false := by
  have first : balanced.normalize.grammar.toChomsky.report = .ok [⟨35⟩, ⟨34⟩, ⟨33⟩, ⟨32⟩] := by
    decide +kernel
  have second : idle.toChomsky.report = .ok [⟨35⟩] := by decide +kernel
  have regular : ¬ balanced.normalize.grammar.Degenerate := by
    have member : (⟨⟨28⟩, .sequence [⟨36⟩, ⟨37⟩]⟩ : Rule) ∈ balanced.normalize.grammar.rules := by
      decide +kernel
    have generates : balanced.normalize.grammar.Generates ⟨28⟩ [⟨36⟩, ⟨37⟩] := by
      have first : balanced.normalize.grammar.Generates ⟨36⟩ [⟨36⟩] := .of_terminal (by decide +kernel)
      have second : balanced.normalize.grammar.Generates ⟨37⟩ [⟨37⟩] := .of_terminal (by decide +kernel)
      exact .of_rule member (.cons first (Spells.singleton_iff.mpr second))
    intro degenerate
    cases (degenerate.2 _).mp ⟨⟨28⟩, by decide +kernel, generates⟩
  refine ⟨((toChomsky_stable valid_balanced.normalize first).1 regular).2.1, second, ?_⟩
  exact ((toChomsky_stable (by decide +kernel) second).2 degenerate_idle).1

end Grammar

end ContextFree
