import ContextFree.Grammar.Load
import ContextFree.Proofs.Parsing

/-! What a text describes is what is read from it.

A text describes rules: every line that is not blank is a left-hand side, `::=` and
alternatives between bars, with blanks around them. Such a text is read if no rule
is described twice, and reading enters one rule after the other. No other text is
read.
-/

set_option autoImplicit false

namespace ContextFree

def Rule.symbols (rule : Rule) : List Symbol :=
  rule.lhs :: rule.rhs.toList

/-- The rule can be described by a text. -/
structure Rule.Writable (rule : Rule) : Prop where
  lhs : Kind.ofChar? rule.lhs.toChar = some .nonterminal
  proper : rule.rhs ≠ .sequence []
  rhs : ∀ s ∈ rule.rhs.toList, s.Declarable

theorem Rule.Writable.symbols {rule : Rule} (writable : rule.Writable) :
    ∀ s ∈ rule.symbols, s.Declarable :=
  List.forall_mem_cons.mpr ⟨⟨_, writable.lhs⟩, writable.rhs⟩

namespace Grammar

variable {g next : Grammar}

/-! ### Entering rules -/

def declareByCase (g : Grammar) (s : Symbol) : Grammar :=
  match Kind.ofChar? s.toChar with
  | some kind => g.declare s kind
  | none => g

@[simp] theorem rules_declareByCase (g : Grammar) (s : Symbol) : (g.declareByCase s).rules = g.rules := by
  unfold declareByCase
  split <;> simp

theorem mem_symbols_declareByCase {s t : Symbol} (declarable : s.Declarable) :
    t ∈ (g.declareByCase s).symbols ↔ t ∈ g.symbols ∨ t = s := by
  obtain ⟨kind, allowed⟩ := declarable
  simp only [declareByCase, allowed, mem_symbols]
  cases kind with
  | terminal => simp [declare, or_assoc]
  | nonterminal => simp [declare, or_right_comm]

theorem Valid.declareByCase (valid : g.Valid) (s : Symbol) : (g.declareByCase s).Valid := by
  unfold Grammar.declareByCase
  split
  · rename_i allowed
    exact valid.declare allowed
  · exact valid

theorem declareByCase_of_mem (valid : g.Valid) {s : Symbol} (member : s ∈ g.symbols) :
    g.declareByCase s = g := by
  have put {set : SymbolSet} (inside : s ∈ set) : set.put s = set := by
    apply (SymbolSet.grown_put set s).antisymm
    intro t stored
    rcases SymbolSet.mem_put.mp stored with old | rfl
    · exact old
    · exact inside
  rcases mem_symbols.mp member with declared | declared
  · simp [declareByCase, valid.nonterminal_case s declared, declare, put declared]
  · simp [declareByCase, valid.terminal_case s declared, declare, put declared]

def declareAll (g : Grammar) (symbols : List Symbol) : Grammar :=
  symbols.foldl declareByCase g

@[simp] theorem rules_declareAll (g : Grammar) (symbols : List Symbol) :
    (g.declareAll symbols).rules = g.rules := by
  unfold declareAll
  induction symbols generalizing g with
  | nil => rfl
  | cons s rest ih => rw [List.foldl_cons, ih, rules_declareByCase]

theorem mem_symbols_declareAll {symbols : List Symbol} (declarable : ∀ s ∈ symbols, s.Declarable) {t : Symbol} :
    t ∈ (g.declareAll symbols).symbols ↔ t ∈ g.symbols ∨ t ∈ symbols := by
  unfold declareAll
  induction symbols generalizing g with
  | nil => simp
  | cons s rest ih =>
    obtain ⟨first, others⟩ := List.forall_mem_cons.mp declarable
    rw [List.foldl_cons, ih others, mem_symbols_declareByCase first, List.mem_cons, or_assoc]

theorem Valid.declareAll (valid : g.Valid) (symbols : List Symbol) : (g.declareAll symbols).Valid := by
  unfold Grammar.declareAll
  induction symbols generalizing g with
  | nil => exact valid
  | cons s rest ih => exact ih (valid.declareByCase s)

def enter (g : Grammar) (rule : Rule) : Grammar :=
  (g.declareAll rule.symbols).addRule rule.lhs rule.rhs

theorem mem_rules_enter {rule other : Rule} :
    other ∈ (g.enter rule).rules ↔ other = rule ∨ other ∈ g.rules := by
  rw [enter, mem_rules_addRule, rules_declareAll]

theorem mem_symbols_enter {rule : Rule} (writable : rule.Writable) {s : Symbol} :
    s ∈ (g.enter rule).symbols ↔ s ∈ g.symbols ∨ s ∈ rule.symbols := by
  rw [enter, (same_addRule _ _ _).symbols, mem_symbols_declareAll writable.symbols]

theorem Valid.enter (valid : g.Valid) {rule : Rule} (writable : rule.Writable) : (g.enter rule).Valid := by
  have declared {s : Symbol} (member : s ∈ rule.symbols) : s ∈ (g.declareAll rule.symbols).symbols :=
    (mem_symbols_declareAll writable.symbols).mpr (.inr member)
  have larger := valid.declareAll rule.symbols
  refine larger.addRule ⟨?_, writable.proper, fun s member => declared (List.mem_cons_of_mem _ member)⟩
  exact larger.mem_nonterminals_iff.mpr ⟨declared List.mem_cons_self, writable.lhs⟩

def enterAll (g : Grammar) (rules : List Rule) : Grammar :=
  rules.foldl enter g

@[simp] theorem enterAll_cons (g : Grammar) (rule : Rule) (rest : List Rule) :
    g.enterAll (rule :: rest) = (g.enter rule).enterAll rest :=
  rfl

theorem enterAll_append (g : Grammar) (first second : List Rule) :
    g.enterAll (first ++ second) = (g.enterAll first).enterAll second :=
  List.foldl_append

theorem mem_rules_enterAll {rules : List Rule} {rule : Rule} :
    rule ∈ (g.enterAll rules).rules ↔ rule ∈ g.rules ∨ rule ∈ rules := by
  induction rules generalizing g with
  | nil => simp [enterAll]
  | cons head rest ih =>
    rw [enterAll_cons, ih, mem_rules_enter, List.mem_cons, or_comm (a := rule = head), or_assoc]

theorem mem_symbols_enterAll {rules : List Rule} (writable : ∀ rule ∈ rules, rule.Writable) {s : Symbol} :
    s ∈ (g.enterAll rules).symbols ↔ s ∈ g.symbols ∨ ∃ rule ∈ rules, s ∈ rule.symbols := by
  induction rules generalizing g with
  | nil => simp [enterAll]
  | cons head rest ih =>
    obtain ⟨first, others⟩ := List.forall_mem_cons.mp writable
    rw [enterAll_cons, ih others, mem_symbols_enter first, or_assoc, List.exists_mem_cons_iff]

theorem Valid.enterAll (valid : g.Valid) {rules : List Rule} (writable : ∀ rule ∈ rules, rule.Writable) :
    (g.enterAll rules).Valid := by
  induction rules generalizing g with
  | nil => exact valid
  | cons head rest ih =>
    obtain ⟨first, others⟩ := List.forall_mem_cons.mp writable
    exact ih (valid.enter first) others

theorem rules_empty : empty.rules = [] :=
  rfl

/-- The rules are new to the grammar, and no rule is there twice. -/
def New (g : Grammar) (rules : List Rule) : Prop :=
  rules.Nodup ∧ ∀ rule ∈ rules, rule ∉ g.rules

theorem new_cons {rule : Rule} {rest : List Rule} :
    g.New (rule :: rest) ↔ rule ∉ g.rules ∧ (g.enter rule).New rest := by
  simp only [New, List.nodup_cons, List.forall_mem_cons, mem_rules_enter, not_or]
  constructor
  · intro ⟨⟨apart, nodup⟩, missing, others⟩
    refine ⟨missing, nodup, fun other member => ⟨?_, others other member⟩⟩
    rintro rfl
    exact apart member
  · intro ⟨missing, nodup, others⟩
    exact ⟨⟨fun member => (others rule member).1 rfl, nodup⟩, missing, fun other member => (others other member).2⟩

theorem new_append {first second : List Rule} :
    g.New (first ++ second) ↔ g.New first ∧ (g.enterAll first).New second := by
  induction first generalizing g with
  | nil => simp [New, enterAll]
  | cons rule rest ih => rw [List.cons_append, new_cons, ih, new_cons, and_assoc, enterAll_cons]

/-! ### Symbols and right-hand sides -/

theorem declareChar_eq_ok (valid : g.Valid) {c : Char} :
    g.declareChar c = .ok next ↔ ∃ s, c = s.toChar ∧ s.Declarable ∧ next = g.declareByCase s := by
  unfold declareChar
  split
  · rename_i t found
    obtain ⟨same, member⟩ := declared?_eq_some.mp found
    constructor
    · intro succeeded
      cases succeeded
      exact ⟨t, same, valid.declarable member, (declareByCase_of_mem valid member).symm⟩
    · rintro ⟨s, spelled, _, rfl⟩
      rw [← Symbol.toChar_injective (same.symm.trans spelled), declareByCase_of_mem valid member]
  · rename_i t kind _ found allowed
    have same := Symbol.ofChar?_eq_some.mp found
    rw [same] at allowed
    have entered : g.declareByCase t = g.declare t kind := by simp [declareByCase, allowed]
    constructor
    · intro succeeded
      cases succeeded
      exact ⟨t, same, ⟨kind, allowed⟩, entered.symm⟩
    · rintro ⟨s, spelled, _, rfl⟩
      rw [← Symbol.toChar_injective (same.symm.trans spelled), entered]
  · rename_i refused
    constructor
    · intro impossible
      cases impossible
    · rintro ⟨s, rfl, ⟨kind, allowed⟩, _⟩
      exact absurd allowed (refused s kind (Symbol.ofChar?_toChar s))

theorem declareChars_eq_ok (valid : g.Valid) {offset : Nat} {cs : List Char} :
    g.declareChars offset cs = .ok next ↔ ∃ symbols : List Symbol, cs = symbols.map Symbol.toChar ∧
      (∀ s ∈ symbols, s.Declarable) ∧ next = g.declareAll symbols := by
  induction cs generalizing g offset with
  | nil =>
    rw [declareChars]
    constructor
    · intro succeeded
      cases succeeded
      exact ⟨[], rfl, by simp, rfl⟩
    · rintro ⟨symbols, spelled, _, rfl⟩
      rw [List.map_eq_nil_iff.mp spelled.symm]
      rfl
  | cons c rest ih =>
    rw [declareChars]
    constructor
    · intro succeeded
      split at succeeded
      · rename_i middle declared
        obtain ⟨s, rfl, first, rfl⟩ := (declareChar_eq_ok valid).mp declared
        obtain ⟨symbols, rfl, others, rfl⟩ := (ih (valid.declareByCase s)).mp succeeded
        exact ⟨s :: symbols, rfl, List.forall_mem_cons.mpr ⟨first, others⟩, rfl⟩
      · cases succeeded
    · rintro ⟨symbols, spelled, declarable, rfl⟩
      cases symbols with
      | nil => cases spelled
      | cons s symbols =>
        obtain ⟨same, others⟩ := List.cons.inj spelled
        obtain ⟨first, rest⟩ := List.forall_mem_cons.mp declarable
        rw [(declareChar_eq_ok valid).mpr ⟨s, same, first, rfl⟩]
        exact (ih (valid.declareByCase s)).mpr ⟨symbols, others, rest, rfl⟩

theorem declareAlternative_eq_ok (valid : g.Valid) {offset : Nat} {cs : List Char} :
    (if cs = ['l'] then .ok g else g.declareChars offset cs) = .ok next ↔
      ∃ rhs : Rhs, cs = rhs.chars ∧ (∀ s ∈ rhs.toList, s.Declarable) ∧ next = g.declareAll rhs.toList := by
  split
  · rename_i letter
    constructor
    · intro succeeded
      cases succeeded
      exact ⟨.epsilon, letter, by simp [Rhs.toList], rfl⟩
    · rintro ⟨rhs, spelled, declarable, rfl⟩
      have empty : rhs = .epsilon :=
        Rhs.chars_injective declarable (by simp [Rhs.toList]) (spelled.symm.trans letter)
      rw [empty]
      rfl
  · rename_i other
    rw [declareChars_eq_ok valid]
    constructor
    · rintro ⟨symbols, spelled, declarable, rfl⟩
      exact ⟨.sequence symbols, spelled, declarable, rfl⟩
    · rintro ⟨rhs, spelled, declarable, rfl⟩
      cases rhs with
      | epsilon => exact absurd spelled other
      | sequence symbols => exact ⟨symbols, spelled, declarable, rfl⟩

/-! ### Alternatives and lines -/

theorem addProduction_eq_ok {c : Char} {text : String} {offset : Nat} :
    (match (g.addProduction c text).report with
      | .ok () => .ok (g.addProduction c text).grammar
      | .error fault => .error (.refused fault, offset) : Except LineError Grammar) = .ok next ↔
      ∃ rule, g.parseRule c text = .ok rule ∧ rule ∉ g.rules ∧ next = g.addRule rule.lhs rule.rhs := by
  unfold addProduction
  cases parsed : g.parseRule c text with
  | error fault => simp [Change.refuse]
  | ok rule =>
    by_cases present : rule ∈ g.rules
    · simp [present, Change.refuse]
    · simpa [present, Change.accept] using eq_comm

/-- An alternative is read in two steps: its symbols are declared, then it is added. -/
theorem loadAlternative_eq (g : Grammar) (lhs : Char) (offset : Nat) (alternative : List Char) :
    g.loadAlternative lhs offset alternative =
      (if Text.trim alternative = ['l'] then .ok g
        else g.declareChars (offset + Text.indent alternative) (Text.trim alternative)) >>= fun g =>
      match (g.addProduction lhs (String.ofList (Text.trim alternative))).report with
      | .ok () => .ok (g.addProduction lhs (String.ofList (Text.trim alternative))).grammar
      | .error fault => .error (.refused fault, offset + Text.indent alternative) := by
  unfold loadAlternative
  simp only
  split <;> rfl

theorem loadAlternative_eq_ok (valid : g.Valid) {lhs : Symbol} (declared : lhs ∈ g.nonterminals)
    {offset : Nat} {alternative : List Char} :
    g.loadAlternative lhs.toChar offset alternative = .ok next ↔
      ∃ rhs : Rhs, Text.trim alternative = rhs.chars ∧ Rule.Writable ⟨lhs, rhs⟩ ∧
        ⟨lhs, rhs⟩ ∉ g.rules ∧ next = g.enter ⟨lhs, rhs⟩ := by
  -- the reader declares the right-hand side only, the left-hand side is declared by then
  have kept (rhs : Rhs) : g.declareAll (Rule.symbols ⟨lhs, rhs⟩) = g.declareAll rhs.toList := by
    rw [declareAll, Rule.symbols, List.foldl_cons,
      declareByCase_of_mem valid (mem_symbols.mpr (.inl declared)), declareAll]
  rw [loadAlternative_eq, bind_eq_ok_iff]
  simp only [declareAlternative_eq_ok valid, addProduction_eq_ok]
  constructor
  · rintro ⟨_, ⟨rhs, spelled, declarable, rfl⟩, ⟨head, body⟩, parsed, missing, rfl⟩
    obtain ⟨same, written, admits⟩ := (parseRule_eq_ok (valid.declareAll _)).mp parsed
    obtain rfl : lhs = head := Symbol.toChar_injective same
    have body_declarable (s : Symbol) (inside : s ∈ body.toList) : s.Declarable :=
      (valid.declareAll _).declarable (admits.declared s inside)
    rw [String.toList_ofList, spelled] at written
    cases Rhs.chars_injective declarable body_declarable written
    rw [rules_declareAll] at missing
    refine ⟨rhs, spelled, ⟨valid.nonterminal_case lhs declared, admits.proper, declarable⟩, missing, ?_⟩
    rw [enter, kept]
  · rintro ⟨rhs, spelled, writable, missing, rfl⟩
    refine ⟨_, ⟨rhs, spelled, writable.rhs, rfl⟩, ⟨lhs, rhs⟩, ?_, ?_, ?_⟩
    · refine (parseRule_eq_ok (valid.declareAll _)).mpr ⟨rfl, ?_, ?_, writable.proper, ?_⟩
      · rw [String.toList_ofList, spelled]
      · refine (valid.declareAll _).mem_nonterminals_iff.mpr ⟨?_, writable.lhs⟩
        exact (mem_symbols_declareAll writable.rhs).mpr (.inl (mem_symbols.mpr (.inl declared)))
      · intro s inside
        exact (mem_symbols_declareAll writable.rhs).mpr (.inr inside)
    · rw [rules_declareAll]
      exact missing
    · rw [enter, kept]

theorem loadAlternatives_eq_ok (valid : g.Valid) {lhs : Symbol} (declared : lhs ∈ g.nonterminals)
    {offset : Nat} {alternatives : List (List Char)} :
    g.loadAlternatives lhs.toChar offset alternatives = .ok next ↔
      ∃ bodies : List Rhs, alternatives.map Text.trim = bodies.map Rhs.chars ∧
        (∀ rhs ∈ bodies, Rule.Writable ⟨lhs, rhs⟩) ∧ g.New (bodies.map (Rule.mk lhs)) ∧
          next = g.enterAll (bodies.map (Rule.mk lhs)) := by
  induction alternatives generalizing g offset with
  | nil =>
    rw [loadAlternatives]
    constructor
    · intro succeeded
      cases succeeded
      exact ⟨[], rfl, by simp, by simp [New], rfl⟩
    · rintro ⟨bodies, spelled, _, _, rfl⟩
      rw [List.map_eq_nil_iff.mp spelled.symm]
      rfl
  | cons alternative rest ih =>
    have remains {rhs : Rhs} (writable : Rule.Writable ⟨lhs, rhs⟩) :
        lhs ∈ (g.enter ⟨lhs, rhs⟩).nonterminals := by
      refine (valid.enter writable).mem_nonterminals_iff.mpr ⟨?_, writable.lhs⟩
      exact (mem_symbols_enter writable).mpr (.inr List.mem_cons_self)
    rw [loadAlternatives, bind_eq_ok_iff]
    constructor
    · rintro ⟨_, first, others⟩
      obtain ⟨rhs, spelled, writable, missing, rfl⟩ := (loadAlternative_eq_ok valid declared).mp first
      obtain ⟨bodies, more, all, new, rfl⟩ := (ih (valid.enter writable) (remains writable)).mp others
      refine ⟨rhs :: bodies, ?_, List.forall_mem_cons.mpr ⟨writable, all⟩, new_cons.mpr ⟨missing, new⟩, rfl⟩
      rw [List.map_cons, List.map_cons, spelled, more]
    · rintro ⟨bodies, spelled, writable, new, rfl⟩
      cases bodies with
      | nil => cases spelled
      | cons rhs bodies =>
        obtain ⟨same, more⟩ := List.cons.inj spelled
        obtain ⟨first, others⟩ := List.forall_mem_cons.mp writable
        obtain ⟨missing, new⟩ := new_cons.mp new
        exact ⟨_, (loadAlternative_eq_ok valid declared).mpr ⟨rhs, same, first, missing, rfl⟩,
          (ih (valid.enter first) (remains first)).mpr ⟨bodies, more, others, new, rfl⟩⟩

theorem declareChar_defined (valid : g.Valid) {c : Char} {s : Symbol} :
    g.declareChar c = .ok next ∧ next.defined c .nonterminal = .ok s ↔
      c = s.toChar ∧ Kind.ofChar? s.toChar = some .nonterminal ∧ next = g.declareByCase s := by
  rw [declareChar_eq_ok valid, defined_eq_ok]
  constructor
  · rintro ⟨⟨t, spelled, _, rfl⟩, same, declared⟩
    obtain rfl : s = t := Symbol.toChar_injective (same.symm.trans spelled)
    exact ⟨same, (valid.declareByCase s).nonterminal_case s declared, rfl⟩
  · rintro ⟨same, upper, rfl⟩
    have declarable : s.Declarable := ⟨_, upper⟩
    refine ⟨⟨s, same, declarable, rfl⟩, same, ?_⟩
    exact (valid.declareByCase s).mem_nonterminals_iff.mpr
      ⟨(mem_symbols_declareByCase declarable).mpr (.inr rfl), upper⟩

theorem loadLhs_eq_ok (valid : g.Valid) {c : Char} :
    g.loadLhs c = .ok next ↔ ∃ lhs : Symbol,
      c = lhs.toChar ∧ Kind.ofChar? lhs.toChar = some .nonterminal ∧ next = g.declareByCase lhs := by
  rw [loadLhs, bind_eq_ok_iff]
  constructor
  · rintro ⟨middle, declared, found⟩
    split at found
    · rename_i lhs defined
      cases found
      exact ⟨lhs, (declareChar_defined valid).mp ⟨declared, defined⟩⟩
    · cases found
  · rintro ⟨lhs, described⟩
    obtain ⟨declared, defined⟩ := (declareChar_defined valid).mpr described
    exact ⟨next, declared, by rw [defined]⟩

theorem loadStart_eq_ok (valid : g.Valid) {c : Char} :
    g.loadStart c = .ok next ↔ ∃ start : Symbol, c = start.toChar ∧
      Kind.ofChar? start.toChar = some .nonterminal ∧ next = (g.declareByCase start).withStart start := by
  rw [loadStart, bind_eq_ok_iff]
  constructor
  · rintro ⟨middle, declared, found⟩
    split at found
    · rename_i start defined
      cases found
      obtain ⟨same, upper, rfl⟩ := (declareChar_defined valid).mp ⟨declared, defined⟩
      exact ⟨start, same, upper, rfl⟩
    · cases found
  · rintro ⟨start, same, upper, rfl⟩
    obtain ⟨declared, defined⟩ := (declareChar_defined valid).mpr ⟨same, upper, rfl⟩
    exact ⟨_, declared, by rw [defined]⟩

/-- The line is a left-hand side with its alternatives. -/
structure Writes (line : List Char) (lhs : Symbol) (bodies : List Rhs) : Prop where
  parts : ∃ before after, Text.splitAtDefines (Text.trim line) = some (before, after) ∧
    Text.trim before = [lhs.toChar] ∧ (after.splitOn '|').map Text.trim = bodies.map Rhs.chars
  writable : ∀ rhs ∈ bodies, Rule.Writable ⟨lhs, rhs⟩

theorem Writes.exists_cons {line : List Char} {lhs : Symbol} {bodies : List Rhs}
    (writes : Writes line lhs bodies) : ∃ rhs rest, bodies = rhs :: rest := by
  obtain ⟨_, after, _, _, spelled⟩ := writes.parts
  apply List.exists_cons_of_ne_nil
  rintro rfl
  exact List.splitOn_ne_nil '|' after (List.map_eq_nil_iff.mp spelled)

theorem enterAll_declareByCase (valid : g.Valid) {rule : Rule} (writable : rule.Writable) (rest : List Rule) :
    (g.declareByCase rule.lhs).enterAll (rule :: rest) = g.enterAll (rule :: rest) := by
  have declared : rule.lhs ∈ (g.declareByCase rule.lhs).symbols :=
    (mem_symbols_declareByCase ⟨_, writable.lhs⟩).mpr (.inr rfl)
  have again := declareByCase_of_mem (valid.declareByCase rule.lhs) declared
  simp only [enterAll_cons, enter, declareAll, Rule.symbols, List.foldl_cons, again]

theorem loadTrimmed_eq_ok (valid : g.Valid) {line : List Char} :
    g.loadTrimmed (Text.trim line) = .ok next ↔ ∃ lhs bodies, Writes line lhs bodies ∧
      g.New (bodies.map (Rule.mk lhs)) ∧ next = g.enterAll (bodies.map (Rule.mk lhs)) := by
  have entered {lhs : Symbol} {bodies : List Rhs} (writes : Writes line lhs bodies) :
      (g.declareByCase lhs).enterAll (bodies.map (Rule.mk lhs)) = g.enterAll (bodies.map (Rule.mk lhs)) := by
    obtain ⟨rhs, rest, rfl⟩ := writes.exists_cons
    exact enterAll_declareByCase valid (writes.writable rhs List.mem_cons_self) _
  have declared {lhs : Symbol} (upper : Kind.ofChar? lhs.toChar = some .nonterminal) :
      lhs ∈ (g.declareByCase lhs).nonterminals :=
    (defined_eq_ok.mp ((declareChar_defined valid).mpr ⟨rfl, upper, rfl⟩).2).2
  unfold loadTrimmed
  constructor
  · intro succeeded
    split at succeeded
    · cases succeeded
    · rename_i before after cut
      split at succeeded
      · rename_i c single
        split at succeeded
        · cases succeeded
        · rename_i found
          obtain ⟨lhs, rfl, upper, rfl⟩ := (loadLhs_eq_ok valid).mp found
          obtain ⟨bodies, spelled, writable, new, rfl⟩ :=
            (loadAlternatives_eq_ok (valid.declareByCase lhs) (declared upper)).mp succeeded
          have writes : Writes line lhs bodies := ⟨⟨before, after, cut, single, spelled⟩, writable⟩
          rw [New, rules_declareByCase] at new
          exact ⟨lhs, bodies, writes, new, entered writes⟩
      · cases succeeded
  · rintro ⟨lhs, bodies, writes, new, rfl⟩
    obtain ⟨before, after, cut, single, spelled⟩ := writes.parts
    obtain ⟨rhs, rest, filled⟩ := writes.exists_cons
    have upper := (writes.writable rhs (filled ▸ List.mem_cons_self)).lhs
    rw [cut]
    simp only [single, (loadLhs_eq_ok valid).mpr ⟨lhs, rfl, upper, rfl⟩]
    refine (loadAlternatives_eq_ok (valid.declareByCase lhs) (declared upper)).mpr
      ⟨bodies, spelled, writes.writable, ?_, (entered writes).symm⟩
    rw [New, rules_declareByCase]
    exact new

theorem loadLine_eq_ok (valid : g.Valid) {number : Nat} {line : List Char} :
    g.loadLine number line = .ok next ↔ (Text.trim line = [] ∧ next = g) ∨
      ∃ lhs bodies, Writes line lhs bodies ∧ g.New (bodies.map (Rule.mk lhs)) ∧
        next = g.enterAll (bodies.map (Rule.mk lhs)) := by
  rw [← loadTrimmed_eq_ok valid]
  unfold loadLine
  split
  · rename_i blank
    rw [blank]
    simp [loadTrimmed, Text.splitAtDefines, eq_comm]
  · rename_i filled
    have filled : Text.trim line ≠ [] := filled
    split
    · rename_i loaded
      simp [loaded, filled]
    · rename_i refused
      simp [refused, filled]

/-- The lines describe the rules, in order; blank lines describe none. -/
inductive Describes : List (List Char) → List Rule → Prop where
  | nil : Describes [] []
  | blank {line : List Char} {lines : List (List Char)} {rules : List Rule} :
      Text.trim line = [] → Describes lines rules → Describes (line :: lines) rules
  | entry {line : List Char} {lines : List (List Char)} {lhs : Symbol} {bodies : List Rhs}
      {rules : List Rule} : Writes line lhs bodies → Describes lines rules →
      Describes (line :: lines) (bodies.map (Rule.mk lhs) ++ rules)

theorem Describes.writable {lines : List (List Char)} {rules : List Rule} (described : Describes lines rules) :
    ∀ rule ∈ rules, rule.Writable := by
  induction described with
  | nil => simp
  | blank _ _ ih => exact ih
  | entry writes _ ih =>
    intro rule member
    rcases List.mem_append.mp member with first | others
    · obtain ⟨rhs, inside, rfl⟩ := List.mem_map.mp first
      exact writes.writable rhs inside
    · exact ih rule others

theorem loadLines_eq_ok (valid : g.Valid) {number : Nat} {lines : List (List Char)} :
    g.loadLines number lines = .ok next ↔
      ∃ rules, Describes lines rules ∧ g.New rules ∧ next = g.enterAll rules := by
  constructor
  · intro succeeded
    induction lines generalizing g number with
    | nil =>
      cases succeeded
      exact ⟨[], .nil, by simp [New], rfl⟩
    | cons line rest ih =>
      obtain ⟨middle, first, others⟩ := bind_eq_ok succeeded
      rcases (loadLine_eq_ok valid).mp first with ⟨blank, rfl⟩ | ⟨lhs, bodies, writes, new, rfl⟩
      · obtain ⟨rules, described, result⟩ := ih valid others
        exact ⟨rules, .blank blank described, result⟩
      · have entered : (g.enterAll (bodies.map (Rule.mk lhs))).Valid :=
          valid.enterAll (List.forall_mem_map.mpr writes.writable)
        obtain ⟨rules, described, more, rfl⟩ := ih entered others
        exact ⟨_, .entry writes described, new_append.mpr ⟨new, more⟩, (enterAll_append _ _ _).symm⟩
  · rintro ⟨rules, described, new, rfl⟩
    induction described generalizing g number with
    | nil => rfl
    | blank nothing _ ih =>
      exact bind_eq_ok_iff.mpr ⟨g, (loadLine_eq_ok valid).mpr (.inl ⟨nothing, rfl⟩), ih valid new⟩
    | @entry _ _ lhs bodies rules writes _ ih =>
      obtain ⟨first, others⟩ := new_append.mp new
      have entered : (g.enterAll (bodies.map (Rule.mk lhs))).Valid :=
        valid.enterAll (List.forall_mem_map.mpr writes.writable)
      rw [enterAll_append]
      exact bind_eq_ok_iff.mpr
        ⟨_, (loadLine_eq_ok valid).mpr (.inr ⟨lhs, bodies, writes, first, rfl⟩), ih entered others⟩

/-- The grammar of the rules, with a start symbol that need not be in one. -/
def assemble (rules : List Rule) (start : Symbol) : Grammar :=
  ((empty.enterAll rules).declareByCase start).withStart start

/-- A text is read if it describes rules, none of them twice, and the start may be a
nonterminal. -/
theorem load_eq_ok {text : String} {c : Char} :
    load text c = .ok g ↔ ∃ rules start, Describes (Text.lines text.toList) rules ∧ rules.Nodup ∧
      c = start.toChar ∧ Kind.ofChar? start.toChar = some .nonterminal ∧ g = assemble rules start := by
  have new {rules : List Rule} : empty.New rules ↔ rules.Nodup := by
    simp [New, rules_empty]
  rw [load, bind_eq_ok_iff]
  constructor
  · rintro ⟨middle, first, second⟩
    obtain ⟨rules, described, nodup, rfl⟩ := (loadLines_eq_ok valid_empty).mp first
    split at second
    · rename_i chosen
      cases second
      obtain ⟨start, result⟩ := (loadStart_eq_ok (valid_empty.enterAll described.writable)).mp chosen
      exact ⟨rules, start, described, new.mp nodup, result⟩
    · cases second
  · rintro ⟨rules, start, described, nodup, result⟩
    refine ⟨_, (loadLines_eq_ok valid_empty).mpr ⟨rules, described, new.mpr nodup, rfl⟩, ?_⟩
    rw [(loadStart_eq_ok (valid_empty.enterAll described.writable)).mpr ⟨start, result⟩]

section Assemble

variable {rules : List Rule} {start : Symbol}

theorem mem_rules_assemble {rule : Rule} : rule ∈ (assemble rules start).rules ↔ rule ∈ rules := by
  have entered : (assemble rules start).rules = (empty.enterAll rules).rules := rules_declareByCase _ start
  rw [entered, mem_rules_enterAll, rules_empty]
  simp

variable (writable : ∀ rule ∈ rules, rule.Writable) (upper : Kind.ofChar? start.toChar = some .nonterminal)
include writable upper

theorem mem_symbols_assemble {s : Symbol} :
    s ∈ (assemble rules start).symbols ↔ s = start ∨ ∃ rule ∈ rules, s ∈ rule.symbols := by
  have entered : (assemble rules start).symbols = ((empty.enterAll rules).declareByCase start).symbols := rfl
  have nothing : s ∉ empty.symbols := by
    simp [SymbolSet.mem_iff, symbols, empty]
  rw [entered, mem_symbols_declareByCase ⟨_, upper⟩, mem_symbols_enterAll writable, or_comm,
    or_iff_right nothing]

theorem valid_assemble : (assemble rules start).Valid := by
  have entered := (valid_empty.enterAll writable).declareByCase start
  refine entered.withStart (entered.mem_nonterminals_iff.mpr ⟨?_, upper⟩)
  exact (mem_symbols_declareByCase ⟨_, upper⟩).mpr (.inr rfl)

end Assemble

theorem valid_load {text : String} {c : Char} (succeeded : load text c = .ok g) : g.Valid := by
  obtain ⟨rules, start, described, _, _, upper, rfl⟩ := load_eq_ok.mp succeeded
  exact valid_assemble described.writable upper

end Grammar

end ContextFree
