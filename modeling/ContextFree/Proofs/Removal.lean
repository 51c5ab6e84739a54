import ContextFree.Proofs.Parsing
import ContextFree.Proofs.Reading

/-! What the removal of a symbol leaves of the words.

A removed symbol takes with it the derivation trees that mention it and no others. A
terminal stands at leaves only, so the words left are those without it. For a
nonterminal the trees decide: a word stays if one of its trees does without the symbol.
-/

set_option autoImplicit false

namespace ContextFree

/-- A derivation tree: a terminal alone, or a left-hand side above one tree for each
symbol of a right-hand side. -/
inductive DerivationTree where
  | leaf (terminal : Symbol)
  | node (lhs : Symbol) (children : List DerivationTree)

namespace DerivationTree

def root : DerivationTree → Symbol
  | leaf terminal => terminal
  | node lhs _ => lhs

def word : DerivationTree → List Symbol
  | leaf terminal => [terminal]
  | node _ children => children.flatMap word

def symbols : DerivationTree → List Symbol
  | leaf terminal => [terminal]
  | node lhs children => lhs :: children.flatMap symbols

/-- Leaves are terminals, and every other place is expanded by a rule. -/
inductive Follows (g : Grammar) : DerivationTree → Prop where
  | leaf {terminal : Symbol} : terminal ∈ g.terminals → Follows g (leaf terminal)
  | node {lhs : Symbol} {rhs : Rhs} {children : List DerivationTree} : (⟨lhs, rhs⟩ : Rule) ∈ g.rules →
      children.map root = rhs.toList → (∀ child ∈ children, Follows g child) →
      Follows g (node lhs children)

theorem root_mem_symbols (tree : DerivationTree) : tree.root ∈ tree.symbols := by
  cases tree with
  | leaf terminal => simp [root, symbols]
  | node lhs children => simp [root, symbols]

/-! ### Trees and derived words -/

variable {g : Grammar}

theorem spells_children {reading : Reading} {children : List DerivationTree}
    (all : ∀ child ∈ children, reading child.root child.word) :
    Spells reading (children.map root) (children.flatMap word) := by
  induction children with
  | nil => exact .nil
  | cons child rest ih =>
    obtain ⟨first, others⟩ := List.forall_mem_cons.mp all
    exact .cons first (ih others)

theorem Follows.generates {tree : DerivationTree} (follows : tree.Follows g) :
    g.Generates tree.root tree.word := by
  induction follows with
  | leaf terminal =>
    rw [word]
    exact .of_terminal terminal
  | node member shape _ ih =>
    rw [word]
    exact .of_rule member (shape ▸ spells_children ih)

/-- The symbol has a tree for the word. -/
def Has (g : Grammar) (s : Symbol) (part : List Symbol) : Prop :=
  ∃ tree : DerivationTree, tree.Follows g ∧ tree.root = s ∧ tree.word = part

theorem exists_children {form part : List Symbol} (spells : Spells (Has g) form part) :
    ∃ children : List DerivationTree, (∀ child ∈ children, child.Follows g) ∧
      children.map root = form ∧ children.flatMap word = part := by
  induction spells with
  | nil => exact ⟨[], by simp, rfl, rfl⟩
  | cons head _ ih =>
    obtain ⟨tree, follows, rfl, rfl⟩ := head
    obtain ⟨children, all, rfl, rfl⟩ := ih
    exact ⟨tree :: children, List.forall_mem_cons.mpr ⟨follows, all⟩, rfl, rfl⟩

/-- The words with a tree are the derived ones. -/
theorem generates_iff {s : Symbol} {part : List Symbol} : g.Generates s part ↔ Has g s part := by
  constructor
  · apply Grammar.Generates.induct (Has g)
    · intro t terminal
      exact ⟨.leaf t, .leaf terminal, rfl, by rw [word]⟩
    · intro rule member part spells
      obtain ⟨children, all, shape, rfl⟩ := exists_children (spells.mono fun _ _ _ => And.right)
      exact ⟨.node rule.lhs children, .node member shape all, rfl, by rw [word]⟩
  · rintro ⟨tree, follows, rfl, rfl⟩
    exact follows.generates

/-! ### Trees without the removed symbols -/

theorem follows_removeSymbols {removed : SymbolSet} {tree : DerivationTree} :
    tree.Follows (g.removeSymbols removed) ↔ tree.Follows g ∧ ∀ s ∈ tree.symbols, s ∉ removed := by
  constructor
  · intro follows
    induction follows with
    | leaf terminal =>
      obtain ⟨declared, kept⟩ := Grammar.mem_terminals_removeSymbols.mp terminal
      exact ⟨.leaf declared, by simpa [symbols] using kept⟩
    | node member shape _ ih =>
      obtain ⟨old, kept, _⟩ := Grammar.mem_rules_removeSymbols.mp member
      refine ⟨.node old shape fun child inside => (ih child inside).1, ?_⟩
      simp only [symbols, List.forall_mem_cons, List.mem_flatMap]
      exact ⟨kept, fun s ⟨child, inside, found⟩ => (ih child inside).2 s found⟩
  · rintro ⟨follows, kept⟩
    induction follows with
    | leaf declared =>
      exact .leaf (Grammar.mem_terminals_removeSymbols.mpr ⟨declared, kept _ (by simp [symbols])⟩)
    | @node lhs rhs children member shape _ ih =>
      simp only [symbols, List.forall_mem_cons, List.mem_flatMap] at kept
      obtain ⟨source, below⟩ := kept
      -- the right-hand side is read off the roots of the children
      have targets : ∀ s ∈ rhs.toList, s ∉ removed := by
        rw [← shape, List.forall_mem_map]
        exact fun child inside => below _ ⟨child, inside, child.root_mem_symbols⟩
      refine .node (Grammar.mem_rules_removeSymbols.mpr ⟨member, source, targets⟩) shape ?_
      exact fun child inside => ih child inside fun s found => below s ⟨child, inside, found⟩

theorem Follows.mem_word_iff (valid : g.Valid) {t : Symbol} (terminal : t ∈ g.terminals)
    {tree : DerivationTree} (follows : tree.Follows g) : t ∈ tree.word ↔ t ∈ tree.symbols := by
  induction follows with
  | leaf _ => simp [word, symbols]
  | @node lhs _ _ member _ _ ih =>
    have other : t ≠ lhs := by
      rintro rfl
      exact valid.not_terminal (valid.admits member).lhs terminal
    simp only [word, symbols, List.mem_flatMap, List.mem_cons, or_iff_right other]
    exact exists_congr fun child => and_congr_right (ih child)

end DerivationTree

namespace Grammar

variable {g : Grammar}

theorem mem_ofList_singleton {s t : Symbol} : t ∈ SymbolSet.ofList [s] ↔ t = s := by
  rw [SymbolSet.mem_ofList, List.mem_singleton]

/-- The words left by a removal are those with a tree that does not mention the symbol.
-/
theorem generates_removeSymbols {removed s : Symbol} {word : List Symbol} :
    (g.removeSymbols (.ofList [removed])).Generates s word ↔ ∃ tree : DerivationTree,
      tree.Follows g ∧ tree.root = s ∧ tree.word = word ∧ removed ∉ tree.symbols := by
  have avoids (tree : DerivationTree) :
      (∀ t ∈ tree.symbols, t ∉ SymbolSet.ofList [removed]) ↔ removed ∉ tree.symbols := by
    simp only [mem_ofList_singleton]
    exact ⟨fun kept inside => kept removed inside rfl, fun missing t found same => missing (same ▸ found)⟩
  simp only [DerivationTree.generates_iff, DerivationTree.Has, DerivationTree.follows_removeSymbols, avoids]
  constructor
  · rintro ⟨tree, ⟨follows, missing⟩, top, leaves⟩
    exact ⟨tree, follows, top, leaves, missing⟩
  · rintro ⟨tree, follows, top, leaves, missing⟩
    exact ⟨tree, ⟨follows, missing⟩, top, leaves⟩

theorem generates_removeSymbols_of_terminal (valid : g.Valid) {t : Symbol} (terminal : t ∈ g.terminals)
    {s : Symbol} {word : List Symbol} :
    (g.removeSymbols (.ofList [t])).Generates s word ↔ g.Generates s word ∧ t ∉ word := by
  rw [generates_removeSymbols, DerivationTree.generates_iff, DerivationTree.Has]
  constructor
  · rintro ⟨tree, follows, rfl, rfl, missing⟩
    exact ⟨⟨tree, follows, rfl, rfl⟩, mt (follows.mem_word_iff valid terminal).mp missing⟩
  · rintro ⟨⟨tree, follows, rfl, rfl⟩, missing⟩
    exact ⟨tree, follows, rfl, rfl, mt (follows.mem_word_iff valid terminal).mpr missing⟩

theorem removeSymbol_of_kind {s : Symbol} {kind : Kind} (declared : g.kindOf s = some kind) :
    (g.removeSymbol s.toChar kind).report = .ok () ∧
      (g.removeSymbol s.toChar kind).grammar = g.removeSymbols (.ofList [s]) := by
  have found : g.defined s.toChar kind = .ok s := by
    simp only [defined, Symbol.ofChar?_toChar, Option.filter_some, declared, decide_true, if_true]
  simp [removeSymbol, found]

theorem kindOf_nonterminal {s : Symbol} (declared : s ∈ g.nonterminals) :
    g.kindOf s = some .nonterminal := by
  rw [kindOf, if_pos (SymbolSet.mem_iff.mp declared)]

theorem Valid.kindOf_terminal (valid : g.Valid) {s : Symbol} (declared : s ∈ g.terminals) :
    g.kindOf s = some .terminal := by
  have other : s ∉ g.nonterminals := fun member => valid.not_terminal member declared
  rw [kindOf, if_neg (mt SymbolSet.mem_iff.mpr other), if_pos (SymbolSet.mem_iff.mp declared)]

/-- Removing a terminal takes the words that contain it. Removing a nonterminal takes
the words whose trees all mention it, and the start symbol if it is this one. The other
nonterminals stay. -/
theorem removal_restricts_words (valid : g.Valid) :
    (∀ t ∈ g.terminals, (g.removeTerminal t.toChar).report = .ok () ∧
      ∀ lhs ∈ g.nonterminals, lhs ∈ (g.removeTerminal t.toChar).grammar.nonterminals ∧
        ∀ word, (g.removeTerminal t.toChar).grammar.Generates lhs word ↔
          g.Generates lhs word ∧ t ∉ word) ∧
    ∀ n ∈ g.nonterminals, (g.removeNonterminal n.toChar).report = .ok () ∧
      (∀ lhs ∈ g.nonterminals, lhs ≠ n → lhs ∈ (g.removeNonterminal n.toChar).grammar.nonterminals ∧
        ∀ word, (g.removeNonterminal n.toChar).grammar.Generates lhs word ↔
          ∃ tree : DerivationTree, tree.Follows g ∧ tree.root = lhs ∧ tree.word = word ∧
            n ∉ tree.symbols) ∧
      (g.start = some n → (g.removeNonterminal n.toChar).grammar.start = none) ∧
      (g.start ≠ some n → (g.removeNonterminal n.toChar).grammar.start = g.start) := by
  constructor
  · intro t terminal
    obtain ⟨succeeded, result⟩ := removeSymbol_of_kind (valid.kindOf_terminal terminal)
    rw [removeTerminal, result]
    refine ⟨succeeded, fun lhs declared => ⟨?_, fun word => ?_⟩⟩
    · rw [mem_nonterminals_removeSymbols, mem_ofList_singleton]
      refine ⟨declared, ?_⟩
      rintro rfl
      exact valid.not_terminal declared terminal
    · exact generates_removeSymbols_of_terminal valid terminal
  · intro n nonterminal
    obtain ⟨succeeded, result⟩ := removeSymbol_of_kind (kindOf_nonterminal nonterminal)
    have start (s : Symbol) : (g.removeSymbols (.ofList [n])).start = some s ↔ g.start = some s ∧ s ≠ n := by
      rw [start_removeSymbols, mem_ofList_singleton]
    rw [removeNonterminal, result]
    refine ⟨succeeded, fun lhs declared other => ⟨?_, fun word => generates_removeSymbols⟩, ?_, ?_⟩
    · rw [mem_nonterminals_removeSymbols, mem_ofList_singleton]
      exact ⟨declared, other⟩
    · intro chosen
      apply Option.eq_none_iff_forall_ne_some.mpr
      intro s kept
      obtain ⟨same, other⟩ := (start s).mp kept
      exact other (Option.some.inj (same.symm.trans chosen))
    · intro other
      ext s
      rw [start]
      refine ⟨And.left, fun chosen => ⟨chosen, ?_⟩⟩
      rintro rfl
      exact other chosen

/-- The rules `S ::= a`, `S ::= B`, `B ::= a` and `B ::= b`. Symbol 28 is `S`, 11 is `B`, 36
and 37 are `a` and `b`. -/
def detour : Grammar :=
  let nonterminals := (empty.declare ⟨28⟩ .nonterminal).declare ⟨11⟩ .nonterminal
  let symbols := (nonterminals.declare ⟨36⟩ .terminal).declare ⟨37⟩ .terminal
  (symbols.addRules
    [⟨⟨28⟩, .sequence [⟨36⟩]⟩, ⟨⟨28⟩, .sequence [⟨11⟩]⟩, ⟨⟨11⟩, .sequence [⟨36⟩]⟩,
      ⟨⟨11⟩, .sequence [⟨37⟩]⟩]).withStart ⟨28⟩

/-- Two trees lead from `S` to `a`, and one of them does without `B`. -/
theorem removal_restricts_detour :
    detour.Valid ∧ (detour.removeNonterminal 'B').grammar.Generates ⟨28⟩ [⟨36⟩] ∧
      (detour.removeNonterminal 'B').grammar.start = some ⟨28⟩ ∧
        (detour.removeNonterminal 'S').grammar.start = none ∧
          (detour.removeTerminal 'b').grammar.Generates ⟨28⟩ [⟨36⟩] ∧
            ¬ (detour.removeTerminal 'b').grammar.Generates ⟨28⟩ [⟨37⟩] := by
  have valid : detour.Valid := by decide +kernel
  have short : (⟨⟨28⟩, .sequence [⟨36⟩]⟩ : Rule) ∈ detour.rules := by decide +kernel
  have direct : (DerivationTree.node ⟨28⟩ [.leaf ⟨36⟩]).Follows detour := by
    refine .node short rfl fun child inside => ?_
    rw [List.mem_singleton.mp inside]
    exact .leaf (by decide +kernel)
  have word : (DerivationTree.node ⟨28⟩ [.leaf ⟨36⟩]).word = [⟨36⟩] := by
    simp [DerivationTree.word]
  obtain ⟨terminals, nonterminals⟩ := removal_restricts_words valid
  obtain ⟨_, keeps⟩ := terminals ⟨37⟩ (by decide +kernel)
  obtain ⟨_, words⟩ := keeps ⟨28⟩ (by decide +kernel)
  obtain ⟨_, others, _, start⟩ := nonterminals ⟨11⟩ (by decide +kernel)
  obtain ⟨_, _, unset, _⟩ := nonterminals ⟨28⟩ (by decide +kernel)
  refine ⟨valid, ?_, start (by decide), unset rfl, ?_, fun left => ?_⟩
  · refine ((others ⟨28⟩ (by decide +kernel) (by decide)).2 _).mpr ⟨_, direct, rfl, word, ?_⟩
    simp [DerivationTree.symbols]
  · exact (words _).mpr ⟨word ▸ direct.generates, by decide⟩
  · exact ((words _).mp left).2 (by decide)

end Grammar

end ContextFree
