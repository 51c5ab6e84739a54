import ContextFree.Alphabet.Search
import ContextFree.Grammar.Basic
import ContextFree.Order.Bisection

/-! Properties that pass from a right-hand side to its left-hand side.

The closure of a seed gains the left-hand side of every rule whose right-hand
side is not empty and lies in it. A rule is looked at when one of its symbols is
followed, so rules are filed under the symbols of their right-hand sides. Nullable
and productive symbols are closures of different seeds.
-/

set_option autoImplicit false

namespace ContextFree

/-- Rules filed under symbols. A rule that is filed at all stands once under each
symbol of its right-hand side. -/
structure RuleIndex where
  entries : Array (Symbol × Rule)
  sorted : entries.toList.Pairwise fun a b => Ordered.before a b = true
  filed : ∀ {s : Symbol} {rule : Rule}, (s, rule) ∈ entries.toList → ∀ t ∈ rule.rhs.toList,
    (t, rule) ∈ entries.toList

namespace RuleIndex

def filing (rules : List Rule) : OrderedSet (Symbol × Rule) :=
  .ofList (rules.flatMap fun rule => rule.rhs.toList.map fun s => (s, rule))

theorem mem_filing {rules : List Rule} {s : Symbol} {rule : Rule} :
    (s, rule) ∈ (filing rules).toList ↔ rule ∈ rules ∧ s ∈ rule.rhs.toList := by
  simp only [filing, OrderedSet.mem_toList, OrderedSet.mem_ofList, List.mem_flatMap, List.mem_map,
    Prod.mk.injEq]
  constructor
  · rintro ⟨_, listed, _, inside, rfl, rfl⟩
    exact ⟨listed, inside⟩
  · rintro ⟨listed, inside⟩
    exact ⟨rule, listed, s, inside, rfl, rfl⟩

def ofRules (rules : List Rule) : RuleIndex where
  entries := (filing rules).toList.toArray
  sorted := (filing rules).ascending
  filed member _ inside := mem_filing.mpr ⟨(mem_filing.mp member).1, inside⟩

def rulesWith (index : RuleIndex) (s : Symbol) : List Rule :=
  (equalRun Prod.fst index.entries s).toList.map Prod.snd

theorem mem_rulesWith {index : RuleIndex} {s : Symbol} {rule : Rule} :
    rule ∈ index.rulesWith s ↔ (s, rule) ∈ index.entries.toList := by
  have sorted : index.entries.toList.Pairwise fun a b => Ordered.before b.1 a.1 = false := by
    refine index.sorted.imp fun order => ?_
    rcases Ordered.before_pair_iff.mp order with less | ⟨same, _⟩
    · exact Ordered.before_asymm less
    · rw [same, Ordered.before_irrefl]
  simp [rulesWith, toList_equalRun sorted]

/-- A rule gives its left-hand side once all symbols of the right-hand side are found.
-/
def lead (index : RuleIndex) : Lead Rule where
  items := index.rulesWith
  gain set rule := if rule.rhs.within set then some rule.lhs else none
  gain_put := by
    intro set s t u rule member gained
    simp only [Option.ite_none_right_eq_some, Option.some.injEq, Rhs.within, List.all_eq_true,
      SymbolSet.contains_put, Bool.or_eq_true, decide_eq_true_eq] at gained ⊢
    by_cases mentions : s ∈ rule.rhs.toList
    · exact .inr (mem_rulesWith.mpr (index.filed (mem_rulesWith.mp member) s mentions))
    · refine .inl ⟨fun v inside => ?_, gained.2⟩
      rcases gained.1 v inside with old | rfl
      · exact old
      · exact absurd inside mentions

end RuleIndex

/-- Closures under the rules of one grammar, run one after the other. A run finds the
stack as the run before it left it. -/
structure Propagation where
  index : RuleIndex
  pending : List Symbol

namespace Propagation

def ofGrammar (g : Grammar) : Propagation where
  index := .ofRules g.rules
  pending := []

def run (propagation : Propagation) (seed : SymbolSet) : SymbolSet × Propagation :=
  let search := Search.run propagation.index.lead
    ⟨seed, seed.listing.reverse ++ propagation.pending⟩
  (search.found, { propagation with pending := search.pending })

def runAll (propagation : Propagation) : List SymbolSet → List SymbolSet × Propagation
  | [] => ([], propagation)
  | seed :: seeds =>
    let (closed, later) := propagation.run seed
    let (others, last) := later.runAll seeds
    (closed :: others, last)

end Propagation

namespace Grammar

/-- The least set that holds the seed and the left-hand side of every rule whose
right-hand side is not empty and lies in it. -/
def closure (g : Grammar) (seed : SymbolSet) : SymbolSet :=
  ((Propagation.ofGrammar g).run seed).1

def epsilonLhs (g : Grammar) : List Symbol :=
  (g.rules.filter fun rule => rule.rhs.isEpsilon).map Rule.lhs

/-- The symbols that derive the empty string. -/
def nullable (g : Grammar) : SymbolSet :=
  g.closure (SymbolSet.ofList g.epsilonLhs)

/-- The symbols that derive a string of terminals. -/
def productive (g : Grammar) : SymbolSet :=
  g.closure (g.epsilonLhs.foldl SymbolSet.put g.terminals)

end Grammar

end ContextFree
