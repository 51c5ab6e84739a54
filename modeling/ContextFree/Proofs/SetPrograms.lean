import ContextFree.Proofs.Packed
import ContextFree.Proofs.Validity
import Mathlib.Data.Finset.Card
import Mathlib.Data.Finset.Dedup

/-! Symbol sets refine finite sets, over any program of set operations.

A program works on numbered sets, all of them new at first. It runs on every kind of
set that has the operations: on symbol sets, on their words and on finite sets. A
relation that the operations keep is kept by a run.
-/

set_option autoImplicit false

namespace ContextFree

inductive SetStep where
  | new (target : Nat)
  | assign (target : Nat) (s : Symbol) (member : Bool)
  | insert (target : Nat) (s : Symbol)
  | clear (target : Nat)
  | union (target source : Nat)
  | subtract (target source : Nat)
  | collect (target : Nat) (symbols : List Symbol)

structure SetOps (α : Type) where
  empty : α
  assign : α → Symbol → Bool → α
  insert : α → Symbol → Bool × α
  union : α → α → α
  subtract : α → α → α
  collect : List Symbol → α

/-- The numbered sets, and the answers to the insertions so far. -/
structure SetRun (α : Type) where
  sets : Nat → α
  answers : List Bool

namespace SetRun

variable {α β : Type}

def store (run : SetRun α) (target : Nat) (set : α) : SetRun α :=
  { run with sets := Function.update run.sets target set }

def step (ops : SetOps α) (run : SetRun α) : SetStep → SetRun α
  | .new target => run.store target ops.empty
  | .assign target s member => run.store target (ops.assign (run.sets target) s member)
  | .insert target s =>
    let inserted := ops.insert (run.sets target) s
    { run.store target inserted.2 with answers := run.answers ++ [inserted.1] }
  | .clear target => run.store target ops.empty
  | .union target source => run.store target (ops.union (run.sets target) (run.sets source))
  | .subtract target source => run.store target (ops.subtract (run.sets target) (run.sets source))
  | .collect target symbols => run.store target (ops.collect symbols)

def ofProgram (ops : SetOps α) (program : List SetStep) : SetRun α :=
  program.foldl (step ops) ⟨fun _ => ops.empty, []⟩

end SetRun

/-- The relation is kept by each operation, and insertions answer the same. -/
structure SetOps.Keeps {α β : Type} (first : SetOps α) (second : SetOps β) (related : α → β → Prop) :
    Prop where
  empty : related first.empty second.empty
  assign : ∀ {a b}, related a b → ∀ s member, related (first.assign a s member) (second.assign b s member)
  insert : ∀ {a b}, related a b → ∀ s, (first.insert a s).1 = (second.insert b s).1 ∧
    related (first.insert a s).2 (second.insert b s).2
  union : ∀ {a b c d}, related a b → related c d → related (first.union a c) (second.union b d)
  subtract : ∀ {a b c d}, related a b → related c d → related (first.subtract a c) (second.subtract b d)
  collect : ∀ symbols, related (first.collect symbols) (second.collect symbols)

namespace SetRun

variable {α β : Type} {first : SetOps α} {second : SetOps β} {related : α → β → Prop}

structure Matches (related : α → β → Prop) (left : SetRun α) (right : SetRun β) : Prop where
  sets : ∀ name, related (left.sets name) (right.sets name)
  answers : left.answers = right.answers

variable {left : SetRun α} {right : SetRun β}

theorem Matches.store (matching : left.Matches related right) (target : Nat) {a : α} {b : β}
    (alike : related a b) : (left.store target a).Matches related (right.store target b) where
  sets name := by
    simp only [SetRun.store, Function.update_apply]
    split
    · exact alike
    · exact matching.sets name
  answers := matching.answers

theorem Matches.step (keeps : first.Keeps second related) (matching : left.Matches related right)
    (next : SetStep) : (left.step first next).Matches related (right.step second next) := by
  cases next with
  | new target => exact matching.store target keeps.empty
  | assign target s member => exact matching.store target (keeps.assign (matching.sets target) s member)
  | insert target s =>
    obtain ⟨answer, alike⟩ := keeps.insert (matching.sets target) s
    refine ⟨(matching.store target alike).sets, ?_⟩
    simp only [SetRun.step, matching.answers, answer]
  | clear target => exact matching.store target keeps.empty
  | union target source =>
    exact matching.store target (keeps.union (matching.sets target) (matching.sets source))
  | subtract target source =>
    exact matching.store target (keeps.subtract (matching.sets target) (matching.sets source))
  | collect target symbols => exact matching.store target (keeps.collect symbols)

theorem Matches.foldl (keeps : first.Keeps second related) (matching : left.Matches related right)
    (program : List SetStep) :
    (program.foldl (SetRun.step first) left).Matches related (program.foldl (SetRun.step second) right) := by
  induction program generalizing left right with
  | nil => exact matching
  | cons next rest ih => exact ih (matching.step keeps next)

theorem matches_ofProgram (keeps : first.Keeps second related) (program : List SetStep) :
    (ofProgram first program).Matches related (ofProgram second program) :=
  Matches.foldl keeps ⟨fun _ => keeps.empty, rfl⟩ program

end SetRun

/-! ### Three kinds of sets -/

def Symbol.finsetOps : SetOps (Finset Symbol) where
  empty := ∅
  assign members s member := if member then insert s members else members.erase s
  insert members s := (decide (s ∉ members), insert s members)
  union := (· ∪ ·)
  subtract := (· \ ·)
  collect := List.toFinset

namespace SymbolSet

def ops : SetOps SymbolSet where
  empty := empty
  assign := assign
  insert := insert
  union := union
  subtract := difference
  collect := ofList

end SymbolSet

namespace PackedBits

def ops : SetOps PackedBits where
  empty := blank
  assign bits s := bits.assign s.id.val
  insert bits s := (!bits.bit s.id.val, bits.assign s.id.val true)
  union := union
  subtract := difference
  collect symbols := symbols.foldl (fun bits s => bits.assign s.id.val true) blank

end PackedBits

namespace SymbolSet

/-- The set was made here and has the given members. -/
structure Denotes (set : SymbolSet) (members : Finset Symbol) : Prop where
  frame : set.frame = .blank
  mem : ∀ s, s ∈ set ↔ s ∈ members

variable {set second : SymbolSet} {members others : Finset Symbol}

theorem Denotes.contains (denotes : set.Denotes members) (s : Symbol) :
    set.contains s = decide (s ∈ members) := by
  rw [Bool.eq_iff_iff, decide_eq_true_eq]
  exact denotes.mem s

theorem Denotes.getElem (denotes : set.Denotes members) (s : Symbol) : set[s] = decide (s ∈ members) := by
  rw [getElem_eq, denotes.contains]

theorem keeps_denotes : ops.Keeps Symbol.finsetOps Denotes where
  empty := ⟨rfl, by simp [ops, Symbol.finsetOps]⟩
  assign denotes s member := by
    cases member with
    | false => exact ⟨denotes.frame, by simp [ops, Symbol.finsetOps, assign, mem_iff, denotes.contains, and_comm]⟩
    | true => exact ⟨denotes.frame, by simp [ops, Symbol.finsetOps, assign, denotes.mem, or_comm]⟩
  insert denotes s := by
    refine ⟨?_, denotes.frame, by simp [ops, Symbol.finsetOps, insert, denotes.mem, or_comm]⟩
    simp [ops, Symbol.finsetOps, insert, denotes.contains]
  union left right := by
    refine ⟨?_, by simp [ops, Symbol.finsetOps, left.mem, right.mem]⟩
    simp only [ops, union, left.frame, right.frame]
    decide
  subtract left right := by
    refine ⟨?_, by simp [ops, Symbol.finsetOps, left.mem, right.mem]⟩
    simp only [ops, difference, left.frame, PackedBits.blank_difference]
  collect symbols := ⟨frame_ofList symbols, by simp [ops, Symbol.finsetOps]⟩

theorem keeps_packs : PackedBits.ops.Keeps ops Packs where
  empty := packs_empty
  assign packs s member := packs.assign s member
  insert packs s := by
    refine ⟨?_, packs.assign s true⟩
    simp only [PackedBits.ops, ops, insert, packs.bit, getElem_eq, contains]
  union left right := left.union right
  subtract left right := left.difference right
  collect symbols := by
    refine List.foldl_rel packs_empty ?_
    intro s _ bits set packs
    exact packs.assign s true

/-! ### What a set shows -/

section Denotes

variable (denotes : set.Denotes members)
include denotes

theorem Denotes.listing : set.listing = set.toList :=
  listing_eq_toList (by rw [denotes.frame]; decide)

theorem Denotes.pairwise_listing : set.listing.Pairwise fun a b => Ordered.before a b = true := by
  rw [denotes.listing]
  exact pairwise_toList set

theorem Denotes.mem_listing (s : Symbol) : s ∈ set.listing ↔ s ∈ members := by
  rw [denotes.listing, mem_toList, denotes.mem]

theorem Denotes.size : set.size = members.card := by
  have distinct : set.listing.Nodup := denotes.pairwise_listing.imp fun less => Ordered.ne_of_before less
  have same : set.listing.toFinset = members := by
    ext s
    rw [List.mem_toFinset, denotes.mem_listing]
  rw [SymbolSet.size, ← same, List.toFinset_card_of_nodup distinct]

theorem Denotes.isEmpty_iff : set.isEmpty = true ↔ members = ∅ := by
  rw [SymbolSet.isEmpty_iff denotes.frame, Finset.eq_empty_iff_forall_notMem]
  simp only [denotes.mem]

theorem Denotes.eq_iff (also : second.Denotes others) : set = second ↔ members = others := by
  constructor
  · rintro rfl
    ext s
    rw [← denotes.mem, also.mem]
  · rintro rfl
    refine ext_contains (fun s => ?_) (denotes.frame.trans also.frame.symm)
    rw [denotes.contains, also.contains]

theorem Denotes.agrees_iff (also : second.Denotes others) : set.agrees second = true ↔ members = others := by
  rw [SymbolSet.agrees_iff denotes.frame also.frame, denotes.eq_iff also]

theorem Denotes.isDisjoint_iff (also : second.Denotes others) :
    set.isDisjoint second = true ↔ Disjoint members others := by
  rw [isDisjoint, PackedBits.isDisjoint_iff, Finset.disjoint_left]
  simp only [(packs_pack denotes.frame).bit, (packs_pack also.frame).bit, ← denotes.mem, ← also.mem]
  constructor
  · intro apart s left right
    exact absurd right (Bool.not_eq_true _ ▸ apart s.id.val left)
  · intro apart i left
    have inside := BitVec.lt_of_getLsbD left
    exact Bool.not_eq_true _ ▸ @apart ⟨⟨i, inside⟩⟩ left

end Denotes

/-- Over every program, symbol sets and their words stand for finite sets. Insertions
answer whether a symbol is new. Membership, the index, the listing, its length and the tests for
emptiness, disjointness and equality are those of finite sets. The words are always two
of width 62, with the bits of the members set and no other. -/
theorem programs_refine_finset (program : List SetStep) :
    let exact := SetRun.ofProgram Symbol.finsetOps program
    let run := SetRun.ofProgram SymbolSet.ops program
    let words := SetRun.ofProgram PackedBits.ops program
    (run.answers = exact.answers ∧ words.answers = exact.answers) ∧
      ∀ name,
        (∀ s, (run.sets name).contains s = decide (s ∈ exact.sets name)) ∧
        (∀ s, (run.sets name)[s] = decide (s ∈ exact.sets name)) ∧
        (run.sets name).listing.Pairwise (fun a b => Ordered.before a b = true) ∧
        (∀ s, s ∈ (run.sets name).listing ↔ s ∈ exact.sets name) ∧
        (run.sets name).size = (exact.sets name).card ∧
        ((run.sets name).isEmpty = true ↔ exact.sets name = ∅) ∧
        (∀ other, ((run.sets name).isDisjoint (run.sets other) = true ↔
            Disjoint (exact.sets name) (exact.sets other)) ∧
          ((run.sets name).agrees (run.sets other) = true ↔ exact.sets name = exact.sets other) ∧
          (run.sets name = run.sets other ↔ exact.sets name = exact.sets other)) ∧
        words.sets name = (run.sets name).pack ∧
        (words.sets name).width = 62 ∧ (words.sets name).words.length = 2 ∧
        ∀ i, (words.sets name).bit i = true ↔ ∃ s ∈ exact.sets name, s.id.val = i := by
  intro exact run words
  have denoting : run.Matches Denotes exact := SetRun.matches_ofProgram keeps_denotes program
  have packing : words.Matches Packs run := SetRun.matches_ofProgram keeps_packs program
  -- the words follow the symbol sets, and these the finite sets
  refine ⟨⟨denoting.answers, packing.answers.trans denoting.answers⟩, fun name => ?_⟩
  have denotes := denoting.sets name
  have packs := packing.sets name
  refine ⟨denotes.contains, denotes.getElem, denotes.pairwise_listing, denotes.mem_listing, denotes.size,
    denotes.isEmpty_iff, fun other => ?_, packs.eq_pack, packs.width, packs.words, fun i => ?_⟩
  · have also := denoting.sets other
    exact ⟨denotes.isDisjoint_iff also, denotes.agrees_iff also, denotes.eq_iff also⟩
  · rw [packs.bit]
    constructor
    · intro member
      have inside := BitVec.lt_of_getLsbD member
      exact ⟨⟨⟨i, inside⟩⟩, (denotes.mem _).mp member, rfl⟩
    · rintro ⟨s, member, rfl⟩
      exact (denotes.mem s).mpr member

/-- In a set of `A`, `B` and `a` the insertion of `a` is no news, that of `b` is. -/
example : (SetRun.ofProgram ops [.collect 0 [⟨10⟩, ⟨11⟩, ⟨36⟩], .insert 0 ⟨36⟩, .insert 0 ⟨37⟩]).answers =
    [false, true] := by
  decide

end SymbolSet

end ContextFree
