import ContextFree.Alphabet.PackedBits

/-! Sets of symbols, one bit for each symbol.

A set also remembers the frame it was stored in: the width, and every stored bit
that stands for no member. Sets made here have a blank frame. A document may
bring any other, which shows when the set is stored again or compared.

All operations are total. In a set narrower than the alphabet the symbols past its
width count as absent, and union and difference take sets of any two widths. A bit
vector would stop the program in both cases: what is proved of narrower sets, or of
unequal widths, says nothing about such a stop.
-/

set_option autoImplicit false

namespace ContextFree

structure SymbolSet where
  members : BitVec 62
  frame : PackedBits
  deriving DecidableEq

namespace SymbolSet

def empty : SymbolSet where
  members := 0#62
  frame := .blank

def contains (set : SymbolSet) (s : Symbol) : Bool :=
  set.members.getLsbD s.id.val

instance : GetElem SymbolSet Symbol Bool fun _ _ => True where
  getElem set s _ := if set.members.getLsbD s.id.val then true else false

@[simp] theorem getElem_eq (set : SymbolSet) (s : Symbol) : set[s] = set.contains s := by
  change (if set.contains s then true else false) = set.contains s
  cases set.contains s <;> rfl

instance : Membership Symbol SymbolSet where
  mem set s := set.contains s = true

instance (set : SymbolSet) (s : Symbol) : Decidable (s ∈ set) :=
  inferInstanceAs (Decidable (set.contains s = true))

theorem mem_iff {set : SymbolSet} {s : Symbol} : s ∈ set ↔ set.contains s = true :=
  Iff.rfl

def put (set : SymbolSet) (s : Symbol) : SymbolSet :=
  { set with members := set.members ||| BitVec.twoPow 62 s.id.val }

def erase (set : SymbolSet) (s : Symbol) : SymbolSet :=
  { set with members := set.members &&& ~~~BitVec.twoPow 62 s.id.val }

def assign (set : SymbolSet) (s : Symbol) (member : Bool) : SymbolSet :=
  if member then set.put s else set.erase s

def insert (set : SymbolSet) (s : Symbol) : Bool × SymbolSet :=
  (!set[s], set.put s)

def ofList (symbols : List Symbol) : SymbolSet :=
  symbols.foldl put empty

def union (first second : SymbolSet) : SymbolSet where
  members := first.members ||| second.members
  frame := first.frame.union second.frame

def difference (first second : SymbolSet) : SymbolSet where
  members := first.members &&& ~~~second.members
  frame := first.frame.difference second.frame

def toList (set : SymbolSet) : List Symbol :=
  Symbol.all.filter set.contains

/-- The members as a listing shows them, with what the frame adds. -/
def listing (set : SymbolSet) : List Symbol :=
  set.toList ++ set.frame.echoes

def size (set : SymbolSet) : Nat :=
  set.listing.length

def text (set : SymbolSet) : String :=
  symbolsText set.listing

theorem ext_contains {first second : SymbolSet} (members : ∀ s, first.contains s = second.contains s)
    (frame : first.frame = second.frame) : first = second := by
  obtain ⟨bits, _⟩ := first
  obtain ⟨others, _⟩ := second
  have same : bits = others := by
    apply BitVec.eq_of_getLsbD_eq
    intro i inside
    exact members ⟨⟨i, inside⟩⟩
  simp_all

@[simp] theorem contains_empty (s : Symbol) : empty.contains s = false := by
  simp [empty, contains]

@[simp] theorem contains_put (set : SymbolSet) (s t : Symbol) :
    (set.put s).contains t = (set.contains t || decide (t = s)) := by
  obtain ⟨⟨i, hi⟩⟩ := s
  obtain ⟨⟨j, hj⟩⟩ := t
  simp [put, contains, eq_comm, hi]

@[simp] theorem contains_erase (set : SymbolSet) (s t : Symbol) :
    (set.erase s).contains t = (set.contains t && decide (t ≠ s)) := by
  obtain ⟨⟨i, hi⟩⟩ := s
  obtain ⟨⟨j, hj⟩⟩ := t
  simp [erase, contains, eq_comm, hj]

@[simp] theorem contains_union (first second : SymbolSet) (s : Symbol) :
    (first.union second).contains s = (first.contains s || second.contains s) := by
  simp [union, contains]

@[simp] theorem contains_difference (first second : SymbolSet) (s : Symbol) :
    (first.difference second).contains s = (first.contains s && !second.contains s) := by
  simp [difference, contains]

@[simp] theorem mem_toList {set : SymbolSet} {s : Symbol} : s ∈ set.toList ↔ s ∈ set := by
  simp [toList, Symbol.mem_all, mem_iff]

theorem pairwise_toList (set : SymbolSet) :
    set.toList.Pairwise fun a b => Ordered.before a b = true :=
  Symbol.pairwise_all.filter set.contains

theorem listing_eq_toList {set : SymbolSet} (narrow : set.frame.width ≤ 256) :
    set.listing = set.toList := by
  simp [listing, PackedBits.echoes_eq_nil narrow]

@[simp] theorem frame_put (set : SymbolSet) (s : Symbol) : (set.put s).frame = set.frame :=
  rfl

theorem contains_foldl_put (symbols : List Symbol) (set : SymbolSet) (s : Symbol) :
    (symbols.foldl put set).contains s = (set.contains s || decide (s ∈ symbols)) := by
  induction symbols generalizing set with
  | nil => simp
  | cons head tail ih => simp [List.foldl_cons, ih, Bool.or_assoc]

theorem frame_foldl_put (symbols : List Symbol) (set : SymbolSet) :
    (symbols.foldl put set).frame = set.frame := by
  induction symbols generalizing set with
  | nil => rfl
  | cons head tail ih => rw [List.foldl_cons, ih, frame_put]

@[simp] theorem contains_ofList (symbols : List Symbol) (s : Symbol) :
    (ofList symbols).contains s = decide (s ∈ symbols) := by
  simp [ofList, contains_foldl_put]

@[simp] theorem frame_ofList (symbols : List Symbol) : (ofList symbols).frame = .blank :=
  frame_foldl_put symbols empty

/-! ### Storage -/

def memberBits (members : BitVec 62) : PackedBits where
  words := [members.extractLsb' 0 32, members.extractLsb' 32 32]
  width := 62

/-- The stored form: the frame with the members in it. -/
def pack (set : SymbolSet) : PackedBits :=
  set.frame.union (memberBits set.members)

def storedSymbols (bits : PackedBits) : List Symbol :=
  Symbol.all.filter fun s => decide (s.id.val < bits.width) && bits.bit s.id.val

/-- Tell the members of a stored form from the rest. -/
def unpack (bits : PackedBits) : SymbolSet :=
  let members := (ofList (storedSymbols bits)).members
  { members, frame := bits.difference (memberBits members) }

@[simp] theorem contains_unpack (bits : PackedBits) (s : Symbol) :
    (unpack bits).contains s = (decide (s.id.val < bits.width) && bits.bit s.id.val) := by
  have stored : (unpack bits).contains s = decide (s ∈ storedSymbols bits) :=
    contains_ofList (storedSymbols bits) s
  simp [stored, storedSymbols, Symbol.mem_all]

theorem bit_of_getLsbD_unpack {bits : PackedBits} {i : Nat}
    (member : (unpack bits).members.getLsbD i = true) : bits.bit i = true := by
  have stored := contains_unpack bits ⟨⟨i, BitVec.lt_of_getLsbD member⟩⟩
  rw [contains, member] at stored
  exact ((Bool.and_eq_true _ _).mp stored.symm).2

@[simp] theorem pack_unpack (bits : PackedBits) : (unpack bits).pack = bits := by
  have covered (i : Nat) := @bit_of_getLsbD_unpack bits i
  have stored : (unpack bits).pack = (bits.difference (memberBits (unpack bits).members)).union
      (memberBits (unpack bits).members) := rfl
  generalize (unpack bits).members = members at covered stored
  rw [stored, PackedBits.union, PackedBits.difference, zipKeep_restore]
  intro i _
  ext j inside
  match i with
  | 0 =>
    have low := covered j
    simp only [PackedBits.bit, show j / 32 = 0 by omega, show j % 32 = j by omega] at low
    simpa [memberBits, inside] using low
  | 1 =>
    have high := covered (32 + j)
    simp only [PackedBits.bit, show (32 + j) / 32 = 1 by omega,
      show (32 + j) % 32 = j by omega] at high
    simpa [memberBits, inside] using high
  | i + 2 => simp [memberBits]

theorem bit_pack {set : SymbolSet} {top : BitVec 2} (two : set.frame = .spare top) (s : Symbol) :
    set.pack.bit s.id.val = set.contains s := by
  obtain ⟨⟨i, inside⟩⟩ := s
  by_cases low : i < 32
  · simp [pack, two, PackedBits.union, PackedBits.spare, zipKeep, memberBits, PackedBits.bit,
      contains, low, show i / 32 = 0 by omega, show i % 32 = i by omega]
  · simp [pack, two, PackedBits.union, PackedBits.spare, zipKeep, memberBits, PackedBits.bit,
      contains, show i / 32 = 1 by omega, show i % 32 = i - 32 by omega,
      show i - 32 < 32 by omega, show i - 32 < 30 by omega, show 32 + (i - 32) = i by omega]

theorem spare_union_difference (top : BitVec 2) (members : BitVec 62) :
    ((PackedBits.spare top).union (memberBits members)).difference (memberBits members) =
      .spare top := by
  simp only [PackedBits.union, PackedBits.difference, PackedBits.spare, memberBits, zipKeep,
    PackedBits.mk.injEq, List.cons.injEq, and_true]
  constructor
  · ext j inside
    simp
  · ext j inside
    by_cases low : j < 30
    · simp [low]
    · simp [low, BitVec.getLsbD_of_ge members (32 + j) (by omega)]

theorem unpack_pack {set : SymbolSet} {top : BitVec 2} (two : set.frame = .spare top) :
    unpack set.pack = set := by
  have same (s : Symbol) : (unpack set.pack).contains s = set.contains s := by
    rw [contains_unpack, bit_pack two]
    simp [pack, two, PackedBits.union, PackedBits.spare, s.id.isLt]
  have members : (unpack set.pack).members = set.members :=
    BitVec.eq_of_getLsbD_eq fun i inside => same ⟨⟨i, inside⟩⟩
  have frame : (unpack set.pack).frame = set.pack.difference (memberBits (unpack set.pack).members) :=
    rfl
  apply ext_contains same
  rw [frame, members, pack, two, spare_union_difference]

/-- No stored bit is set, be it a symbol's or not. -/
def isEmpty (set : SymbolSet) : Bool :=
  set.pack.isZero

def isDisjoint (first second : SymbolSet) : Bool :=
  first.pack.isDisjoint second.pack

def agrees (first second : SymbolSet) : Bool :=
  first.pack.agrees second.pack

end SymbolSet

end ContextFree
