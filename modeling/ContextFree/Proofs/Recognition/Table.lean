import ContextFree.Proofs.Validity
import ContextFree.Recognition.Table

/-! A cell of the table holds the symbols that compose its part of the word.

Parts are composed from single symbols by rules over one or two symbols. Different
parts have different rows of the matrix, so a cell that is being filled reads only
cells of shorter parts, which change no more.
-/

set_option autoImplicit false

namespace ContextFree

/-- The symbol derives the word by rules over one or two symbols. -/
inductive Composes (rules : List Rule) : Symbol → List Symbol → Prop where
  | single {lhs s : Symbol} {rhs : Rhs} : ⟨lhs, rhs⟩ ∈ rules → rhs.toList = [s] → Composes rules lhs [s]
  | pair {lhs left right : Symbol} {rhs : Rhs} {first second : List Symbol} : ⟨lhs, rhs⟩ ∈ rules →
      rhs.toList = [left, right] → Composes rules left first → Composes rules right second →
        Composes rules lhs (first ++ second)

namespace Composes

variable {rules : List Rule} {lhs : Symbol} {word : List Symbol}

theorem ne_nil (composes : Composes rules lhs word) : word ≠ [] := by
  induction composes with
  | single _ _ => exact List.cons_ne_nil _ _
  | pair _ _ _ _ ih _ => exact fun empty => ih (List.append_eq_nil_iff.mp empty).1

theorem exists_rule (composes : Composes rules lhs word) : ∃ rhs, (⟨lhs, rhs⟩ : Rule) ∈ rules := by
  cases composes with
  | single member _ => exact ⟨_, member⟩
  | pair member _ _ _ => exact ⟨_, member⟩

theorem singleton_iff {s : Symbol} :
    Composes rules lhs [s] ↔ ∃ rhs, (⟨lhs, rhs⟩ : Rule) ∈ rules ∧ rhs.toList = [s] := by
  constructor
  · intro composes
    generalize only : [s] = word at composes
    cases composes with
    | single member shape =>
      cases only
      exact ⟨_, member, shape⟩
    | pair _ _ front back =>
      -- two words make more than one symbol
      rcases List.singleton_eq_append_iff.mp only with ⟨empty, _⟩ | ⟨_, empty⟩
      · exact absurd empty front.ne_nil
      · exact absurd empty back.ne_nil
  · intro ⟨rhs, member, shape⟩
    exact .single member shape

theorem binary_iff (long : 2 ≤ word.length) :
    Composes rules lhs word ↔ ∃ left right rhs, (⟨lhs, rhs⟩ : Rule) ∈ rules ∧ rhs.toList = [left, right] ∧
      ∃ first second, word = first ++ second ∧ Composes rules left first ∧ Composes rules right second := by
  constructor
  · intro composes
    cases composes with
    | single _ _ => simp at long
    | pair member shape front back => exact ⟨_, _, _, member, shape, _, _, rfl, front, back⟩
  · rintro ⟨left, right, rhs, member, shape, first, second, rfl, front, back⟩
    exact .pair member shape front back

end Composes

/-! ### Parts -/

abbrev part (word : List Symbol) (i length : Nat) : List Symbol :=
  (word.drop i).take length

theorem part_add (word : List Symbol) (i first second : Nat) :
    part word i (first + second) = part word i first ++ part word (i + first) second := by
  rw [part, List.take_add, List.drop_drop]

theorem length_part {word : List Symbol} {i k : Nat} (inside : i + k < word.length) :
    (part word i (k + 1)).length = k + 1 := by
  rw [List.length_take, List.length_drop]
  omega

theorem part_one {word : List Symbol} {i : Nat} (inside : i < word.length) :
    part word i 1 = [word[i]] := by
  rw [part, List.drop_eq_getElem_cons inside, List.take_succ_cons, List.take_zero]

/-- A part is composed of the halves of some cut. -/
theorem composes_part_iff {rules : List Rule} {word : List Symbol} {i j : Nat} (before : i < j)
    (inside : j < word.length) {lhs : Symbol} :
    Composes rules lhs (part word i (j + 1 - i)) ↔ ∃ k, (i ≤ k ∧ k < j) ∧
      ∃ left right rhs, (⟨lhs, rhs⟩ : Rule) ∈ rules ∧ rhs.toList = [left, right] ∧
        Composes rules left (part word i (k + 1 - i)) ∧
          Composes rules right (part word (k + 1) (j + 1 - (k + 1))) := by
  have long : (part word i (j - i + 1)).length = j - i + 1 := length_part (by omega)
  have whole : j + 1 - i = j - i + 1 := by omega
  have cut {k : Nat} (first : i ≤ k) (last : k < j) : part word i (j - i + 1) =
      part word i (k + 1 - i) ++ part word (k + 1) (j + 1 - (k + 1)) := by
    have halves : j - i + 1 = k + 1 - i + (j + 1 - (k + 1)) := by omega
    rw [halves, part_add, show i + (k + 1 - i) = k + 1 by omega]
  rw [whole, Composes.binary_iff (by omega)]
  constructor
  · rintro ⟨left, right, rhs, member, shape, first, second, together, front, back⟩
    have one := List.length_pos_iff.mpr front.ne_nil
    have two := List.length_pos_iff.mpr back.ne_nil
    have total := congrArg List.length together
    rw [long, List.length_append] at total
    -- the length of the first word tells where the part is cut
    obtain ⟨k, place⟩ : ∃ k, k + 1 = i + first.length := ⟨i + first.length - 1, by omega⟩
    rw [cut (k := k) (by omega) (by omega)] at together
    have size : (part word i (k - i + 1)).length = k - i + 1 := length_part (by omega)
    rw [show k - i + 1 = k + 1 - i by omega] at size
    obtain ⟨head, tail⟩ := List.append_inj together (by omega)
    subst head tail
    exact ⟨k, ⟨by omega, by omega⟩, left, right, rhs, member, shape, front, back⟩
  · rintro ⟨k, ⟨first, last⟩, left, right, rhs, member, shape, front, back⟩
    exact ⟨left, right, rhs, member, shape, _, _, cut first last, front, back⟩

/-! ### Cells -/

namespace Grid

variable {n : Nat}

theorem row_inj {i j a b : Nat} (inside : j < n) (other : b < n) :
    row n i j = row n a b ↔ i = a ∧ j = b := by
  refine ⟨fun same => ?_, fun ⟨first, last⟩ => by rw [first, last]⟩
  have first : i = a := by
    have quotient := congrArg (· / n) same
    simpa [row, Nat.add_comm, Nat.add_mul_div_right, Nat.lt_of_le_of_lt (Nat.zero_le _) inside,
      Nat.div_eq_of_lt inside, Nat.div_eq_of_lt other] using quotient
  subst first
  exact ⟨rfl, Nat.add_left_cancel same⟩

theorem row_lt {i j : Nat} (first : i < n) (last : j < n) : row n i j < n * n :=
  calc
    row n i j < i * n + n := Nat.add_lt_add_left last _
    _ = (i + 1) * n := (Nat.succ_mul i n).symm
    _ ≤ n * n := Nat.mul_le_mul_right n first

theorem cell_blank {i j : Nat} : (blank n).cell i j = .empty := by
  rw [cell, blank, Vector.getElem?_replicate]
  split <;> rfl

theorem cell_mark {grid : Grid n} {i j a b : Nat} {s : Symbol} (first : i < n) (last : j < n) (inside : b < n) :
    (grid.mark i j s).cell a b = if a = i ∧ b = j then (grid.cell i j).put s else grid.cell a b := by
  have same : row n i j = row n a b ↔ a = i ∧ b = j := by
    rw [row_inj last inside, eq_comm, @eq_comm _ j b]
  simp only [cell, mark, Vector.getElem?_setIfInBounds, same, row_lt first last, if_true]
  split
  · rw [Option.getD_some]
    rfl
  · rfl

/-- What the cells of `after` hold beyond those of `before`. -/
def Gains (gain : Nat → Nat → Symbol → Prop) (before after : Grid n) : Prop :=
  ∀ i < n, ∀ j < n, ∀ s, s ∈ after.cell i j ↔ s ∈ before.cell i j ∨ gain i j s

def At (i j : Nat) (gain : Symbol → Prop) (a b : Nat) (s : Symbol) : Prop :=
  (a = i ∧ b = j) ∧ gain s

section Gains

variable {gain more : Nat → Nat → Symbol → Prop} {before middle after : Grid n}

theorem Gains.none (grid : Grid n) : Gains (fun _ _ _ => False) grid grid :=
  fun _ _ _ _ _ => (or_iff_left id).symm

theorem Gains.trans (first : Gains gain before middle) (second : Gains more middle after) :
    Gains (fun i j s => gain i j s ∨ more i j s) before after := by
  intro i one j two s
  rw [second i one j two s, first i one j two s, or_assoc]

theorem Gains.congr (gains : Gains gain before after) (same : ∀ i < n, ∀ j < n, ∀ s, gain i j s ↔ more i j s) :
    Gains more before after := by
  intro i one j two s
  rw [gains i one j two s, same i one j two s]

theorem gains_mark {i j : Nat} (first : i < n) (last : j < n) (grid : Grid n) (s : Symbol) :
    Gains (At i j (· = s)) grid (grid.mark i j s) := by
  intro a _ b inside t
  rw [cell_mark first last inside]
  split
  · rename_i here
    obtain ⟨rfl, rfl⟩ := here
    simp [At, SymbolSet.mem_iff]
  · rename_i elsewhere
    exact (or_iff_left fun gained => elsewhere gained.1).symm

/-- A loop gains what its steps gain. A step may rest on what holds of the grid all
the way. -/
theorem Gains.foldl {α : Type} {step : Grid n → α → Grid n} {gain : α → Nat → Nat → Symbol → Prop}
    {good : Grid n → Prop} {items : List α}
    (each : ∀ item ∈ items, ∀ grid, good grid → Gains (gain item) grid (step grid item))
    (stays : ∀ item ∈ items, ∀ before after, good before → Gains (gain item) before after → good after)
    {grid : Grid n} (start : good grid) :
    Gains (fun i j s => ∃ item ∈ items, gain item i j s) grid (items.foldl step grid) := by
  induction items generalizing grid with
  | nil => exact (Gains.none grid).congr (by simp)
  | cons item rest ih =>
    have stepped := each item List.mem_cons_self grid start
    have further := ih (fun item later => each item (List.mem_cons_of_mem _ later))
      (fun item later => stays item (List.mem_cons_of_mem _ later))
      (stays item List.mem_cons_self _ _ start stepped)
    exact (stepped.trans further).congr (by simp)

/-- The grids hold the same in all cells but one. -/
def AgreeBut (i j : Nat) (before after : Grid n) : Prop :=
  ∀ a < n, ∀ b < n, ¬(a = i ∧ b = j) → ∀ s, s ∈ after.cell a b ↔ s ∈ before.cell a b

/-- A loop that writes to one cell may read all others: they stay as they are. -/
theorem Gains.foldl_at {α : Type} {step : Grid n → α → Grid n} {adds : α → Symbol → Prop} {i j : Nat}
    {start grid : Grid n} {items : List α} (agree : AgreeBut i j start grid)
    (each : ∀ item ∈ items, ∀ grid, AgreeBut i j start grid → Gains (At i j (adds item)) grid (step grid item)) :
    Gains (At i j fun s => ∃ item ∈ items, adds item s) grid (items.foldl step grid) := by
  refine (Gains.foldl each (fun item _ before after same gained => ?_) agree).congr ?_
  · intro a one b two elsewhere s
    rw [gained a one b two s, same a one b two elsewhere s]
    exact or_iff_left fun found => elsewhere found.1
  · intro a _ b _ s
    simp [At, and_left_comm]

end Gains

variable {binary : List BinaryRule} {i j : Nat}

theorem gains_combine {start grid : Grid n} (agree : AgreeBut i j start grid) {k : Nat} (first : i ≤ k)
    (last : k < j) (inside : j < n) :
    Gains (At i j fun s => ∃ rule ∈ binary,
        rule.left ∈ start.cell i k ∧ rule.right ∈ start.cell (k + 1) j ∧ s = rule.lhs)
      grid (combine binary i j grid k) := by
  -- the halves of the part are in other cells than the part
  refine Gains.foldl_at agree fun rule _ now same => ?_
  rw [← same i (by omega) k (by omega) (by omega) rule.left,
    ← same (k + 1) (by omega) j inside (by omega) rule.right]
  split
  · rename_i both
    obtain ⟨left, right⟩ := Bool.and_eq_true_iff.mp both
    refine (gains_mark (by omega) inside now rule.lhs).congr fun a _ b _ s => ?_
    exact and_congr_right fun _ => ⟨fun same => ⟨left, right, same⟩, fun found => found.2.2⟩
  · rename_i missing
    refine (Gains.none now).congr fun a _ b _ s => ?_
    exact ⟨False.elim, fun ⟨_, left, right, _⟩ => missing (Bool.and_eq_true_iff.mpr ⟨left, right⟩)⟩

theorem gains_fill (grid : Grid n) (inside : j < n) :
    Gains (At i j fun s => ∃ k, (i ≤ k ∧ k < j) ∧ ∃ rule ∈ binary,
        rule.left ∈ grid.cell i k ∧ rule.right ∈ grid.cell (k + 1) j ∧ s = rule.lhs)
      grid (grid.fill binary i j) := by
  have cuts {k : Nat} : k ∈ List.range' i (j - i) ↔ i ≤ k ∧ k < j := by
    rw [List.mem_range'_1]
    omega
  simp only [← cuts]
  refine Gains.foldl_at (fun _ _ _ _ _ _ => .rfl) fun k listed now agree => ?_
  obtain ⟨first, last⟩ := cuts.mp listed
  exact gains_combine agree first last inside

theorem gains_markEach {word : List Symbol} (grid : Grid word.length) (lhs s : Symbol) :
    Gains (fun i j t => i = j ∧ word[i]? = some s ∧ t = lhs) grid (grid.markEach word lhs s) := by
  have step : ∀ item ∈ word.zipIdx, ∀ grid : Grid word.length, True →
      Gains (fun i j t => (item.2 = i ∧ i = j) ∧ item.1 = s ∧ t = lhs) grid
        (if item.1 = s then grid.mark item.2 item.2 lhs else grid) := by
    intro item listed grid _
    have place := List.snd_lt_of_mem_zipIdx listed
    split
    · rename_i same
      exact (gains_mark place place grid lhs).congr fun i _ j _ t => by simp only [At, same]; grind
    · rename_i other
      exact (Gains.none grid).congr fun i _ j _ t => by simp [other]
  refine (Gains.foldl step (fun _ _ _ _ _ _ => trivial) trivial).congr fun i _ j _ t => ?_
  constructor
  · rintro ⟨⟨_, _⟩, listed, ⟨rfl, rfl⟩, rfl, rfl⟩
    exact ⟨rfl, List.mk_mem_zipIdx_iff_getElem?.mp listed, rfl⟩
  · rintro ⟨rfl, found, rfl⟩
    exact ⟨(s, i), List.mk_mem_zipIdx_iff_getElem?.mpr found, ⟨rfl, rfl⟩, rfl, rfl⟩

end Grid

/-! ### The scan -/

namespace Scan

variable {word : List Symbol}

def enters (word : List Symbol) (rule : Rule) (i j : Nat) (s : Symbol) : Prop :=
  i = j ∧ (∃ t, word[i]? = some t ∧ rule.rhs.toList = [t]) ∧ s = rule.lhs

theorem gains_read (scan : Scan word.length) (rule : Rule) :
    Grid.Gains (enters word rule) scan.grid (scan.read word rule).grid := by
  unfold read
  split
  · rename_i s shape
    exact (Grid.gains_markEach scan.grid rule.lhs s).congr fun i _ j _ t => by simp [enters, shape, eq_comm]
  · rename_i shape
    exact (Grid.Gains.none scan.grid).congr fun i _ j _ t => by simp [enters, shape]
  · rename_i other _
    refine (Grid.Gains.none scan.grid).congr fun i _ j _ t => ?_
    exact ⟨False.elim, fun ⟨_, ⟨s, _, single⟩, _⟩ => other s single⟩

theorem mem_binary_read (scan : Scan word.length) (rule : Rule) {lhs left right : Symbol} :
    (⟨lhs, left, right⟩ : BinaryRule) ∈ (scan.read word rule).binary ↔
      ⟨lhs, left, right⟩ ∈ scan.binary ∨ rule.lhs = lhs ∧ rule.rhs.toList = [left, right] := by
  unfold read
  split
  · rename_i shape
    simp [shape]
  · rename_i shape
    simp [shape, eq_comm]
  · rename_i other
    exact (or_iff_left fun found => other _ _ found.2).symm

theorem foldl_read (rules : List Rule) (scan : Scan word.length) :
    Grid.Gains (fun i j s => ∃ rule ∈ rules, enters word rule i j s) scan.grid (rules.foldl (read word) scan).grid ∧
      ∀ lhs left right, (⟨lhs, left, right⟩ : BinaryRule) ∈ (rules.foldl (read word) scan).binary ↔
        ⟨lhs, left, right⟩ ∈ scan.binary ∨ ∃ rule ∈ rules, rule.lhs = lhs ∧ rule.rhs.toList = [left, right] := by
  induction rules generalizing scan with
  | nil => exact ⟨(Grid.Gains.none scan.grid).congr (by simp), by simp⟩
  | cons rule rest ih =>
    obtain ⟨grid, binary⟩ := ih (scan.read word rule)
    refine ⟨((gains_read scan rule).trans grid).congr (by simp), fun lhs left right => ?_⟩
    rw [List.foldl_cons, binary, mem_binary_read, or_assoc]
    simp

/-- The scan fills the cells of single symbols and no other. -/
theorem mem_cell_ofRules {rules : List Rule} {i j : Nat} (first : i < word.length) (last : j < word.length)
    {s : Symbol} :
    s ∈ (ofRules rules word).grid.cell i j ↔ i = j ∧ Composes rules s (part word i 1) := by
  have gained := (foldl_read rules ⟨.blank word.length, []⟩).1 i first j last s
  rw [ofRules, gained, part_one first, Composes.singleton_iff, Grid.cell_blank, SymbolSet.mem_iff,
    SymbolSet.contains_empty]
  constructor
  · rintro (impossible | ⟨⟨lhs, rhs⟩, member, diagonal, ⟨t, found, shape⟩, rfl⟩)
    · cases impossible
    · rw [List.getElem?_eq_getElem first, Option.some.injEq] at found
      exact ⟨diagonal, rhs, member, found ▸ shape⟩
  · rintro ⟨diagonal, rhs, member, shape⟩
    exact .inr ⟨⟨s, rhs⟩, member, diagonal, ⟨_, List.getElem?_eq_getElem first, shape⟩, rfl⟩

theorem mem_binary_ofRules {rules : List Rule} {lhs left right : Symbol} :
    (⟨lhs, left, right⟩ : BinaryRule) ∈ (ofRules rules word).binary ↔
      ∃ rhs, (⟨lhs, rhs⟩ : Rule) ∈ rules ∧ rhs.toList = [left, right] := by
  rw [ofRules, (foldl_read rules _).2]
  constructor
  · rintro (impossible | ⟨⟨_, rhs⟩, member, rfl, shape⟩)
    · cases impossible
    · exact ⟨rhs, member, shape⟩
  · rintro ⟨rhs, member, shape⟩
    exact .inr ⟨⟨lhs, rhs⟩, member, rfl, shape⟩

end Scan

/-! ### The filling -/

namespace Filling

theorem mem_places {n i j : Nat} : (i, j) ∈ places n ↔ i < j ∧ j < n := by
  simp only [places, List.mem_flatMap, List.mem_map, List.mem_range, List.mem_range'_1, Prod.mk.injEq]
  constructor
  · rintro ⟨span, long, start, inside, rfl, rfl⟩
    omega
  · intro ⟨before, inside⟩
    exact ⟨j + 1 - i, by omega, i, by omega, rfl, by omega⟩

theorem pairwise_places (n : Nat) : (places n).Pairwise fun p q => p.2 - p.1 ≤ q.2 - q.1 := by
  have spans {span : Nat} {place : Nat × Nat}
      (listed : place ∈ (List.range (n + 1 - span)).map fun i => (i, i + span - 1)) :
      place.2 - place.1 = span - 1 := by
    obtain ⟨i, _, rfl⟩ := List.mem_map.mp listed
    omega
  rw [places, List.pairwise_flatMap]
  refine ⟨fun span _ => List.pairwise_of_forall_mem_list fun p one q two => ?_, ?_⟩
  · exact Nat.le_of_eq ((spans one).trans (spans two).symm)
  · refine (List.pairwise_lt_range' (s := 2) (n := n - 1)).imp fun {short long} shorter p one q two => ?_
    rw [spans one, spans two]
    omega

theorem mem_of_shorter {n i j : Nat} {before after : List (Nat × Nat)} (split : places n = before ++ (i, j) :: after)
    {a b : Nat} (ordered : a < b) (inside : b < n) (shorter : b - a < j - i) : (a, b) ∈ before := by
  have sorted := pairwise_places n
  have listed : (a, b) ∈ places n := mem_places.mpr ⟨ordered, inside⟩
  rw [split] at sorted listed
  rcases List.mem_append.mp listed with found | behind
  · exact found
  · exfalso
    rcases List.mem_cons.mp behind with here | later
    · cases here
      omega
    · have longer := List.rel_of_pairwise_cons (List.pairwise_append.mp sorted).2.1 later
      simp at longer
      omega

variable {rules : List Rule} {word : List Symbol} {done : List (Nat × Nat)}

/-- The cells of single symbols and of the places that were filled are right, and the
others are empty. Each record shows its cell. -/
structure Done (rules : List Rule) {word : List Symbol} (done : List (Nat × Nat)) (filling : Filling word.length) :
    Prop where
  cells : ∀ i j, i ≤ j → j < word.length → ∀ s, s ∈ filling.grid.cell i j ↔
    (i = j ∨ (i, j) ∈ done) ∧ Composes rules s (part word i (j + 1 - i))
  log : filling.log = done.map fun place =>
    .filledCell place.1 place.2 (filling.grid.cell place.1 place.2)

theorem Done.start (rules : List Rule) (word : List Symbol) :
    Done rules [] (⟨(Scan.ofRules rules word).grid, []⟩ : Filling word.length) where
  log := rfl
  cells := by
    intro i j ordered inside s
    rw [Scan.mem_cell_ofRules (by omega) inside]
    simp only [List.not_mem_nil, or_false]
    refine and_congr_right fun same => ?_
    rw [same, Nat.add_sub_cancel_left]

variable {filling : Filling word.length}

theorem Done.composes_iff (reached : Done rules done filling) {i j : Nat} (ordered : i < j)
    (inside : j < word.length) (ready : ∀ a b, a < b → b < word.length → b - a < j - i → (a, b) ∈ done)
    {s : Symbol} :
    (∃ k, (i ≤ k ∧ k < j) ∧ ∃ rule ∈ (Scan.ofRules rules word).binary,
      rule.left ∈ filling.grid.cell i k ∧ rule.right ∈ filling.grid.cell (k + 1) j ∧ s = rule.lhs) ↔
        Composes rules s (part word i (j + 1 - i)) := by
  -- the cells that are read are those of shorter parts, and these are filled
  have shorter {a b : Nat} (first : a ≤ b) (last : b < word.length) (short : b - a < j - i) {s : Symbol} :
      s ∈ filling.grid.cell a b ↔ Composes rules s (part word a (b + 1 - a)) := by
    rw [reached.cells a b first last s, and_iff_right]
    by_cases same : a = b
    · exact .inl same
    · exact .inr (ready a b (by omega) last short)
  rw [composes_part_iff ordered inside]
  refine exists_congr fun k => and_congr_right fun ⟨first, last⟩ => ?_
  constructor
  · rintro ⟨⟨lhs, left, right⟩, listed, front, back, rfl⟩
    obtain ⟨rhs, member, shape⟩ := Scan.mem_binary_ofRules.mp listed
    exact ⟨left, right, rhs, member, shape, (shorter first (by omega) (by omega)).mp front,
      (shorter last inside (by omega)).mp back⟩
  · rintro ⟨left, right, rhs, member, shape, front, back⟩
    exact ⟨⟨s, left, right⟩, Scan.mem_binary_ofRules.mpr ⟨rhs, member, shape⟩,
      (shorter first (by omega) (by omega)).mpr front, (shorter last inside (by omega)).mpr back, rfl⟩

theorem Done.step (reached : Done rules done filling) {i j : Nat} {after : List (Nat × Nat)}
    (split : places word.length = done ++ (i, j) :: after) :
    Done rules (done ++ [(i, j)]) (filling.step (Scan.ofRules rules word).binary (i, j)) := by
  have listed : ∀ place ∈ done ++ [(i, j)], place ∈ places word.length := by
    simp only [split, List.mem_append, List.mem_cons, List.not_mem_nil, or_false]
    exact fun place => Or.imp_right .inl
  obtain ⟨ordered, inside⟩ := mem_places.mp (listed (i, j) (by simp))
  have cells : ∀ a b, a ≤ b → b < word.length → ∀ s,
      s ∈ (filling.step (Scan.ofRules rules word).binary (i, j)).grid.cell a b ↔
        (a = b ∨ (a, b) ∈ done ++ [(i, j)]) ∧ Composes rules s (part word a (b + 1 - a)) := by
    intro a b first last s
    have composed := reached.composes_iff ordered inside (fun a b => mem_of_shorter split) (s := s)
    rw [Filling.step, Grid.gains_fill filling.grid inside a (by omega) b last s, Grid.At, composed,
      reached.cells a b first last s]
    by_cases here : a = i ∧ b = j
    · obtain ⟨rfl, rfl⟩ := here
      simp
    · simp [here]
  refine ⟨cells, ?_⟩
  -- a cell that was right before holds what it held
  have kept : ∀ place ∈ done, (filling.step (Scan.ofRules rules word).binary (i, j)).grid.cell place.1 place.2 =
      filling.grid.cell place.1 place.2 := by
    intro place early
    obtain ⟨first, last⟩ := mem_places.mp (listed place (List.mem_append_left _ early))
    refine SymbolSet.ext_contains (fun s => ?_) rfl
    rw [Bool.eq_iff_iff, ← SymbolSet.mem_iff, ← SymbolSet.mem_iff, cells _ _ (Nat.le_of_lt first) last,
      reached.cells _ _ (Nat.le_of_lt first) last]
    simp [early]
  rw [List.map_append, List.map_congr_left fun place early => by rw [kept place early], ← reached.log]
  rfl

theorem Done.run (reached : Done rules done filling) {after : List (Nat × Nat)}
    (split : places word.length = done ++ after) :
    Done rules (places word.length) (after.foldl (Filling.step (Scan.ofRules rules word).binary) filling) := by
  induction after generalizing done filling with
  | nil =>
    rw [split, List.append_nil]
    exact reached
  | cons place rest ih => exact ih (reached.step split) (split.trans (List.append_cons done place rest))

theorem done_ofWord (rules : List Rule) (word : List Symbol) :
    Done rules (places word.length) (ofWord rules word) :=
  (Done.start rules word).run rfl

/-- Every cell of the table of a word is right. -/
theorem mem_cell_ofWord {i j : Nat} (ordered : i ≤ j) (inside : j < word.length) {s : Symbol} :
    s ∈ (ofWord rules word).grid.cell i j ↔ Composes rules s (part word i (j + 1 - i)) := by
  rw [(done_ofWord rules word).cells i j ordered inside s, and_iff_right]
  by_cases same : i = j
  · exact .inl same
  · exact .inr (mem_places.mpr ⟨by omega, inside⟩)

end Filling

end ContextFree
