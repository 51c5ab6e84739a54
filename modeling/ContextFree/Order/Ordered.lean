/-! Types with one strict total order, decided by a Boolean test. -/

set_option autoImplicit false

namespace ContextFree

/-- A strict total order: of two different values one comes before the other. -/
class Ordered (α : Type) where
  before : α → α → Bool
  before_irrefl : ∀ a, before a a = false
  before_trans : ∀ {a b c}, before a b = true → before b c = true → before a c = true
  before_connected : ∀ a b, before a b = true ∨ a = b ∨ before b a = true

namespace Ordered

variable {α : Type} [Ordered α]

theorem before_asymm {a b : α} (first : before a b = true) : before b a = false := by
  cases reversed : before b a with
  | false => rfl
  | true => rw [← before_trans first reversed, before_irrefl]

theorem ne_of_before {a b : α} (first : before a b = true) : a ≠ b := by
  rintro rfl
  simp [before_irrefl] at first

theorem eq_of_not_before {a b : α} (first : ¬ before a b = true) (second : ¬ before b a = true) :
    a = b := by
  rcases before_connected a b with less | same | greater
  · exact absurd less first
  · exact same
  · exact absurd greater second

theorem before_of_not_before {a b c : α} (order : before b a = false) (less : before b c = true) :
    before a c = true := by
  rcases before_connected a b with first | same | reversed
  · exact before_trans first less
  · exact same ▸ less
  · simp [order] at reversed

/-- A value before the first of an ascending list is before them all. -/
theorem pairwise_cons_cons {β : Type} {key : β → α} {a b : β} {rest : List β}
    (less : before (key a) (key b) = true)
    (sorted : (b :: rest).Pairwise fun c d => before (key c) (key d) = true) :
    (a :: b :: rest).Pairwise fun c d => before (key c) (key d) = true := by
  refine List.pairwise_cons.mpr ⟨fun other member => ?_, sorted⟩
  rcases List.mem_cons.mp member with rfl | member
  · exact less
  · exact before_trans less (List.rel_of_pairwise_cons sorted member)

/-- Lexicographic comparison in which a list precedes its proper extensions. -/
def lexBefore : List α → List α → Bool
  | _, [] => false
  | [], _ :: _ => true
  | a :: as, b :: bs => before a b || (!before b a && lexBefore as bs)

theorem lexBefore_irrefl (as : List α) : lexBefore as as = false := by
  induction as with
  | nil => rfl
  | cons a as ih => simp [lexBefore, before_irrefl, ih]

theorem lexBefore_cons {a b : α} {as bs : List α} :
    lexBefore (a :: as) (b :: bs) = true ↔
      before a b = true ∨ a = b ∧ lexBefore as bs = true := by
  simp only [lexBefore, Bool.or_eq_true, Bool.and_eq_true, Bool.not_eq_true']
  constructor
  · rintro (less | ⟨notAfter, tails⟩)
    · exact .inl less
    · by_cases less : before a b = true
      · exact .inl less
      · exact .inr ⟨eq_of_not_before less (by simp [notAfter]), tails⟩
  · rintro (less | ⟨rfl, tails⟩)
    · exact .inl less
    · exact .inr ⟨before_irrefl a, tails⟩

theorem lexBefore_trans {as bs cs : List α} (first : lexBefore as bs = true)
    (second : lexBefore bs cs = true) : lexBefore as cs = true := by
  induction as generalizing bs cs with
  | nil =>
    cases cs with
    | nil => cases bs <;> simp [lexBefore] at second
    | cons => rfl
  | cons a as ih =>
    cases bs with
    | nil => simp [lexBefore] at first
    | cons b bs =>
      cases cs with
      | nil => simp [lexBefore] at second
      | cons c cs =>
        rw [lexBefore_cons] at first second ⊢
        rcases first with less | ⟨rfl, tails⟩
        · rcases second with more | ⟨rfl, _⟩
          · exact .inl (before_trans less more)
          · exact .inl less
        · exact second.imp_right fun ⟨same, rest⟩ => ⟨same, ih tails rest⟩

theorem lexBefore_connected (as bs : List α) :
    lexBefore as bs = true ∨ as = bs ∨ lexBefore bs as = true := by
  induction as generalizing bs with
  | nil => cases bs <;> simp [lexBefore]
  | cons a as ih =>
    cases bs with
    | nil => simp [lexBefore]
    | cons b bs =>
      simp only [lexBefore_cons]
      rcases before_connected a b with less | rfl | greater
      · exact .inl (.inl less)
      · simpa [before_irrefl] using ih bs
      · exact .inr (.inr (.inl greater))

instance : Ordered (List α) where
  before := lexBefore
  before_irrefl := lexBefore_irrefl
  before_trans := lexBefore_trans
  before_connected := lexBefore_connected

instance {β : Type} [DecidableEq α] [Ordered β] : Ordered (α × β) where
  before a b := before a.1 b.1 || (decide (a.1 = b.1) && before a.2 b.2)
  before_irrefl a := by simp [before_irrefl]
  before_trans {a b c} first second := by
    simp only [Bool.or_eq_true, Bool.and_eq_true, decide_eq_true_eq] at first second ⊢
    rcases first with less | ⟨same, first⟩
    · rcases second with more | ⟨same, _⟩
      · exact .inl (before_trans less more)
      · exact .inl (same ▸ less)
    · rw [same]
      exact second.imp_right fun ⟨again, rest⟩ => ⟨again, before_trans first rest⟩
  before_connected := by
    rintro ⟨a, first⟩ ⟨b, second⟩
    rcases before_connected a b with less | rfl | greater
    · simp [less]
    · simpa [before_irrefl] using before_connected first second
    · simp [greater]

theorem before_pair_iff {β : Type} [DecidableEq α] [Ordered β] {a b : α × β} :
    before a b = true ↔ before a.1 b.1 = true ∨ a.1 = b.1 ∧ before a.2 b.2 = true := by
  have order : before a b = (before a.1 b.1 || (decide (a.1 = b.1) && before a.2 b.2)) := rfl
  rw [order, Bool.or_eq_true, Bool.and_eq_true, decide_eq_true_eq]

@[reducible] def ofKey {β : Type} (key : β → α) (injective : ∀ {a b}, key a = key b → a = b) :
    Ordered β where
  before a b := before (key a) (key b)
  before_irrefl a := before_irrefl (key a)
  before_trans := before_trans
  before_connected a b := (before_connected (key a) (key b)).imp_right (.imp_left injective)

@[reducible] def ofRank {β : Type} (rank : β → Nat) (injective : ∀ {a b}, rank a = rank b → a = b) :
    Ordered β where
  before a b := Nat.blt (rank a) (rank b)
  before_irrefl a := by
    rw [← Bool.not_eq_true, Nat.blt_eq]
    omega
  before_trans first second := by
    rw [Nat.blt_eq] at first second ⊢
    omega
  before_connected a b := by
    simp only [Nat.blt_eq]
    rcases Nat.lt_trichotomy (rank a) (rank b) with less | same | greater
    · exact .inl less
    · exact .inr (.inl (injective same))
    · exact .inr (.inr greater)

instance : Ordered Char :=
  ofRank Char.toNat fun same => Char.ext (UInt32.toNat.inj same)

end Ordered

def sortAscending {α : Type} [Ordered α] (values : List α) : List α :=
  values.mergeSort fun a b => !Ordered.before b a

end ContextFree
