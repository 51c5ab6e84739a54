import ContextFree.Proofs.Validity

/-! What characters and texts stand for in a grammar.

A declared symbol is written by its character, whose case tells the kind, and `l` is
no symbol's. So a text stands for at most one right-hand side over declared symbols.
-/

set_option autoImplicit false

namespace ContextFree

theorem read_eq_ok {read : List Char → Except Fault (List Symbol)} {find : Char → Option Symbol}
    {fault : Char → Fault} {known : Symbol → Prop} (nil : read [] = .ok [])
    (cons : ∀ c cs, read (c :: cs) =
      match find c with
      | some s => (read cs).map (s :: ·)
      | none => .error (fault c))
    (finds : ∀ c s, find c = some s ↔ c = s.toChar ∧ known s) {chars : List Char} {symbols : List Symbol} :
    read chars = .ok symbols ↔ chars = symbols.map Symbol.toChar ∧ ∀ s ∈ symbols, known s := by
  induction chars generalizing symbols with
  | nil => cases symbols <;> simp [nil]
  | cons c rest ih =>
    rw [cons]
    constructor
    · intro succeeded
      split at succeeded
      · rename_i s found
        obtain ⟨same, first⟩ := (finds c s).mp found
        obtain ⟨tail, others, rfl⟩ := map_eq_ok succeeded
        obtain ⟨letters, all⟩ := ih.mp others
        rw [same, letters]
        exact ⟨rfl, List.forall_mem_cons.mpr ⟨first, all⟩⟩
      · cases succeeded
    · intro ⟨letters, all⟩
      cases symbols with
      | nil => cases letters
      | cons s tail =>
        obtain ⟨same, others⟩ := List.cons.inj letters
        obtain ⟨first, all⟩ := List.forall_mem_cons.mp all
        rw [(finds c s).mpr ⟨same, first⟩]
        simp only [ih.mpr ⟨others, all⟩]
        rfl

/-- The symbol may be declared, as a terminal or as a nonterminal. -/
def Symbol.Declarable (s : Symbol) : Prop :=
  ∃ kind, Kind.ofChar? s.toChar = some kind

theorem Symbol.Declarable.ne_reserved {s : Symbol} (declarable : s.Declarable) : s.toChar ≠ 'l' := by
  obtain ⟨kind, allowed⟩ := declarable
  intro reserved
  rw [reserved] at allowed
  simp [Kind.ofChar?] at allowed

theorem Rhs.chars_injective {first second : Rhs} (left : ∀ s ∈ first.toList, s.Declarable)
    (right : ∀ s ∈ second.toList, s.Declarable) (same : first.chars = second.chars) : first = second := by
  have reserved {symbols : List Symbol} (all : ∀ s ∈ symbols, s.Declarable) :
      ['l'] ≠ symbols.map Symbol.toChar := by
    intro spelled
    have inside : 'l' ∈ symbols.map Symbol.toChar := spelled ▸ List.mem_singleton_self 'l'
    obtain ⟨s, member, letter⟩ := List.mem_map.mp inside
    exact (all s member).ne_reserved letter
  cases first with
  | epsilon =>
    cases second with
    | epsilon => rfl
    | sequence others => exact absurd same (reserved right)
  | sequence symbols =>
    cases second with
    | epsilon => exact absurd same.symm (reserved left)
    | sequence others =>
      exact congrArg Rhs.sequence
        (List.map_injective_iff.mpr (fun _ _ => Symbol.toChar_injective) same)

namespace Grammar

variable {g : Grammar}

theorem Valid.declarable (valid : g.Valid) {s : Symbol} (member : s ∈ g.symbols) : s.Declarable := by
  rcases mem_symbols.mp member with declared | declared
  · exact ⟨_, valid.nonterminal_case s declared⟩
  · exact ⟨_, valid.terminal_case s declared⟩

theorem Valid.mem_nonterminals_iff (valid : g.Valid) {s : Symbol} :
    s ∈ g.nonterminals ↔ s ∈ g.symbols ∧ Kind.ofChar? s.toChar = some .nonterminal := by
  constructor
  · intro declared
    exact ⟨mem_symbols.mpr (.inl declared), valid.nonterminal_case s declared⟩
  · intro ⟨member, upper⟩
    refine (mem_symbols.mp member).resolve_right fun declared => ?_
    rw [valid.terminal_case s declared] at upper
    cases upper

theorem isSome_kindOf {s : Symbol} : (g.kindOf s).isSome = true ↔ s ∈ g.symbols := by
  rw [mem_symbols, SymbolSet.mem_iff, SymbolSet.mem_iff, kindOf]
  cases g.nonterminals.contains s <;> cases g.terminals.contains s <;> simp

theorem declared?_eq_some {c : Char} {s : Symbol} :
    g.declared? c = some s ↔ c = s.toChar ∧ s ∈ g.symbols := by
  rw [declared?, Option.filter_eq_some_iff, Symbol.ofChar?_eq_some, isSome_kindOf]

theorem readSymbols_eq_ok {text : String} {chars : List Char} {symbols : List Symbol} :
    g.readSymbols text chars = .ok symbols ↔
      chars = symbols.map Symbol.toChar ∧ ∀ s ∈ symbols, s ∈ g.symbols :=
  read_eq_ok rfl (fun _ _ => rfl) (fun _ _ => declared?_eq_some)

theorem defined_eq_ok {c : Char} {s : Symbol} :
    g.defined c .nonterminal = .ok s ↔ c = s.toChar ∧ s ∈ g.nonterminals := by
  have kind {s : Symbol} : g.kindOf s = some .nonterminal ↔ s ∈ g.nonterminals := by
    rw [kindOf, SymbolSet.mem_iff]
    cases g.nonterminals.contains s <;> cases g.terminals.contains s <;> simp
  unfold defined
  split
  · rename_i t found
    rw [Option.filter_eq_some_iff, Symbol.ofChar?_eq_some, decide_eq_true_eq, kind] at found
    rw [Except.ok.injEq]
    constructor
    · rintro rfl
      exact found
    · intro ⟨same, _⟩
      exact Symbol.toChar_injective (found.1.symm.trans same)
  · rename_i missing
    constructor
    · intro impossible
      cases impossible
    · rintro ⟨same, declared⟩
      rw [same, Symbol.ofChar?_toChar] at missing
      simp [kind.mpr declared] at missing

/-- The texts of right-hand sides over declared symbols are read, and no other. -/
theorem parseRhs_eq_ok (valid : g.Valid) {text : String} {rhs : Rhs} :
    g.parseRhs text = .ok rhs ↔
      text.toList = rhs.chars ∧ rhs ≠ .sequence [] ∧ ∀ s ∈ rhs.toList, s ∈ g.symbols := by
  unfold parseRhs
  split
  · rename_i letter
    rw [letter, Except.ok.injEq]
    constructor
    · rintro rfl
      simp [Rhs.chars, Rhs.toList]
    · rintro ⟨spelled, _, declared⟩
      exact Rhs.chars_injective (by simp [Rhs.toList]) (fun s inside => valid.declarable (declared s inside))
        spelled
  · rename_i nothing
    constructor
    · intro impossible
      cases impossible
    · rintro ⟨spelled, proper, _⟩
      rw [nothing] at spelled
      cases rhs with
      | epsilon => cases spelled
      | sequence symbols => exact absurd (congrArg Rhs.sequence (List.map_eq_nil_iff.mp spelled.symm)) proper
  · rename_i other filled
    constructor
    · intro succeeded
      obtain ⟨symbols, read, rfl⟩ := map_eq_ok succeeded
      obtain ⟨spelled, declared⟩ := readSymbols_eq_ok.mp read
      rw [Rhs.toList_ofList]
      refine ⟨?_, Rhs.ofList_ne_sequence_nil symbols, declared⟩
      cases symbols with
      | nil => exact absurd spelled filled
      | cons s rest => exact spelled
    · rintro ⟨spelled, proper, declared⟩
      cases rhs with
      | epsilon => exact absurd spelled other
      | sequence symbols =>
        rw [readSymbols_eq_ok.mpr ⟨spelled, declared⟩]
        exact congrArg Except.ok (Rhs.ofList_toList proper)

theorem parseRule_eq_ok (valid : g.Valid) {c : Char} {text : String} {rule : Rule} :
    g.parseRule c text = .ok rule ↔
      c = rule.lhs.toChar ∧ text.toList = rule.rhs.chars ∧ g.Admits rule := by
  constructor
  · intro parsed
    obtain ⟨lhs, defined, parsed⟩ := bind_eq_ok parsed
    obtain ⟨rhs, read, result⟩ := bind_eq_ok parsed
    cases result
    obtain ⟨same, declared⟩ := defined_eq_ok.mp defined
    obtain ⟨spelled, proper, known⟩ := (parseRhs_eq_ok valid).mp read
    exact ⟨same, spelled, declared, proper, known⟩
  · rintro ⟨rfl, spelled, admits⟩
    rw [parseRule, defined_eq_ok.mpr ⟨rfl, admits.lhs⟩]
    have read := (parseRhs_eq_ok valid).mpr ⟨spelled, admits.proper, admits.declared⟩
    simp only [bind, Except.bind, read]
    rfl

end Grammar

end ContextFree
