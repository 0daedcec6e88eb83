import EpsilonAutomata.Collection.Table
import EpsilonAutomata.Value.Equality

/-!
# Automata with empty moves

A nondeterministic finite automaton is a `Shape`: states, alphabet, start state, transitions and
final states. An `Automaton` is a shape together with two lookup tables over its transitions, one
for the empty moves and one for the moves that read a symbol, each computed when it is first used.
-/

namespace EpsilonAutomata

abbrev ValueSet := OrderedSet Value

abbrev Word := List Value

/-- A move from a source to a target. The label is a symbol, or the mark of the empty move. -/
structure Transition where
  source : Value
  label : Value
  target : Value
  deriving Inhabited

namespace Transition

def same (t u : Transition) : Bool :=
  t.source == u.source && t.label == u.label && t.target == u.target

instance : BEq Transition := ⟨same⟩

theorem beq_iff {t u : Transition} : (t == u) = true ↔
    (t.source == u.source) = true ∧ (t.label == u.label) = true ∧
      (t.target == u.target) = true := by
  show same t u = true ↔ _
  simp [same, and_assoc]

instance : EquivBEq Transition where
  rfl := beq_iff.2 ⟨BEq.rfl, BEq.rfl, BEq.rfl⟩
  symm h :=
    have ⟨h₁, h₂, h₃⟩ := beq_iff.1 h
    beq_iff.2 ⟨BEq.symm h₁, BEq.symm h₂, BEq.symm h₃⟩
  trans h k :=
    have ⟨h₁, h₂, h₃⟩ := beq_iff.1 h
    have ⟨k₁, k₂, k₃⟩ := beq_iff.1 k
    beq_iff.2 ⟨BEq.trans h₁ k₁, BEq.trans h₂ k₂, BEq.trans h₃ k₃⟩

def triple (t : Transition) : Value :=
  .tuple [t.source, t.label, t.target]

def hashable (t : Transition) : Bool :=
  t.source.hashable && t.label.hashable && t.target.hashable

end Transition

/-- The five parts of an automaton. -/
structure Shape where
  states : ValueSet
  alphabet : ValueSet
  initial : Value
  transitions : OrderedSet Transition
  finals : ValueSet
  deriving Inhabited

def Shape.same (s t : Shape) : Bool :=
  s.states == t.states && s.alphabet == t.alphabet && s.initial == t.initial &&
    s.transitions == t.transitions && s.finals == t.finals

instance : BEq Shape := ⟨Shape.same⟩

theorem Shape.beq_iff {s t : Shape} : (s == t) = true ↔
    (s.states == t.states) = true ∧ (s.alphabet == t.alphabet) = true ∧
      (s.initial == t.initial) = true ∧ (s.transitions == t.transitions) = true ∧
      (s.finals == t.finals) = true := by
  show Shape.same s t = true ↔ _
  simp [Shape.same, and_assoc]

instance : EquivBEq Shape where
  rfl := Shape.beq_iff.2 ⟨BEq.rfl, BEq.rfl, BEq.rfl, BEq.rfl, BEq.rfl⟩
  symm h :=
    have ⟨h₁, h₂, h₃, h₄, h₅⟩ := Shape.beq_iff.1 h
    Shape.beq_iff.2 ⟨BEq.symm h₁, BEq.symm h₂, BEq.symm h₃, BEq.symm h₄, BEq.symm h₅⟩
  trans h k :=
    have ⟨h₁, h₂, h₃, h₄, h₅⟩ := Shape.beq_iff.1 h
    have ⟨k₁, k₂, k₃, k₄, k₅⟩ := Shape.beq_iff.1 k
    Shape.beq_iff.2 ⟨BEq.trans h₁ k₁, BEq.trans h₂ k₂, BEq.trans h₃ k₃, BEq.trans h₄ k₄,
      BEq.trans h₅ k₅⟩

/-! ## Lookup tables -/

/-- A state and a symbol read in it. -/
structure Reading where
  state : Value
  symbol : Value

instance : BEq Reading := ⟨fun a b => a.state == b.state && a.symbol == b.symbol⟩

theorem Reading.beq_iff {a b : Reading} :
    (a == b) = true ↔ (a.state == b.state) = true ∧ (a.symbol == b.symbol) = true := by
  show (a.state == b.state && a.symbol == b.symbol) = true ↔ _
  simp

instance : EquivBEq Reading where
  rfl := Reading.beq_iff.2 ⟨BEq.rfl, BEq.rfl⟩
  symm h :=
    have ⟨h₁, h₂⟩ := Reading.beq_iff.1 h
    Reading.beq_iff.2 ⟨BEq.symm h₁, BEq.symm h₂⟩
  trans h k :=
    have ⟨h₁, h₂⟩ := Reading.beq_iff.1 h
    have ⟨k₁, k₂⟩ := Reading.beq_iff.1 k
    Reading.beq_iff.2 ⟨BEq.trans h₁ k₁, BEq.trans h₂ k₂⟩

/-- The targets of empty moves, by source. -/
abbrev EpsilonTable := Table Value Value

/-- The targets of all other moves, by source and symbol. -/
abbrev SymbolTable := Table Reading Value

namespace Shape

/-- The empty moves, one transition at a time. -/
def epsilonTable (s : Shape) : EpsilonTable :=
  s.transitions.items.foldl
    (fun table t => if t.label.isEpsilon then table.add t.source t.target else table) .empty

/-- The moves that read a symbol, one transition at a time. -/
def symbolTable (s : Shape) : SymbolTable :=
  s.transitions.items.foldl
    (fun table t =>
      if t.label.isEpsilon then table else table.add ⟨t.source, t.label⟩ t.target) .empty

theorem mem_foldl_epsilonTable {ts : List Transition} {table : EpsilonTable} {a d : Value} :
    d ∈ (ts.foldl (fun table t =>
      if t.label.isEpsilon then table.add t.source t.target else table) table).get a ↔
      d ∈ table.get a ∨ ∃ t ∈ ts, (t == ⟨a, .epsilon, d⟩) = true := by
  induction ts generalizing table with
  | nil => simp
  | cons t ts ih =>
    rw [List.foldl_cons, ih]
    simp only [List.mem_cons, exists_eq_or_imp, Transition.beq_iff, Value.beq_epsilon]
    split
    · next h => simp [Table.mem_get_add, h, or_assoc]
    · next h => simp [h]

theorem mem_epsilonTable {s : Shape} {a d : Value} :
    d ∈ s.epsilonTable.get a ↔ (⟨a, .epsilon, d⟩ : Transition) ∈ s.transitions := by
  rw [epsilonTable, mem_foldl_epsilonTable, OrderedSet.mem_iff_exists (s := s.transitions)]
  exact ⟨fun h => h.elim (fun h => absurd h (Table.not_mem_get_empty a d)) id, .inr⟩

theorem mem_foldl_symbolTable {ts : List Transition} {table : SymbolTable} {a x d : Value}
    (hx : x.isEpsilon = false) :
    d ∈ (ts.foldl (fun table t =>
      if t.label.isEpsilon then table else table.add ⟨t.source, t.label⟩ t.target) table).get
        ⟨a, x⟩ ↔
      d ∈ table.get ⟨a, x⟩ ∨ ∃ t ∈ ts, (t == ⟨a, x, d⟩) = true := by
  induction ts generalizing table with
  | nil => simp
  | cons t ts ih =>
    rw [List.foldl_cons, ih]
    simp only [List.mem_cons, exists_eq_or_imp, Transition.beq_iff]
    split
    · next h =>
      have hlabel : (t.label == x) = false := by
        rw [Value.eq_epsilon_of_isEpsilon h, BEq.comm, Value.beq_epsilon, hx]
      simp [hlabel]
    · simp [Table.mem_get_add, Reading.beq_iff, or_assoc, and_assoc]

theorem mem_symbolTable {s : Shape} {a x d : Value} (hx : x.isEpsilon = false) :
    d ∈ s.symbolTable.get ⟨a, x⟩ ↔ (⟨a, x, d⟩ : Transition) ∈ s.transitions := by
  rw [symbolTable, mem_foldl_symbolTable hx, OrderedSet.mem_iff_exists (s := s.transitions)]
  exact ⟨fun h => h.elim (fun h => absurd h (Table.not_mem_get_empty _ d)) id, .inr⟩

theorem exists_of_mem_epsilonTable {s : Shape} {b : Value} (h : b ∈ s.epsilonTable.targets) :
    ∃ t ∈ s.transitions.items, t.target = b := by
  refine Table.exists_of_mem_targets_foldl ?_ h
  intro table t b hb
  split at hb
  · exact Table.mem_targets_add hb
  · exact .inl hb

theorem exists_of_mem_symbolTable {s : Shape} {b : Value} (h : b ∈ s.symbolTable.targets) :
    ∃ t ∈ s.transitions.items, t.target = b := by
  refine Table.exists_of_mem_targets_foldl ?_ h
  intro table t b hb
  split at hb
  · exact .inl hb
  · exact Table.mem_targets_add hb

end Shape

/-- A shape with its lookup tables. -/
structure Automaton extends Shape where
  epsilonMoves : Thunk EpsilonTable
  symbolMoves : Thunk SymbolTable

namespace Automaton

/-- The automaton of a shape, its tables read off the transitions. -/
def ofShape (s : Shape) : Automaton where
  toShape := s
  epsilonMoves := Thunk.mk fun _ => s.epsilonTable
  symbolMoves := Thunk.mk fun _ => s.symbolTable

instance : Inhabited Automaton := ⟨ofShape default⟩

instance : BEq Automaton := ⟨fun m n => m.toShape == n.toShape⟩

def size (n : Automaton) : Nat := n.states.size

end Automaton

end EpsilonAutomata
