import EpsilonAutomata.Proofs.Build.Image

/-!
# Equal expressions

Expressions are equal when they have one structure and equal symbols, which may be written differently:
one, true and a double one are equal. So nothing that is made of an expression can tell it from an equal
one, up to `==` of what is made: neither its automaton (`Build.agree_compile`), nor its language
(`Regex.language_congr`), nor its alphabet.
-/

namespace EpsilonAutomata

/-! ## Work that agrees -/

/-- From counters that stand at one whole number both make an automaton, these are equal, and the
counters come to stand at one number. -/
def Build.Agree (x y : Build Automaton) : Prop :=
  ∀ (ws ws' : Workshop) (c : Int), ws.counter.value? = some c → ws'.counter.value? = some c →
    ∃ n after m after' d, x.runWith ws = (.ok n, after) ∧ y.runWith ws' = (.ok m, after') ∧
      (n == m) = true ∧ after.counter.value? = some d ∧ after'.counter.value? = some d

variable {a b : Regex}

/-- The two expressions are laid out alike: on the same numbers, and as equal shapes. -/
structure Regex.SameLayout (a b : Regex) : Prop where
  stateCount : a.stateCount = b.stateCount
  layout : ∀ c, (a.layout c == b.layout c) = true

theorem Regex.sameLayout_of_same (ha : a.Compilable) (hab : same a b = true) : SameLayout a b where
  stateCount := stateCount_congr hab
  layout _ := Shape.image_beq_iff.mp (image_layout .beq ha hab fun _ _ _ => BEq.rfl)

namespace Build

/-- The work lays out the expression on the numbers that it draws. -/
def LaysOut (x : Build Automaton) (a : Regex) : Prop :=
  ∀ {ws : Workshop} {c : Int}, ws.counter.value? = some c →
    ∃ after, x.runWith ws = (.ok (Automaton.ofShape (a.layout c)), after) ∧
      after.counter.value? = some (c + a.stateCount)

theorem LaysOut.agree {x y : Build Automaton} (hx : LaysOut x a) (hy : LaysOut y b)
    (h : a.SameLayout b) : Agree x y := by
  intro ws ws' c hc hc'
  obtain ⟨after, hrun, hafter⟩ := hx hc
  obtain ⟨after', hrun', hafter'⟩ := hy hc'
  rw [← h.stateCount] at hafter'
  exact ⟨_, after, _, after', _, hrun, hrun', h.layout c, hafter, hafter'⟩

theorem agree_regex (ha : a.Compiles) (hb : b.Compiles) (h : a.SameLayout b) :
    Agree (regex a) (regex b) :=
  LaysOut.agree (runWith_regex (Regex.compiles_iff.mp ha))
    (runWith_regex (Regex.compiles_iff.mp hb)) h

theorem agree_compile (ha : a.Compiles) (hb : b.Compiles) (h : a.SameLayout b) :
    Agree (compile (.node a)) (compile (.node b)) :=
  LaysOut.agree (runWith_compile (Regex.compiles_iff.mp ha))
    (runWith_compile (Regex.compiles_iff.mp hb)) h

end Build

/-! ## Equality is respected -/

namespace Regex

theorem alphabet_congr (ha : a.Compilable) (hb : b.Compilable) (hab : same a b = true) :
    ∃ x y, a.alphabet = .ok x ∧ b.alphabet = .ok y ∧ (x == y) = true := by
  have hlayout := (sameLayout_of_same ha hab).layout 0
  exact ⟨_, _, alphabet_layout ha 0, alphabet_layout hb 0, (Shape.beq_iff.mp hlayout).2.1⟩

/-- Equality of expressions is an equivalence relation. Equal expressions that compile have equal
automata, made from equal numbers, equal languages and equal alphabets. -/
theorem equality_respected :
    (Equivalence fun a b : Regex => (a == b) = true) ∧
      ∀ a b : Regex, (a == b) = true → a.Compiles → b.Compiles →
        Build.Agree (Build.compile (.node a)) (Build.compile (.node b)) ∧
        (∃ l l', a.language = .ok l ∧ b.language = .ok l' ∧ (l == l') = true) ∧
        ∃ x y, a.alphabet = .ok x ∧ b.alphabet = .ok y ∧ (x == y) = true := by
  refine ⟨⟨fun _ => BEq.rfl, BEq.symm, BEq.trans⟩, fun a b hab ha hb => ?_⟩
  have ha' := compiles_iff.mp ha
  have hb' := compiles_iff.mp hb
  exact ⟨Build.agree_compile ha hb (sameLayout_of_same ha' hab), language_congr ha' hb' hab,
    alphabet_congr ha' hb' hab⟩

/-- One, true and a double one, each in a tuple, before a choice in which they meet again. -/
theorem equality_respected_ones :
    let one : Value := .tuple [.int 1]
    let yes : Value := .tuple [.bool true]
    let a := Regex.seq (.symb one) (.alt (.symb yes) .eps)
    let b := Regex.seq (.symb yes) (.alt (.symb (.tuple [.double (.finite 1)])) .eps)
    ((a == b) = true ∧ a.Compiles ∧ b.Compiles) ∧
      Build.Agree (Build.compile (.node a)) (Build.compile (.node b)) ∧
      (∃ l l', a.language = .ok l ∧ b.language = .ok l' ∧ (l == l') = true) ∧
      ∃ x y, a.alphabet = .ok x ∧ b.alphabet = .ok y ∧ (x == y) = true := by
  intro one yes a b
  have hab : (a == b) = true := by decide +kernel
  have ha : a.Compiles := compiles_iff.mpr ⟨⟨rfl, rfl⟩, ⟨rfl, rfl⟩, trivial⟩
  have hb : b.Compiles := compiles_iff.mpr ⟨⟨rfl, rfl⟩, ⟨rfl, rfl⟩, trivial⟩
  exact ⟨⟨hab, ha, hb⟩, equality_respected.2 a b hab ha hb⟩

end Regex

end EpsilonAutomata
