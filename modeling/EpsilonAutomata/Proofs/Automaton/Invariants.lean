import EpsilonAutomata.Proofs.Automaton.Document

/-!
# The constructor checks the invariants, and nothing else

Arguments that can be gone through, and yield values and triples of values that can be looked up,
make a shape whose five sets are the sets of what they yield (`shape_ofValues`). Of this shape the
check of the constructor is exact: it lists a breach with the number of an invariant if and only if
that invariant fails of the five sets, and the automaton is made if and only if all six hold.
Otherwise the breaches are the fault. A start state that was given as a set keeps the invariants if a
state equals it, and is refused for what it is. Membership counts up to equality of values: a start
state may be held as a truth value where the states are whole numbers.
-/

namespace EpsilonAutomata

open Outcome

/-- The arguments yield the parts, each of which can be looked up. A transition is anything that
yields three values. -/
structure Parts.YieldedBy (o : Parts) (states alphabet initial transitions finals : Value) : Prop where
  states : states.items = .ok o.states
  alphabet : alphabet.items = .ok o.alphabet
  initial : initial = o.initial
  transitions : ∃ triples, transitions.items = .ok triples ∧
    triples.mapM Value.items = .ok (o.transitions.map fun t => [t.source, t.label, t.target])
  finals : finals.items = .ok o.finals
  states_hashable : ∀ a ∈ o.states, a.hashable = true
  alphabet_hashable : ∀ x ∈ o.alphabet, x.hashable = true
  initial_seekable : o.initial.isSeekable = true
  transitions_hashable : ∀ t ∈ o.transitions, t.hashable = true
  finals_hashable : ∀ f ∈ o.finals, f.hashable = true

namespace Automaton

variable {o : Parts} {states alphabet initial transitions finals : Value}

theorem shape_ofValues (h : o.YieldedBy states alphabet initial transitions finals) :
    Shape.ofValues states alphabet initial transitions finals = .ok o.toShape := by
  obtain ⟨triples, hitems, htriples⟩ := h.transitions
  simp only [Shape.ofValues, bind_eq_ok_iff]
  refine ⟨_, h.states, _, h.alphabet, _, hitems, _, htriples, _, h.finals, ?_⟩
  rw [h.initial]
  exact ofParts_eq_ok h.states_hashable h.alphabet_hashable h.initial_seekable
    h.transitions_hashable h.finals_hashable

/-- A breach with the number of an invariant is listed if and only if the invariant fails, and the
constructor returns if and only if none fails; the breaches are its only fault, unless the start state
was given as a set. -/
theorem ofValues_exact (h : o.YieldedBy states alphabet initial transitions finals) :
    Shape.ofValues states alphabet initial transitions finals = .ok o.toShape ∧
    (∀ k, (∃ v ∈ o.toShape.violations, v.number = k) ↔ ¬ o.toShape.Keeps k) ∧
    (o.initial.hashable = true →
      ((∃ n, ofValues states alphabet initial transitions finals = .ok n) ↔
        ∀ k, o.toShape.Keeps k)) ∧
    (∀ n, ofValues states alphabet initial transitions finals = .ok n → n.toShape = o.toShape) ∧
    (¬ (∀ k, o.toShape.Keeps k) →
      ofValues states alphabet initial transitions finals = .error (.broken o.toShape.violations)) ∧
    (o.initial.hashable = false → (∀ k, o.toShape.Keeps k) →
      ofValues states alphabet initial transitions finals = .error .setStart) := by
  have hshape := shape_ofValues h
  refine ⟨hshape, Shape.exists_number_iff, fun hstart => ?_, ?_, fun hfails => ?_,
    fun hstart hkeeps => ?_⟩
  · rw [← Shape.sound_iff_keeps]
    constructor
    · rintro ⟨n, hn⟩
      exact ((ofValues_eq_ok_iff hshape).mp hn).1
    · intro hsound
      exact ⟨_, ofValues_eq_ok hshape hsound hstart⟩
  · intro n hn
    obtain ⟨-, -, rfl⟩ := (ofValues_eq_ok_iff hshape).mp hn
    rfl
  · rw [ofValues, hshape]
    show (make o.toShape >>= _) = _
    rw [make_eq_error (mt Shape.violations_eq_nil_iff_keeps.mp hfails)]
    rfl
  · rw [ofValues, hshape]
    show (make o.toShape >>= _) = _
    rw [make_eq_ok_iff.mpr ⟨Shape.sound_iff_keeps.mpr hkeeps, rfl⟩]
    show (if !o.initial.hashable then _ else _) = _
    rw [hstart]
    rfl

/-- A start state that is held in another form, a transition that is text and leaves the states, and a
final state that is none. -/
def strayed : Parts where
  states := [.int 1, .int 2]
  alphabet := [.text "a", .text "b"]
  initial := .bool true
  transitions := [⟨.int 1, .text "a", .double (.finite 2)⟩, ⟨.int 2, .epsilon, .bool true⟩,
    ⟨.text "1", .text "b", .text "2"⟩]
  finals := [.int 2, .int 3]

theorem ofValues_exact_strayed :
    let states := Value.list [.int 1, .int 2]
    let transitions := Value.list [.tuple [.int 1, .text "a", .double (.finite 2)],
      .list [.int 2, .epsilon, .bool true], .text "1b2"]
    let finals := Value.frozenSet [.int 2, .int 3]
    (strayed.YieldedBy states (.text "ab") (.bool true) transitions finals ∧
      strayed.toShape.violations.map Violation.number = [5, 6]) ∧
    Shape.ofValues states (.text "ab") (.bool true) transitions finals = .ok strayed.toShape ∧
    (∀ k, (∃ v ∈ strayed.toShape.violations, v.number = k) ↔ ¬ strayed.toShape.Keeps k) ∧
    ((∃ n, ofValues states (.text "ab") (.bool true) transitions finals = .ok n) ↔
      ∀ k, strayed.toShape.Keeps k) ∧
    (∀ n, ofValues states (.text "ab") (.bool true) transitions finals = .ok n →
      n.toShape = strayed.toShape) ∧
    (¬ (∀ k, strayed.toShape.Keeps k) →
      ofValues states (.text "ab") (.bool true) transitions finals =
        .error (.broken strayed.toShape.violations)) := by
  intro states transitions finals
  have h : strayed.YieldedBy states (.text "ab") (.bool true) transitions finals := {
    states := rfl
    alphabet := by with_unfolding_all rfl
    initial := rfl
    transitions := ⟨_, rfl, by with_unfolding_all rfl⟩
    finals := rfl
    states_hashable := by decide +kernel
    alphabet_hashable := by decide +kernel
    initial_seekable := rfl
    transitions_hashable := by decide +kernel
    finals_hashable := by decide +kernel }
  obtain ⟨hshape, hnumbers, hreturns, hsame, hbroken, -⟩ := ofValues_exact h
  exact ⟨⟨h, by decide +kernel⟩, hshape, hnumbers, hreturns rfl, hsame, hbroken⟩

end Automaton

end EpsilonAutomata
