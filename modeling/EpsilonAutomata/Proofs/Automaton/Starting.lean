import EpsilonAutomata.Proofs.Automaton.Closure
import EpsilonAutomata.Proofs.Automaton.Reading
import EpsilonAutomata.Proofs.Automaton.Refusal

/-!
# Where an automaton starts

The closure of the start state is asked for by the start state itself, and a query takes a set for the
states in it. So an automaton starts where empty moves lead from its start state unless that state is
a set; then it starts where they lead from the members of the set, and does not start at all if one of
them is no state (`start_reaches`).
-/

namespace EpsilonAutomata.Automaton

variable {n : Automaton}

theorem start_eq : n.start = n.statesOf n.initial >>= n.close .rounds := rfl

theorem start_of_named (hn : n.Valid) (hinitial : ∀ s ∈ n.initial.named, n.IsState s) :
    ∃ r, n.start = .ok r ∧ ∀ b, b ∈ r ↔ ∃ s ∈ n.initial.named, ∃ ts, Trail n.toShape s ts b ∧
      ∀ t ∈ ts, t.label.isEpsilon = true := by
  obtain ⟨r, hr, hclosure⟩ := close_named hn .rounds hinitial
  refine ⟨r, start_eq.trans hr, fun b => ?_⟩
  rw [hclosure.mem_iff]
  simp only [run_nil_iff_exists_trail]

/-- An automaton starts exactly where empty moves lead from its start state, the start state included,
if that is no set. If it is one, then the automaton starts where they lead from the members, and does
not start if some member is no state. -/
theorem start_reaches (made : n.Made) :
    (n.initial.members? = none → ∃ r, n.start = .ok r ∧ n.initial ∈ r ∧
      ∀ b, b ∈ r ↔ ∃ ts, Trail n.toShape n.initial ts b ∧ ∀ t ∈ ts, t.label.isEpsilon = true) ∧
    ∀ xs, n.initial.members? = some xs →
      ((∀ s ∈ xs, n.IsState s) → ∃ r, n.start = .ok r ∧
        ∀ b, b ∈ r ↔ ∃ s ∈ xs, ∃ ts, Trail n.toShape s ts b ∧ ∀ t ∈ ts, t.label.isEpsilon = true) ∧
      ((∃ s ∈ xs, ¬ n.IsState s) → ∃ e, n.IsRefusal e ∧ n.start = .error e) := by
  have hn := made.valid
  constructor
  · intro hset
    have hstate := hn.isState_initial
    have hnamed : n.initial.named = [n.initial] := Value.named_eq_self hstate.hashable hset
    obtain ⟨r, hr, hreach⟩ := start_of_named hn (by simpa [hnamed] using hstate)
    simp only [hnamed, List.mem_singleton, exists_eq_left] at hreach
    exact ⟨r, hr, (hreach _).mpr (run_nil_iff_exists_trail.mp .refl), hreach⟩
  · intro xs hset
    have hnamed : n.initial.named = xs := by
      cases hinitial : n.initial <;> simp_all [Value.members?, Value.named]
    constructor
    · intro hxs
      obtain ⟨r, hr, hreach⟩ := start_of_named hn (by rwa [hnamed])
      rw [hnamed] at hreach
      exact ⟨r, hr, hreach⟩
    · intro hxs
      obtain ⟨e, hrefusal, he⟩ := statesOf_refuses (n := n) (a := n.initial) (by rwa [hnamed])
      exact ⟨e, hrefusal, by rw [start_eq, he]; rfl⟩

/-- From a state on a cycle of empty moves. -/
theorem start_reaches_merging :
    let n := ofShape merging
    (n.Made ∧ n.initial.members? = none) ∧ ∃ r, n.start = .ok r ∧ n.initial ∈ r ∧
      ∀ b, b ∈ r ↔ ∃ ts, Trail merging (.int 1) ts b ∧ ∀ t ∈ ts, t.label.isEpsilon = true := by
  intro n
  exact ⟨⟨merging_made, rfl⟩, (start_reaches merging_made).1 rfl⟩

/-- An automaton whose one state is the empty frozen set. -/
def frozen : Shape where
  states := .ofList [.frozenSet []]
  alphabet := ∅
  initial := .frozenSet []
  transitions := ∅
  finals := ∅

theorem frozen_made : (ofShape frozen).Made :=
  made_ofShape (.list [.frozenSet []]) (.list []) (.frozenSet []) (.list []) (.list []) rfl
    (List.isEmpty_iff.mp (by decide +kernel)) rfl

/-- A start state that is the empty set is lost: the automaton starts nowhere, though there is a path
from the start state to itself. -/
theorem start_frozen :
    let n := ofShape frozen
    n.Made ∧ n.initial.hashable = true ∧ n.initial ∈ n.states ∧ n.start = .ok ∅ ∧
      n.initial ∉ (∅ : ValueSet) ∧ n.path n.initial (.list []) n.initial = .ok true := by
  intro n
  have hinitial : n.initial ∈ n.states := by decide +kernel
  have hempty : n.closure ∅ = ∅ := by
    rw [closure, Automaton.closeRounds, if_pos (by decide +kernel)]
  refine ⟨frozen_made, rfl, hinitial, ?_, OrderedSet.not_mem_empty _, ?_⟩
  · have hstates : n.statesOf n.initial = .ok ∅ :=
      statesOf_eq_ok fun b hb => absurd hb List.not_mem_nil
    rw [start_eq, hstates]
    exact congrArg Except.ok hempty
  · rw [path_eq_ok_true_iff frozen_made.valid ⟨rfl, hinitial⟩ ⟨rfl, hinitial⟩ rfl (by simp)]
    exact .refl

end EpsilonAutomata.Automaton
