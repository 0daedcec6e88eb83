import EpsilonAutomata.Proofs.Automaton.Alike

/-!
# The lookup tables agree with the transitions

Single moves are looked up in two tables, one for the empty moves and one by source and symbol, and
the symbols that can be read are gathered from the transitions themselves. All three describe one
relation: a target is found under a state and a label exactly if the transition is there
(`symbolSuccessors_eq_ok`), a set of states is moved to the targets found under its members
(`step_eq_ok`), and a symbol can be read in a set exactly if moving the set by it leads somewhere
(`getLabels_eq_ok`). Keys are compared as values are, so a number may be looked up by an equal one of
another kind; the empty move is told by its mark alone.
-/

namespace EpsilonAutomata.Automaton

variable {n : Automaton} {a s x : Value} {xs : List Value}

/-! ## Single states -/

theorem symbolSuccessors_eq_ok (hn : n.Valid) (hs : s.hashable = true) (hx : x.hashable = true) :
    ∃ r, n.symbolSuccessors s x = .ok r ∧
      ∀ d, d ∈ r ↔ (⟨s, x, d⟩ : Transition) ∈ n.transitions :=
  ⟨n.targets s x, if_pos (by rw [hs, hx]; rfl), fun _ => mem_targets hn⟩

theorem symbolSuccessors_epsilon (n : Automaton) (s : Value) :
    n.symbolSuccessors s .epsilon = n.epsilonSuccessors s := by
  have hkey : (s.hashable && Value.epsilon.hashable) = s.hashable := Bool.and_true _
  rw [symbolSuccessors, hkey]
  rfl

/-! ## Sets of states -/

theorem step_eq_ok (hn : n.Valid) (ha : ∀ b ∈ a.named, n.IsState b) (hx : x.hashable = true) :
    ∃ moved, n.step a x = .ok moved ∧
      ∀ d, d ∈ moved ↔ ∃ s ∈ a.named, (⟨s, x, d⟩ : Transition) ∈ n.transitions := by
  obtain ⟨moved, hmove, hmem⟩ := move_eq_ok hn (s := .ofList a.named) hx
  refine ⟨moved, by rw [step, statesOf_eq_ok ha]; exact hmove, fun d => ?_⟩
  rw [hmem]
  constructor
  · rintro ⟨b, hb, hd⟩
    obtain ⟨c, hc, hcb⟩ := OrderedSet.mem_ofList.mp hb
    exact ⟨c, hc, (Shape.mem_transitions_congr hcb BEq.rfl BEq.rfl).mpr hd⟩
  · rintro ⟨b, hb, hd⟩
    exact ⟨b, OrderedSet.mem_ofList.mpr ⟨b, hb, BEq.rfl⟩, hd⟩

theorem getLabels_eq_ok (n : Automaton) (ha : a.members? = some xs) :
    ∃ labels, n.getLabels a = .ok labels ∧
      ∀ x, x ∈ labels ↔
        x.isEpsilon = false ∧ ∃ s ∈ xs, ∃ d, (⟨s, x, d⟩ : Transition) ∈ n.transitions := by
  have hasked : ¬ ∃ t ∈ n.transitions.items, a.holds? t.source = none := by
    rintro ⟨t, -, hnone⟩
    rw [Value.holds?_of_members ha] at hnone
    cases hnone
  obtain ⟨labels, hlabels, hmem⟩ := foldlM_addLabel_eq_ok ∅ hasked
  refine ⟨labels, hlabels, fun x => ?_⟩
  rw [hmem]
  constructor
  · rintro (hx | ⟨t, ht, hheld, hread, hlabel⟩)
    · exact absurd hx (OrderedSet.not_mem_empty x)
    · rw [Value.holds?_of_members ha, Option.some.injEq, List.any_eq_true] at hheld
      obtain ⟨s, hs, hsource⟩ := hheld
      refine ⟨by rw [← Value.isEpsilon_congr hlabel, hread], s, hs, t.target, ?_⟩
      exact OrderedSet.mem_iff_exists.mpr
        ⟨t, ht, Transition.beq_iff.mpr ⟨BEq.symm hsource, hlabel, BEq.rfl⟩⟩
  · rintro ⟨hread, s, hs, d, hmove⟩
    obtain ⟨t, ht, htu⟩ := OrderedSet.mem_iff_exists.mp hmove
    obtain ⟨hsource, hlabel, -⟩ := Transition.beq_iff.mp htu
    refine .inr ⟨t, ht, ?_, by rw [Value.isEpsilon_congr hlabel, hread], hlabel⟩
    rw [Value.holds?_of_members ha, Option.some.injEq, List.any_eq_true]
    exact ⟨s, hs, BEq.symm hsource⟩

/-! ## All lookups -/

/-- Whatever can be looked up is found as the transitions have it: the targets under a state and a
label, also under the mark of the empty move; the moves of a set of states, as the targets under its
members; and the symbols that can be read in a set, as those by which it can be moved. -/
theorem lookups_agree_with_transitions (made : n.Made) (hs : s.hashable = true)
    (hx : x.hashable = true) (ha : a.members? = some xs) (hstates : ∀ b ∈ xs, n.IsState b) :
    (∃ r, n.symbolSuccessors s x = .ok r ∧
      ∀ d, d ∈ r ↔ (⟨s, x, d⟩ : Transition) ∈ n.transitions) ∧
    n.symbolSuccessors s .epsilon = n.epsilonSuccessors s ∧
    ∃ moved labels, n.step a x = .ok moved ∧ n.getLabels a = .ok labels ∧
      (∀ d, d ∈ moved ↔ ∃ b ∈ xs, ∃ r, n.symbolSuccessors b x = .ok r ∧ d ∈ r) ∧
      (x ∈ labels ↔ x.isEpsilon = false ∧ moved.isEmpty = false) := by
  have hn := made.valid
  have hnamed := Value.named_of_members ha
  obtain ⟨moved, hstep, hmoved⟩ := step_eq_ok hn (by rwa [hnamed]) hx
  obtain ⟨labels, hlabels, hmem⟩ := n.getLabels_eq_ok ha
  rw [hnamed] at hmoved
  refine ⟨symbolSuccessors_eq_ok hn hs hx, n.symbolSuccessors_epsilon s, moved, labels, hstep,
    hlabels, fun d => ?_, ?_⟩
  · rw [hmoved]
    refine exists_congr fun b => and_congr_right fun hb => ?_
    obtain ⟨r, hr, hfound⟩ := symbolSuccessors_eq_ok hn (hstates b hb).hashable hx
    simp only [hr, Except.ok.injEq, exists_eq_left', hfound]
  · have hmoves : moved.isEmpty = false ↔ ∃ d, d ∈ moved := by
      rw [Bool.eq_false_iff, ne_eq, OrderedSet.isEmpty_iff_forall_not_mem, not_forall_not]
    rw [hmem, hmoves]
    refine and_congr_right fun _ => ?_
    simp only [hmoved]
    constructor
    · rintro ⟨b, hb, d, hd⟩
      exact ⟨d, b, hb, hd⟩
    · rintro ⟨d, b, hb, hd⟩
      exact ⟨b, hb, d, hd⟩

/-- A truth value and a number stand for one state and for one symbol, and a set among the states is
given by an equal one. -/
theorem lookups_agree_with_transitions_looping :
    let n := ofShape looping
    let s := Value.double (.finite 1)
    let xs := [Value.bool true, .frozenSet [.double (.finite 2)]]
    (n.Made ∧ s.hashable = true ∧ (Value.set xs).members? = some xs ∧ ∀ b ∈ xs, n.IsState b) ∧
    (∃ r, n.symbolSuccessors s s = .ok r ∧
      ∀ d, d ∈ r ↔ (⟨s, s, d⟩ : Transition) ∈ n.transitions) ∧
    n.symbolSuccessors s .epsilon = n.epsilonSuccessors s ∧
    ∃ moved labels, n.step (.set xs) s = .ok moved ∧ n.getLabels (.set xs) = .ok labels ∧
      (∀ d, d ∈ moved ↔ ∃ b ∈ xs, ∃ r, n.symbolSuccessors b s = .ok r ∧ d ∈ r) ∧
      (s ∈ labels ↔ s.isEpsilon = false ∧ moved.isEmpty = false) := by
  intro n s xs
  have hstates : ∀ b ∈ xs, n.IsState b := by
    intro b hb
    rcases List.mem_pair.mp hb with rfl | rfl
    · exact ⟨rfl, by decide +kernel⟩
    · exact ⟨by decide +kernel, by decide +kernel⟩
  exact ⟨⟨looping_made, rfl, rfl, hstates⟩,
    lookups_agree_with_transitions looping_made rfl rfl rfl hstates⟩

end EpsilonAutomata.Automaton
