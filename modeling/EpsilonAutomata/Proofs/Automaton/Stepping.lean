import EpsilonAutomata.Proofs.Automaton.Reading
import EpsilonAutomata.Proofs.Automaton.Refusal

/-!
# Stepping through a word

A word can be read symbol by symbol from outside, by asking for the next set of states each time
(`stepThrough`). In an automaton that came out of the constructor the tables give back values that
stand in the transitions, so what one query answers the next one takes as states, and stepping goes
through the same sets as reading does (`stepThrough_eq_ok`). The two differ at the end only: reading
puts the states it reached in order and fails where two of them cannot be compared, stepping does
not (`accepts_eq_stepThrough`).
-/

namespace EpsilonAutomata

open Outcome

namespace Automaton

variable {n : Automaton}

/-! ## Sets of states -/

theorem Made.isState_of_target (made : n.Made) {b : Value}
    (h : b ∈ n.epsilonGoals ∨ b ∈ n.symbolMoves.get.targets) : n.IsState b := by
  have hn := made.valid
  have htarget : ∃ t ∈ n.transitions.items, t.target = b := by
    rw [made.eq_ofShape] at h
    rcases h with h | h
    · exact Shape.exists_of_mem_epsilonTable h
    · exact Shape.exists_of_mem_symbolTable h
  obtain ⟨t, ht, rfl⟩ := htarget
  have hhash := hn.hashable.transitions t ht
  rw [Transition.hashable, Bool.and_eq_true] at hhash
  exact ⟨hhash.2, (hn.sound.move_mem t (OrderedSet.mem_of_mem_items ht)).2.1⟩

/-- Every item of the set names a state. -/
def OfStates (n : Automaton) (s : ValueSet) : Prop :=
  ∀ b ∈ s.items, n.IsState b

variable {s : ValueSet}

theorem OfStates.moved (made : n.Made) (x : Value) :
    n.OfStates (.ofList (s.items.flatMap fun a => (n.targets a x).items)) := by
  intro b hb
  obtain ⟨a, -, hb⟩ := List.mem_flatMap.mp (OrderedSet.mem_of_mem_items_ofList hb)
  apply made.isState_of_target
  unfold targets at hb
  split at hb
  · exact .inl (mem_epsilonGoals hb)
  · exact .inr (Table.mem_targets_of_mem_get hb)

theorem OfStates.closeRounds (made : n.Made) {closed frontier : ValueSet} (h : n.OfStates closed) :
    n.OfStates (n.closeRounds closed frontier) := by
  fun_induction n.closeRounds closed frontier with
  | case1 => exact h
  | case2 closed frontier found hnew ih =>
    apply ih
    intro b hb
    rcases OrderedSet.mem_items_of_mem_items_insertAll hb with hb | hb
    · exact h b hb
    · exact made.isState_of_target
        (.inl (mem_epsilonGoals_of_oneEpsilonAway (List.mem_filter.mp hb).1))

theorem OfStates.closure (made : n.Made) (h : n.OfStates s) : n.OfStates (n.closure s) :=
  OfStates.closeRounds made h

theorem OfStates.single {a : Value} (ha : n.IsState a) : n.OfStates (.ofList [a]) := by
  intro b hb
  rw [OrderedSet.eq_of_mem_items_singleton hb]
  exact ha

theorem statesOf_single {a : Value} (ha : n.IsState a) (hset : a.members? = none) :
    n.statesOf a = .ok (.ofList [a]) := by
  have hnamed := Value.named_eq_self ha.hashable hset
  rw [statesOf_eq_ok (by simpa [hnamed] using ha), hnamed]

theorem OfStates.statesOf_eq_ok (h : n.OfStates s) : n.statesOf (.frozenSet s.items) = .ok s := by
  rw [Automaton.statesOf_eq_ok (a := .frozenSet s.items) h, Value.named, OrderedSet.ofList_items]

/-! ## Steps -/

/-- The set of states that the query for the next set leads to, asked symbol by symbol. -/
def stepThrough (n : Automaton) : ValueSet → Word → Except Fault ValueSet
  | s, [] => .ok s
  | s, x :: word => do n.stepThrough (← n.nextState (.frozenSet s.items) x) word

theorem OfStates.nextState_eq (made : n.Made) (h : n.OfStates s) {x : Value}
    (hx : x.hashable = true) :
    ∃ r, n.nextState (.frozenSet s.items) x = .ok r ∧ (n.move s x >>= n.close .rounds) = .ok r ∧
      n.OfStates r := by
  have hmove : n.move s x = .ok (.ofList (s.items.flatMap fun a => (n.targets a x).items)) :=
    if_pos (by simp [hx])
  refine ⟨_, ?_, by rw [hmove]; rfl, (OfStates.moved made x).closure made⟩
  rw [nextState, h.statesOf_eq_ok]
  show n.advance s x = _
  rw [advance, hmove]
  rfl

theorem nextState_empty (n : Automaton) (x : Value) : n.nextState (.frozenSet []) x = .ok ∅ := by
  have hstates : n.statesOf (.frozenSet []) = .ok ∅ :=
    Automaton.statesOf_eq_ok (a := .frozenSet []) fun b hb => absurd hb List.not_mem_nil
  have hclosure : n.closure ∅ = ∅ := by
    rw [closure, Automaton.closeRounds]
    exact if_pos rfl
  rw [nextState, hstates]
  exact congrArg Except.ok hclosure

theorem stepThrough_empty (n : Automaton) (w : Word) : n.stepThrough ∅ w = .ok ∅ := by
  induction w with
  | nil => rfl
  | cons x w ih =>
    rw [stepThrough]
    show (n.nextState (.frozenSet []) x >>= fun r => n.stepThrough r w) = _
    rw [nextState_empty]
    exact ih

/-- Stepping and reading come to the same set, which consists of states again. -/
theorem stepThrough_eq_ok (made : n.Made) (h : n.OfStates s) {w : Word}
    (hw : ∀ x ∈ w, x.hashable = true ∧ x.isEpsilon = false) :
    ∃ r, n.stepThrough s w = .ok r ∧ n.readSymbols .rounds s w = .ok r ∧ n.OfStates r := by
  induction w generalizing s with
  | nil => exact ⟨s, rfl, rfl, h⟩
  | cons x w ih =>
    obtain ⟨hhash, hx⟩ := hw x List.mem_cons_self
    rw [readSymbols, if_neg (by simp [hx])]
    by_cases hempty : s.isEmpty = true
    · -- reading stops here, stepping goes on with nothing
      obtain rfl : s = ∅ := by
        rw [← OrderedSet.ofList_items s, OrderedSet.isEmpty_iff.mp hempty]
        rfl
      exact ⟨∅, stepThrough_empty n _, if_pos rfl, h⟩
    · obtain ⟨next, hnext, hmove, hstates⟩ := h.nextState_eq made hhash
      obtain ⟨moved, hmoved, hclose⟩ := bind_eq_ok_iff.mp hmove
      obtain ⟨r, hstep, hread, hr⟩ := ih hstates fun y hy => hw y (List.mem_cons_of_mem x hy)
      refine ⟨r, ?_, ?_, hr⟩
      · rw [stepThrough, hnext]
        exact hstep
      · rw [if_neg hempty]
        exact bind_eq_ok_iff.mpr ⟨moved, hmoved, bind_eq_ok_iff.mpr ⟨next, hclose, hread⟩⟩

/-! ## Final states -/

theorem anyFinal_eq_ok {xs : List Value} (h : ∀ a ∈ xs, a.hashable = true) :
    n.anyFinal xs = .ok (xs.any n.finals.contains) := by
  induction xs with
  | nil => rfl
  | cons a xs ih =>
    rw [anyFinal, if_neg (by simp [h a List.mem_cons_self]), List.any_cons,
      ih fun b hb => h b (List.mem_cons_of_mem a hb)]
    cases n.finals.contains a <;> rfl

theorem OfStates.isFinal_eq_ok (h : n.OfStates s) :
    n.isFinal (.frozenSet s.items) = .ok (n.accepting s) := by
  have hany : s.items.any n.finals.contains = n.accepting s := by
    rw [Bool.eq_iff_iff, accepting_iff, List.any_eq_true]
    constructor
    · rintro ⟨a, ha, hfinal⟩
      exact ⟨a, hfinal, OrderedSet.mem_of_mem_items ha⟩
    · rintro ⟨f, hf, hs⟩
      obtain ⟨a, ha, haf⟩ := OrderedSet.mem_iff_exists.mp hs
      exact ⟨a, ha, (OrderedSet.mem_congr haf).mpr hf⟩
  rw [← hany]
  exact anyFinal_eq_ok fun a ha => (h a ha).hashable

/-- In an automaton without sets for states, stepping through a word from the start succeeds, and
whether it ends in a final state is what the query for acceptance answers, if the states reached can
be compared. If two of them cannot be compared the query fails, although no one asked for their
order. -/
theorem accepts_eq_stepThrough (made : n.Made) (hflat : n.FlatStates) {word : Value} {w : Word}
    (hitems : word.items = .ok w) (hw : ∀ x ∈ w, x.hashable = true ∧ x.isEpsilon = false)
    (log : Log) :
    ∃ s reached answer, n.start = .ok s ∧ n.stepThrough s w = .ok reached ∧
      n.isFinal (.frozenSet reached.items) = .ok answer ∧
      (n.Sortable → ValueSet.Comparable reached) ∧
      (ValueSet.Comparable reached → ((n.accepts word).runWith log).1 = .ok answer) ∧
      (¬ ValueSet.Comparable reached →
        ((n.accepts word).runWith log).1 = .error .incomparable) := by
  have hn := made.valid
  have hinitial := hn.isState_initial
  have hstates := statesOf_single hinitial (hflat.members?_eq_none hn hinitial.mem)
  obtain ⟨reached, hstep, hread, hreached⟩ :=
    stepThrough_eq_ok made ((OfStates.single hinitial).closure made) hw
  -- the query reads up to the same set and puts it in order, which is all that can fail
  have hresult : ((n.accepts word).runWith log).1 =
      (ValueSet.sorted reached >>= fun _ => .ok reached).map n.accepting := by
    rw [accepts_result, deltaExt_result, hstates, hitems]
    show Except.map n.accepting (n.readSymbols .rounds (n.closure _) w >>= _) = _
    rw [hread]
    rfl
  refine ⟨_, reached, n.accepting reached, ?_, hstep, hreached.isFinal_eq_ok, ?_, ?_, ?_⟩
  · rw [start, eclose, hstates]
    rfl
  · intro horder
    apply horder.comparable
    intro a ha
    obtain ⟨b, hb, hba⟩ := OrderedSet.mem_iff_exists.mp ha
    exact (OrderedSet.mem_congr hba).mp (hreached b hb).mem
  · intro hcomparable
    obtain ⟨inOrder, hsorted⟩ := hcomparable.sorted_eq_ok
    rw [hresult, hsorted]
    rfl
  · intro hnot
    rw [hresult, ValueSet.sorted_eq_error hnot]
    rfl

/-- Around the cycle and the loop and out of it. -/
theorem accepts_eq_stepThrough_knotted :
    let n := ofShape knotted
    let word := Value.list [.text "a", .text "a", .tuple [.text "b"]]
    (n.Made ∧ n.FlatStates ∧ n.Sortable ∧
      word.items = .ok [.text "a", .text "a", .tuple [.text "b"]] ∧
      ∀ x ∈ [Value.text "a", .text "a", .tuple [.text "b"]],
        x.hashable = true ∧ x.isEpsilon = false) ∧
    ∃ s reached answer, n.start = .ok s ∧
      n.stepThrough s [.text "a", .text "a", .tuple [.text "b"]] = .ok reached ∧
      n.isFinal (.frozenSet reached.items) = .ok answer ∧ (n.accepts word).outcome = .ok answer := by
  intro n word
  have hitems : word.items = .ok [.text "a", .text "a", .tuple [.text "b"]] := rfl
  have hword : ∀ x ∈ [Value.text "a", .text "a", .tuple [.text "b"]],
      x.hashable = true ∧ x.isEpsilon = false := by
    simp [Value.hashable, Value.allHashable, Value.isEpsilon]
  obtain ⟨s, reached, answer, hstart, hstep, hfinal, hcomparable, haccepts, -⟩ :=
    accepts_eq_stepThrough knotted_made knotted_flatStates hitems hword .off
  exact ⟨⟨knotted_made, knotted_flatStates, knotted_sortable, hitems, hword⟩, s, reached, answer,
    hstart, hstep, hfinal, haccepts (hcomparable knotted_sortable)⟩

/-- Where an empty move leads from a number to a text, both final, the start has a final state and
yet the empty word is neither accepted nor refused. -/
theorem accepts_unordered :
    let n := ofShape unordered
    n.Made ∧ n.FlatStates ∧ (n.accepts (.list [])).outcome = .error .incomparable ∧
      ∃ s, n.start = .ok s ∧ n.stepThrough s [] = .ok s ∧
        n.isFinal (.frozenSet s.items) = .ok true := by
  intro n
  have hflat : n.FlatStates := by
    intro xs h
    have hmem := OrderedSet.mem_of_mem_items_ofList h
    simp at hmem
  have hinitial : n.IsState (.int 1) := ⟨rfl, by decide +kernel⟩
  have hstates := statesOf_single hinitial rfl
  have hclosure : n.closure (.ofList [.int 1]) =
      .ofList [.int 1] ∪ (n.oneEpsilonAway (.ofList [.int 1]) \ .ofList [.int 1]) := by
    rw [closure, Automaton.closeRounds, if_neg (by decide +kernel), Automaton.closeRounds,
      if_pos (by decide +kernel)]
  have hnot : ¬ ValueSet.Comparable (n.closure (.ofList [.int 1])) := by
    rw [hclosure]
    decide +kernel
  have hfinal : n.accepting (n.closure (.ofList [.int 1])) = true := by
    rw [hclosure]
    decide +kernel
  refine ⟨unordered_made, hflat, ?_, n.closure (.ofList [.int 1]), ?_, rfl, ?_⟩
  · rw [Logged.outcome, accepts_result, deltaExt_result, show n.initial = .int 1 from rfl, hstates]
    show Except.map n.accepting (ValueSet.sorted (n.closure (.ofList [.int 1])) >>= _) = _
    rw [ValueSet.sorted_eq_error hnot]
    rfl
  · rw [start, eclose, show n.initial = .int 1 from rfl, hstates]
    rfl
  · rw [((OfStates.single hinitial).closure unordered_made).isFinal_eq_ok, hfinal]

end Automaton

end EpsilonAutomata
