import Mathlib.Data.List.Chain
import EpsilonAutomata.Proofs.Automaton.Closure
import EpsilonAutomata.Proofs.Collection.Table

/-!
# How much a depth-first closure visits

The search for a closure, depth first, goes through states (`Descent`): what was found, the frames on
the stack, and the origins that are left. A `Turn` takes it from one to the next and pushes frames; it
changes nothing in the answer that is to come (`Turn.answer_eq`).

* A path follows empty moves through different states (`Descent.Inv`, `Frame.Follows`), so it is
  never longer than there are states, and the search never gives up.
* A turn uses up an origin, or the empty moves out of a state that is found by it, and pushes no more
  frames than that (`Turn.unspent_le`). A state is found once, so all turns together push no more
  frames than there are origins and empty moves.
* Each turn brings the end nearer (`Turn.remaining_lt`), so the search comes to one.
-/

namespace EpsilonAutomata

namespace Shape

/-- The number of empty moves. -/
def epsilonCount (s : Shape) : Nat :=
  s.transitions.items.countP fun t => t.label.isEpsilon

theorem weightOutside_epsilonTable_le (s : Shape) (done : ValueSet) :
    s.epsilonTable.weightOutside done ≤ s.epsilonCount := by
  -- the targets in the table so far and the moves to come are no more than all moves
  have hfold (ts : List Transition) (table : EpsilonTable) :
      (ts.foldl (fun table t => if t.label.isEpsilon then table.add t.source t.target else table)
        table).weightOutside done ≤
        table.weightOutside done + ts.countP fun t => t.label.isEpsilon := by
    induction ts generalizing table with
    | nil => exact Nat.le_add_right ..
    | cons t ts ih =>
      rw [List.foldl_cons, List.countP_cons]
      split
      · have hadd := table.weightOutside_add_le done t.source t.target
        have hrest := ih (table.add t.source t.target)
        omega
      · exact ih table
  exact Nat.le_trans (hfold s.transitions.items .empty) (Nat.le_of_eq (Nat.zero_add _))

/-- An empty move leads from the one state to the other. -/
def EpsilonMove (s : Shape) (a b : Value) : Prop :=
  (⟨a, .epsilon, b⟩ : Transition) ∈ s.transitions

end Shape

namespace Automaton

variable {n : Automaton}

/-! ## Turns -/

/-- Where a depth-first search stands: what was found, the frames on the stack, the top first, and the
origins that are left. -/
structure Descent where
  found : ValueSet
  stack : List Frame
  origins : List Value

namespace Descent

def start (s : ValueSet) : Descent := ⟨∅, [], s.items⟩

def finished (r : ValueSet) : Descent := ⟨r, [], []⟩

/-- What the search answers from here on. -/
def answer (n : Automaton) (σ : Descent) : Except Fault ValueSet := do
  n.visitOrigins (← n.visitFrames σ.found σ.stack) σ.origins

end Descent

/-- One turn of the search, with the frames that it pushes. -/
inductive Turn (n : Automaton) : Descent → List Frame → Descent → Prop
  | begin {found : ValueSet} {s : Value} {origins : List Value} (new : s ∉ found) :
      Turn n ⟨found, [], s :: origins⟩ [.origin s] ⟨found, [.origin s], origins⟩
  | pass {found : ValueSet} {s : Value} {origins : List Value} (old : s ∈ found) :
      Turn n ⟨found, [], s :: origins⟩ [] ⟨found, [], origins⟩
  | drop {found : ValueSet} {f : Frame} {stack : List Frame} {origins : List Value}
      (old : f.state ∈ found) : Turn n ⟨found, f :: stack, origins⟩ [] ⟨found, stack, origins⟩
  | visit {found : ValueSet} {f : Frame} {stack : List Frame} {origins : List Value}
      (new : f.state ∉ found) (short : f.path.length ≤ n.size) :
      Turn n ⟨found, f :: stack, origins⟩ (n.nextFrames (found.insert f.state) f)
        ⟨found.insert f.state, n.nextFrames (found.insert f.state) f ++ stack, origins⟩

/-- Any number of turns, with all the frames that they push. -/
inductive Turns (n : Automaton) : Descent → List Frame → Descent → Prop
  | stop {σ : Descent} : Turns n σ [] σ
  | turn {σ τ υ : Descent} {fs gs : List Frame} (first : Turn n σ fs τ) (rest : Turns n τ gs υ) :
      Turns n σ (fs ++ gs) υ

variable {σ τ : Descent} {fs : List Frame}

theorem Descent.answer_nil (n : Automaton) (found : ValueSet) (origins : List Value) :
    Descent.answer n ⟨found, [], origins⟩ = n.visitOrigins found origins := by
  simp only [Descent.answer, visitFrames]
  rfl

theorem Turn.answer_eq (h : n.Turn σ fs τ) : σ.answer n = τ.answer n := by
  cases h with
  | begin new =>
    rw [Descent.answer_nil, visitOrigins, if_neg (mt OrderedSet.mem_def.mpr new)]
    rfl
  | pass old =>
    rw [Descent.answer_nil, Descent.answer_nil, visitOrigins, if_pos (OrderedSet.mem_def.mp old)]
  | drop old =>
    simp only [Descent.answer]
    rw [visitFrames, if_pos (OrderedSet.mem_def.mp old)]
  | visit new short =>
    simp only [Descent.answer]
    rw [visitFrames, if_neg (mt OrderedSet.mem_def.mpr new), if_pos short]

theorem Turns.answer_eq (h : n.Turns σ fs τ) : σ.answer n = τ.answer n := by
  induction h with
  | stop => rfl
  | turn first _ ih => exact first.answer_eq.trans ih

/-! ## Frames -/

/-- The invariant of the turns. -/
structure Descent.Inv (n : Automaton) (σ : Descent) : Prop where
  frames : n.FrameStack σ.found σ.stack
  joined : ∀ f ∈ σ.stack, f.path.IsChain n.EpsilonMove
  origins : ∀ a ∈ σ.origins, a ∈ n.states

theorem Descent.inv_start {s : ValueSet} (hs : ∀ a, a ∈ s → a ∈ n.states) :
    (Descent.start s).Inv n where
  frames := ⟨nofun, fun a _ ha => absurd ha (OrderedSet.not_mem_empty a)⟩
  joined := nofun
  origins a ha := hs a (OrderedSet.mem_of_mem_items ha)

theorem joined_nextFrames (hn : n.Valid) {found : ValueSet} {f g : Frame} (hf : f.Sound n found)
    (hjoined : f.path.IsChain n.EpsilonMove) (hg : g ∈ n.nextFrames (found.insert f.state) f) :
    g.path.IsChain n.EpsilonMove := by
  obtain ⟨s, hs, -, -, rfl⟩ := mem_nextFrames.mp hg
  obtain ⟨before, hpath, -⟩ := hf.path_eq
  have hmove : n.EpsilonMove f.state s :=
    (mem_epsilonTargets hn).mp (OrderedSet.mem_of_mem_items hs)
  show (f.path ++ [s]).IsChain _
  rw [List.isChain_append]
  refine ⟨hjoined, List.isChain_singleton s, fun a ha b hb => ?_⟩
  rw [hpath, List.getLast?_concat, Option.mem_some_iff] at ha
  rw [List.head?_cons, Option.mem_some_iff] at hb
  rw [← ha, ← hb]
  exact hmove

theorem Turn.inv (hn : n.Valid) (h : n.Turn σ fs τ) (hinv : σ.Inv n) : τ.Inv n := by
  obtain ⟨hframes, hjoined, horigins⟩ := hinv
  cases h with
  | @begin found s origins new =>
    obtain ⟨hs, hlater⟩ := List.forall_mem_cons.mp horigins
    have hclosed : n.EpsilonClosed found := fun a b ha hmove =>
      (hframes.pending a b ha hmove).resolve_right (by simp)
    refine ⟨.origin hclosed hs, fun f hf => ?_, hlater⟩
    rw [List.mem_singleton.mp hf]
    exact List.isChain_singleton s
  | pass old => exact ⟨hframes, hjoined, (List.forall_mem_cons.mp horigins).2⟩
  | drop old => exact ⟨hframes.skip old, (List.forall_mem_cons.mp hjoined).2, horigins⟩
  | visit new short =>
    obtain ⟨hpath, hothers⟩ := List.forall_mem_cons.mp hjoined
    refine ⟨hframes.visit hn, fun g hg => ?_, horigins⟩
    rcases List.mem_append.mp hg with hg | hg
    · exact joined_nextFrames hn (hframes.frames _ List.mem_cons_self) hpath hg
    · exact hothers g hg

theorem Turns.inv (hn : n.Valid) (h : n.Turns σ fs τ) (hinv : σ.Inv n) : τ.Inv n := by
  induction h with
  | stop => exact hinv
  | turn first _ ih => exact ih (first.inv hn hinv)

/-! ## The number of frames -/

/-- The frames that the search may still push: one for each origin that is left, and one for each
empty move out of a state that was not found. -/
def Descent.unspent (n : Automaton) (σ : Descent) : Nat :=
  σ.origins.length + n.epsilonMoves.get.weightOutside σ.found

/-- Finding a state uses up the empty moves out of it, among them those along which frames are
pushed. -/
theorem weightOutside_visit_le {found : ValueSet} {f : Frame} (new : f.state ∉ found) :
    (n.nextFrames (found.insert f.state) f).length +
      n.epsilonMoves.get.weightOutside (found.insert f.state) ≤
        n.epsilonMoves.get.weightOutside found := by
  have hpush := n.length_nextFrames_le (found.insert f.state) f
  have hweight := Table.weightOutside_insert_add_size_le (t := n.epsilonMoves.get) new
  have htargets : (n.epsilonTargets f.state).size = (n.epsilonMoves.get.get f.state).size := rfl
  omega

theorem Turn.unspent_le (h : n.Turn σ fs τ) : fs.length + τ.unspent n ≤ σ.unspent n := by
  cases h with
  | begin new | pass old | drop old =>
    simp only [Descent.unspent, List.length_cons, List.length_nil]
    omega
  | visit new short =>
    have hspent := weightOutside_visit_le (n := n) new
    simp only [Descent.unspent]
    omega

theorem Turns.unspent_le (h : n.Turns σ fs τ) : fs.length + τ.unspent n ≤ σ.unspent n := by
  induction h with
  | stop => simp
  | turn first _ ih =>
    have hfirst := first.unspent_le
    rw [List.length_append]
    omega

theorem Descent.unspent_start_le (made : n.Made) (s : ValueSet) :
    (Descent.start s).unspent n ≤ s.size + n.epsilonCount := by
  have htable : n.epsilonMoves.get = n.epsilonTable := by
    conv_lhs => rw [made.eq_ofShape]
    rfl
  have hweight := n.weightOutside_epsilonTable_le ∅
  rw [Descent.unspent, htable]
  exact Nat.add_le_add_left hweight s.size

/-! ## The end of the search -/

/-- The frames on the stack, those still to push, and the origins to begin at. -/
def Descent.remaining (n : Automaton) (σ : Descent) : Nat :=
  σ.stack.length + σ.unspent n + σ.origins.length

theorem Turn.remaining_lt (h : n.Turn σ fs τ) : τ.remaining n < σ.remaining n := by
  cases h with
  | begin new | pass old | drop old =>
    simp only [Descent.remaining, Descent.unspent, List.length_cons, List.length_nil]
    omega
  | visit new short =>
    have hspent := weightOutside_visit_le (n := n) new
    simp only [Descent.remaining, Descent.unspent, List.length_append, List.length_cons]
    omega

/-- While something is left to do, a turn does it: no path is too long. -/
theorem Descent.Inv.exists_turn (h : σ.Inv n) :
    (∃ r, σ = .finished r) ∨ ∃ fs τ, n.Turn σ fs τ := by
  obtain ⟨found, stack, origins⟩ := σ
  cases stack with
  | cons f stack =>
    have hlength := (h.frames.frames f List.mem_cons_self).length_le
    by_cases hf : f.state ∈ found
    · exact .inr ⟨_, _, .drop hf⟩
    · exact .inr ⟨_, _, .visit hf hlength⟩
  | nil =>
    cases origins with
    | nil => exact .inl ⟨found, rfl⟩
    | cons s origins =>
      by_cases hs : s ∈ found
      · exact .inr ⟨_, _, .pass hs⟩
      · exact .inr ⟨_, _, .begin hs⟩

theorem Descent.Inv.exists_turns (hn : n.Valid) (h : σ.Inv n) :
    ∃ pushed r, n.Turns σ pushed (.finished r) := by
  induction hmeasure : σ.remaining n using Nat.strongRecOn generalizing σ with
  | ind k ih =>
    subst hmeasure
    rcases h.exists_turn with ⟨r, rfl⟩ | ⟨fs, τ, hturn⟩
    · exact ⟨[], r, .stop⟩
    · obtain ⟨gs, r, hrest⟩ := ih _ hturn.remaining_lt (hturn.inv hn h) rfl
      exact ⟨fs ++ gs, r, .turn hturn hrest⟩

theorem Turns.closureByDepth_eq {s r : ValueSet} {pushed : List Frame}
    (h : n.Turns (.start s) pushed (.finished r)) : n.closureByDepth s = .ok r := by
  have hanswer := h.answer_eq
  rw [Descent.start, Descent.finished, Descent.answer_nil, Descent.answer_nil] at hanswer
  exact hanswer

/-! ## The whole search -/

/-- The path of the frame has different states of the automaton, follows empty moves from each to the
next, and ends in the state of the frame. -/
structure Frame.Follows (n : Automaton) (f : Frame) : Prop where
  ends : f.path.getLast? = some f.state
  distinct : f.path.Pairwise fun a b => (a == b) = false
  states : ∀ a ∈ f.path, a ∈ n.states
  joined : f.path.IsChain n.EpsilonMove

theorem Descent.Inv.follows (h : σ.Inv n) {f : Frame} (hf : f ∈ σ.stack) : f.Follows n := by
  have hsound := h.frames.frames f hf
  obtain ⟨before, hpath, -⟩ := hsound.path_eq
  exact ⟨by rw [hpath, List.getLast?_concat], hsound.distinct, hsound.states, h.joined f hf⟩

/-- The depth-first search for the closure of the states that an argument names comes to its end, and
without a fault. However far it has come, it has pushed no more frames than there are origins and empty
moves, and every frame on its stack follows empty moves through different states; so no path is longer
than there are states. -/
theorem ecloseByDepth_bounded (made : n.Made) {a : Value} (ha : ∀ b ∈ a.named, n.IsState b) :
    let origins : ValueSet := .ofList a.named
    (∃ r pushed, n.ecloseByDepth a = .ok r ∧ n.Turns (.start origins) pushed (.finished r)) ∧
      ∀ pushed σ, n.Turns (.start origins) pushed σ →
        pushed.length ≤ origins.size + n.epsilonCount ∧
        ∀ f ∈ σ.stack, f.Follows n ∧ f.path.length ≤ n.size := by
  intro origins
  have hn := made.valid
  have hstart : (Descent.start origins).Inv n := Descent.inv_start fun b => mem_states_of_named ha
  constructor
  · obtain ⟨pushed, r, hturns⟩ := hstart.exists_turns hn
    refine ⟨r, pushed, ?_, hturns⟩
    rw [ecloseByDepth, statesOf_eq_ok ha]
    exact hturns.closureByDepth_eq
  · intro pushed σ hturns
    have hinv := hturns.inv hn hstart
    have hspent := hturns.unspent_le
    have hall := Descent.unspent_start_le made origins
    exact ⟨by omega, fun f hf => ⟨hinv.follows hf, (hinv.frames.frames f hf).length_le⟩⟩

/-- From two states on the cycle, which both ways lead through. -/
theorem ecloseByDepth_bounded_merging :
    let n := ofShape merging
    let a := Value.set [.int 1, .double (.finite 4)]
    let origins : ValueSet := .ofList a.named
    (n.Made ∧ ∀ b ∈ a.named, n.IsState b) ∧
    (∃ r pushed, n.ecloseByDepth a = .ok r ∧ n.Turns (.start origins) pushed (.finished r)) ∧
      ∀ pushed σ, n.Turns (.start origins) pushed σ →
        pushed.length ≤ origins.size + n.epsilonCount ∧
        ∀ f ∈ σ.stack, f.Follows n ∧ f.path.length ≤ n.size := by
  intro n a origins
  have ha : ∀ b ∈ a.named, n.IsState b := by
    intro b hb
    rcases List.mem_pair.mp hb with rfl | rfl
    · exact ⟨rfl, by decide +kernel⟩
    · exact ⟨rfl, by decide +kernel⟩
  exact ⟨⟨merging_made, ha⟩, ecloseByDepth_bounded merging_made ha⟩

end Automaton

end EpsilonAutomata
