import EpsilonAutomata.Automaton.Listing
import EpsilonAutomata.Proofs.Automaton.Valid

/-!
# What a listing shows

A listing is made from two lists that are sorted apart, the states and the transitions, joined through
the rows of the transitions. A row is found whenever its key equals the state, in whatever form either
is held (`Outgoing.get_ofList`), and of the states exactly one equals the source of a transition; so
the rows of all states together are the transitions, none lost and none twice (`perm_of_rows`). From
this `dump_lists` counts the lines and says what stands in them.
-/

namespace EpsilonAutomata

open Outcome

/-- Rows of the items with a key that equals a given one, for keys of which no two are equal: together
they are the items. -/
theorem Lists.perm_of_rows {α κ : Type} [BEq κ] [EquivBEq κ] {key : α → κ} {ks : List κ} {xs : List α}
    (hks : ks.Pairwise fun k l => (k == l) = false) (hxs : ∀ x ∈ xs, ∃ k ∈ ks, (key x == k) = true) :
    (ks.flatMap fun k => xs.filter fun x => key x == k).Perm xs := by
  induction ks generalizing xs with
  | nil =>
    have hempty : xs = [] := List.eq_nil_iff_forall_not_mem.mpr fun x hx => by
      obtain ⟨k, hk, -⟩ := hxs x hx
      cases hk
    simp [hempty]
  | cons k ks ih =>
    obtain ⟨hother, hks⟩ := List.pairwise_cons.mp hks
    let rest := xs.filter fun x => !(key x == k)
    have hrest : ∀ x ∈ rest, ∃ l ∈ ks, (key x == l) = true := by
      intro x hx
      obtain ⟨hmem, hne⟩ := List.mem_filter.mp hx
      obtain ⟨l, hl, hxl⟩ := hxs x hmem
      rcases List.mem_cons.mp hl with rfl | hl
      · simp [hxl] at hne
      · exact ⟨l, hl, hxl⟩
    -- The rows of the other keys hold no item of this key.
    have hrows : (ks.flatMap fun l => xs.filter fun x => key x == l) =
        ks.flatMap fun l => rest.filter fun x => key x == l := by
      refine List.flatMap_congr fun l hl => ?_
      rw [List.filter_filter]
      refine List.filter_congr fun x _ => ?_
      by_cases hxl : (key x == l) = true
      · have hne : (key x == k) = false := Bool.eq_false_iff.mpr fun hxk =>
          Bool.eq_false_iff.mp (hother l hl) (BEq.trans (BEq.symm hxk) hxl)
        simp [hxl, hne]
      · simp [hxl]
    rw [List.flatMap_cons, hrows]
    exact ((ih hks hrest).append_left _).trans (List.filter_append_perm _ xs)

namespace Automaton

/-! ## The lines by kind -/

namespace Line

def state? : Line → Option Value
  | state s _ _ => some s
  | move _ => none

def move? : Line → Option Transition
  | state _ _ _ => none
  | move t => some t

/-- The line is that of a state and marks it as the start. -/
def isStart : Line → Bool
  | state _ starts _ => starts
  | move _ => false

end Line

theorem length_eq_states_add_moves (ls : List Line) :
    ls.length = (ls.filterMap Line.state?).length + (ls.filterMap Line.move?).length := by
  induction ls with
  | nil => rfl
  | cons l ls ih =>
    cases l <;> simp only [List.filterMap_cons, Line.state?, Line.move?, List.length_cons] <;> omega

section Blocks

variable {n : Automaton} {outgoing : Outgoing}

theorem states_of_lines (states : List Value) :
    (states.flatMap (n.linesOf outgoing)).filterMap Line.state? = states := by
  have hrow (s : Value) : (n.linesOf outgoing s).filterMap Line.state? = [s] := by
    simp [linesOf, Line.state?, List.filterMap_map, Function.comp_def]
  rw [List.filterMap_flatMap]
  simp only [hrow, List.flatMap_singleton']

theorem moves_of_lines (states : List Value) :
    (states.flatMap (n.linesOf outgoing)).filterMap Line.move? = states.flatMap outgoing.get := by
  have hrow (s : Value) : (n.linesOf outgoing s).filterMap Line.move? = outgoing.get s := by
    simp [linesOf, Line.move?, List.filterMap_cons, List.filterMap_map, Function.comp_def]
  rw [List.filterMap_flatMap]
  simp only [hrow]

theorem starts_of_lines (states : List Value) :
    (states.flatMap (n.linesOf outgoing)).countP Line.isStart = states.countP (· == n.initial) := by
  induction states with
  | nil => rfl
  | cons s states ih =>
    have hmoves : ((outgoing.get s).map Line.move).countP Line.isStart = 0 := by
      simp [List.countP_map, Function.comp_def, Line.isStart]
    rw [List.flatMap_cons, List.countP_append, ih, List.countP_cons, linesOf, List.countP_cons, hmoves]
    rw [Line.isStart, Nat.zero_add, Nat.add_comm]

end Blocks

/-! ## The listing -/

variable {n : Automaton} {text : String}

/-- The rows are the transitions that leave the states, so the keys of the rows show nowhere. -/
theorem linesOf_ofList (transitions : List Transition) (s : Value) :
    n.linesOf (.ofList transitions) s = .state s (s == n.initial) (n.finals.contains s) ::
      (transitions.filter fun t => t.source == s).map .move := by
  rw [linesOf, Outgoing.get_ofList]

theorem lines_eq_ok_iff {ls : List Line} : n.lines = .ok ls ↔ ∃ states transitions,
    ValueSet.sorted n.states = .ok states ∧ n.triples = .ok transitions ∧
    ls = states.flatMap (n.linesOf (.ofList transitions)) := by
  simp only [lines, bind_eq_ok_iff, pure_eq_ok_iff]
  constructor
  · rintro ⟨transitions, htransitions, states, hstates, rfl⟩
    exact ⟨states, transitions, hstates, htransitions, rfl⟩
  · rintro ⟨states, transitions, hstates, htransitions, rfl⟩
    exact ⟨transitions, htransitions, states, hstates, rfl⟩

theorem dump_eq_ok_iff : n.dump = .ok text ↔ ∃ ls, n.lines = .ok ls ∧
    text = String.join (ls.map fun line => line.text ++ "\n") := by
  simp only [dump, bind_eq_ok_iff, pure_eq_ok_iff, eq_comm (a := text)]

/-- A listing has one line for each state, in order, and one for each transition, under its source and
in the order of the transitions; one state is marked as the start, the one that equals it, and those
that are final are marked so. -/
theorem dump_lists (hn : n.Valid) (h : n.dump = .ok text) :
    ∃ states transitions lines,
      ValueSet.sorted n.states = .ok states ∧ n.triples = .ok transitions ∧
      n.lines = .ok lines ∧ text = String.join (lines.map fun line => line.text ++ "\n") ∧
      lines = (states.flatMap fun s => .state s (s == n.initial) (n.finals.contains s) ::
        (transitions.filter fun t => t.source == s).map .move) ∧
      lines.length = n.size + n.transitions.size ∧
      lines.filterMap Line.state? = states ∧
      lines.countP Line.isStart = 1 ∧
      (∀ s starts accepts, Line.state s starts accepts ∈ lines →
        (starts = true ↔ (s == n.initial) = true) ∧ (accepts = true ↔ s ∈ n.finals)) ∧
      (lines.filterMap Line.move?).Perm n.transitions.items := by
  obtain ⟨ls, hlines, rfl⟩ := dump_eq_ok_iff.mp h
  obtain ⟨states, transitions, hstates, htransitions, rfl⟩ := lines_eq_ok_iff.mp hlines
  have hperm : transitions.Perm n.transitions.items := Sorting.perm_of_sorted htransitions
  have hdistinct := ValueSet.distinct_of_sorted hstates
  let ls := states.flatMap (n.linesOf (.ofList transitions))
  have hlisted : ls.filterMap Line.state? = states := states_of_lines states
  have hmoves : (ls.filterMap Line.move?).Perm n.transitions.items := by
    rw [moves_of_lines]
    simp only [Outgoing.get_ofList]
    refine (Lists.perm_of_rows hdistinct fun t ht => ?_).trans hperm
    have hmem : t ∈ n.transitions := OrderedSet.mem_of_mem_items (hperm.mem_iff.mp ht)
    obtain ⟨s, hs, hsame⟩ := (ValueSet.mem_iff_of_sorted hstates).mp (hn.sound.move_mem t hmem).1
    exact ⟨s, hs, BEq.symm hsame⟩
  have hstart : ls.countP Line.isStart = 1 := by
    obtain ⟨s, hs, hsame⟩ := (ValueSet.mem_iff_of_sorted hstates).mp hn.sound.start_mem
    rw [starts_of_lines]
    exact Lists.countP_beq_eq_one hdistinct hs hsame
  refine ⟨states, transitions, ls, hstates, htransitions, hlines, rfl, ?_, ?_, hlisted, hstart, ?_,
    hmoves⟩
  · exact List.flatMap_congr fun s _ => linesOf_ofList transitions s
  · rw [length_eq_states_add_moves, hlisted, (Sorting.perm_of_sorted hstates).length_eq,
      hmoves.length_eq]
    rfl
  · intro s starts accepts hline
    obtain ⟨s', -, hline⟩ := List.mem_flatMap.mp hline
    rcases List.mem_cons.mp hline with heq | hmove
    · cases heq
      exact ⟨Iff.rfl, Iff.rfl⟩
    · obtain ⟨t, -, heq⟩ := List.mem_map.mp hmove
      cases heq

/-- The same state as a truth value, a whole number and a double: among the states, as the source of
transitions and as the start. -/
def oneInThreeForms : Shape where
  states := .ofList [.int 2, .bool true]
  alphabet := .ofList [.text "a", .text "b"]
  initial := .double (.finite 1)
  transitions := .ofList [⟨.int 1, .text "b", .int 2⟩, ⟨.double (.finite 1), .text "a", .int 1⟩,
    ⟨.int 2, .epsilon, .bool true⟩]
  finals := .ofList [.double (.finite 2)]

theorem oneInThreeForms_made : (ofShape oneInThreeForms).Made :=
  made_ofShape (.list [.int 2, .bool true]) (.list [.text "a", .text "b"]) (.double (.finite 1))
    (.list [.tuple [.int 1, .text "b", .int 2], .tuple [.double (.finite 1), .text "a", .int 1],
      .tuple [.int 2, .epsilon, .bool true]])
    (.list [.double (.finite 2)]) rfl (List.isEmpty_iff.mp (by decide +kernel)) rfl

theorem dump_lists_oneInThreeForms :
    let n := ofShape oneInThreeForms
    let text := "@ True \n    'a' -> 1\n    'b' -> 2\n  2 ||\n    ε -> True\n"
    (n.Valid ∧ n.dump = .ok text) ∧
    ∃ states transitions lines,
      ValueSet.sorted n.states = .ok states ∧ n.triples = .ok transitions ∧
      n.lines = .ok lines ∧ text = String.join (lines.map fun line => line.text ++ "\n") ∧
      lines = (states.flatMap fun s => .state s (s == n.initial) (n.finals.contains s) ::
        (transitions.filter fun t => t.source == s).map .move) ∧
      lines.length = n.size + n.transitions.size ∧
      lines.filterMap Line.state? = states ∧
      lines.countP Line.isStart = 1 ∧
      (∀ s starts accepts, Line.state s starts accepts ∈ lines →
        (starts = true ↔ (s == n.initial) = true) ∧ (accepts = true ↔ s ∈ n.finals)) ∧
      (lines.filterMap Line.move?).Perm n.transitions.items := by
  intro n text
  have hn : n.Valid := oneInThreeForms_made.valid
  have hdump : n.dump = .ok text := by with_unfolding_all rfl
  exact ⟨⟨hn, hdump⟩, dump_lists hn hdump⟩

end Automaton

end EpsilonAutomata
