import EpsilonAutomata.Automaton.Reading
import EpsilonAutomata.Proofs.Automaton.Closure
import EpsilonAutomata.Proofs.Automaton.Search
import EpsilonAutomata.Proofs.Value.Comparable

/-!
# Reading a word by closed sets is searching for paths

Reading keeps a closed set of states, and after a word this set holds exactly the states that runs
on the word reach from the set it began with (`readSymbols_spec`). Since the reported states equal
states of the automaton, they can be put in order when the states can, so the query returns
(`deltaExt_spec`, `accepts_spec`). The search for paths decides the same runs, so the two queries
agree on every automaton, word and pair of states.
-/

namespace EpsilonAutomata.Automaton

open Outcome

variable {n : Automaton}

/-- The states can be put in order. -/
def Sortable (n : Automaton) : Prop :=
  n.states.items.Pairwise fun a b => (a.lt? b).isSome = true

/-- No state is a set. -/
def FlatStates (n : Automaton) : Prop :=
  ∀ xs, Value.frozenSet xs ∉ n.states.items

/-- The set is what runs on the word reach from the state. -/
def Reaches (n : Automaton) (a : Value) (w : Word) (s : ValueSet) : Prop :=
  ∀ b, b ∈ s ↔ Run n.toShape a w b

/-- The set is what runs on the word reach from the items of the list. -/
def ReachesFrom (n : Automaton) (xs : List Value) (w : Word) (s : ValueSet) : Prop :=
  ∀ b, b ∈ s ↔ ∃ a ∈ xs, Run n.toShape a w b

theorem Reaches.epsilonClosed {a : Value} {w : Word} {s : ValueSet} (h : n.Reaches a w s) :
    n.EpsilonClosed s := by
  intro b c hb hmove
  exact (h c).mpr (by simpa using ((h b).mp hb).append (.of_epsilon hmove))

theorem ReachesFrom.subset_states (hn : n.Valid) {xs : List Value} {w : Word} {s : ValueSet}
    (h : n.ReachesFrom xs w s) (hxs : ∀ a ∈ xs, n.IsState a) : ∀ b, b ∈ s → b ∈ n.states := by
  intro b hb
  obtain ⟨a, ha, run⟩ := (h b).mp hb
  exact run.mem_states hn.sound (hxs a ha).mem

/-! ## One symbol -/

theorem move_eq_ok (hn : n.Valid) {s : ValueSet} {x : Value} (hx : x.hashable = true) :
    ∃ r, n.move s x = .ok r ∧
      ∀ b, b ∈ r ↔ ∃ a, a ∈ s ∧ (⟨a, x, b⟩ : Transition) ∈ n.transitions := by
  refine ⟨_, if_pos (by simp [hx]), fun b => ?_⟩
  rw [OrderedSet.mem_ofList]
  constructor
  · rintro ⟨c, hc, hcb⟩
    obtain ⟨a, ha, hc⟩ := List.mem_flatMap.mp hc
    have hb : b ∈ n.targets a x := OrderedSet.mem_iff_exists.mpr ⟨c, hc, hcb⟩
    exact ⟨a, OrderedSet.mem_of_mem_items ha, (mem_targets hn).mp hb⟩
  · rintro ⟨a, ha, hmove⟩
    obtain ⟨a', ha', haa⟩ := OrderedSet.mem_iff_exists.mp ha
    rw [← Shape.mem_transitions_congr haa BEq.rfl BEq.rfl, ← mem_targets hn] at hmove
    obtain ⟨c, hc, hcb⟩ := OrderedSet.mem_iff_exists.mp hmove
    exact ⟨c, List.mem_flatMap.mpr ⟨a', ha', hc⟩, hcb⟩

/-- From a closed set one symbol and then a word lead where the word leads from the closure of the
set moved by the symbol. -/
theorem exists_run_cons_iff {s moved closed : ValueSet} (hs : n.EpsilonClosed s) {x : Value}
    (hx : x.isEpsilon = false)
    (hmoved : ∀ b, b ∈ moved ↔ ∃ a, a ∈ s ∧ (⟨a, x, b⟩ : Transition) ∈ n.transitions)
    (hclosed : n.IsClosure moved closed) (w : Word) (b : Value) :
    (∃ a, a ∈ closed ∧ Run n.toShape a w b) ↔ ∃ a, a ∈ s ∧ Run n.toShape a (x :: w) b := by
  constructor
  · rintro ⟨k, hk, run⟩
    obtain ⟨m, hm, hskip⟩ := (hclosed k).mp hk
    obtain ⟨a, ha, hread⟩ := (hmoved m).mp hm
    exact ⟨a, ha, .read hx hread (by simpa using hskip.append run)⟩
  · rintro ⟨a, ha, run⟩
    obtain ⟨m, k, hskip, hread, hrest⟩ := (Run.read_iff hx).mp run
    have hk : k ∈ moved := (hmoved k).mpr ⟨m, hs.mem_of_run hskip ha, hread⟩
    exact ⟨k, (hclosed k).mpr ⟨k, hk, .refl⟩, hrest⟩

theorem move_close_eq_ok (hn : n.Valid) (method : ClosureMethod) {s : ValueSet} {x : Value}
    (hs : n.EpsilonClosed s) (hhash : x.hashable = true) (hx : x.isEpsilon = false) :
    ∃ r, (n.move s x >>= n.close method) = .ok r ∧ n.EpsilonClosed r ∧
      ∀ w b, (∃ a, a ∈ r ∧ Run n.toShape a w b) ↔ ∃ a, a ∈ s ∧ Run n.toShape a (x :: w) b := by
  obtain ⟨moved, hmove, hmoved⟩ := move_eq_ok hn (s := s) hhash
  have hstates : ∀ b, b ∈ moved → b ∈ n.states := by
    intro b hb
    obtain ⟨a, _, htransition⟩ := (hmoved b).mp hb
    exact (hn.sound.move_mem _ htransition).2.1
  obtain ⟨r, hclose, hclosure⟩ := close_eq_ok hn method hstates
  exact ⟨r, bind_eq_ok_iff.mpr ⟨moved, hmove, hclose⟩, hclosure.epsilonClosed,
    exists_run_cons_iff hs hx hmoved hclosure⟩

/-! ## A word -/

/-- From a closed set of states reading succeeds, and it ends with what runs on the word reach. -/
theorem readSymbols_spec (hn : n.Valid) (method : ClosureMethod) {s : ValueSet} {w : Word}
    (hclosed : n.EpsilonClosed s) (hw : ∀ x ∈ w, x.hashable = true) :
    ∃ r, n.readSymbols method s w = .ok r ∧
      ∀ b, b ∈ r ↔ ∃ a, a ∈ s ∧ Run n.toShape a w.visible b := by
  induction w generalizing s with
  | nil =>
    refine ⟨s, rfl, fun b => ⟨fun hb => ⟨b, hb, .refl⟩, ?_⟩⟩
    rintro ⟨a, ha, run⟩
    exact hclosed.mem_of_run run ha
  | cons x w ih =>
    have hrest : ∀ y ∈ w, y.hashable = true := fun y hy => hw y (by simp [hy])
    rw [readSymbols, Word.visible_cons]
    split
    · exact ih hclosed hrest
    next hx =>
    split
    · -- no state is left: whatever the rest of the word is, no run reads it
      next hempty =>
      have hnone := OrderedSet.isEmpty_iff_forall_not_mem.mp hempty
      refine ⟨s, rfl, fun b => ⟨fun hb => absurd hb (hnone b), ?_⟩⟩
      rintro ⟨a, ha, _⟩
      exact absurd ha (hnone a)
    · obtain ⟨closed, hstep, hclosed', hruns⟩ :=
        move_close_eq_ok hn method hclosed (hw x (by simp)) (by simpa using hx)
      obtain ⟨moved, hmove, hclose⟩ := bind_eq_ok_iff.mp hstep
      obtain ⟨r, hr, hreach⟩ := ih hclosed' hrest
      refine ⟨r, bind_eq_ok_iff.mpr ⟨moved, hmove, bind_eq_ok_iff.mpr ⟨closed, hclose, hr⟩⟩, ?_⟩
      intro b
      rw [hreach, hruns]

/-! ## The queries -/

theorem Sortable.comparable (h : n.Sortable) {s : ValueSet} (hs : ∀ a, a ∈ s → a ∈ n.states) :
    ValueSet.Comparable s :=
  ValueSet.comparable_of_mem h fun a ha =>
    OrderedSet.mem_iff_exists.mp (hs a (OrderedSet.mem_of_mem_items ha))

theorem Sortable.sorted_eq_ok (h : n.Sortable) {s : ValueSet} (hs : ∀ a, a ∈ s → a ∈ n.states) :
    ∃ ys, ValueSet.sorted s = .ok ys :=
  (h.comparable hs).sorted_eq_ok

theorem close_state (hn : n.Valid) (method : ClosureMethod) {a : Value} (ha : n.IsState a)
    (hset : a.members? = none) :
    ∃ r, (n.statesOf a >>= n.close method) = .ok r ∧ n.Reaches a [] r := by
  have hnamed := Value.named_eq_self ha.hashable hset
  obtain ⟨r, hr, hclosure⟩ := close_named hn method (a := a) (by simpa [hnamed] using ha)
  refine ⟨r, hr, fun b => ?_⟩
  rw [hclosure.mem_iff, hnamed]
  simp

theorem deltaExt_result (n : Automaton) (a word : Value) (method : ClosureMethod) (log : Log) :
    ((n.deltaExt a word method).runWith log).1 = do
      let closed ← n.statesOf a >>= n.close method
      let symbols ← word.items
      let reached ← n.readSymbols method closed symbols
      let _ ← ValueSet.sorted reached
      return reached := by
  rw [deltaExt]
  simp only [Logged.fst_runWith_quiet_bind]
  congr! with closed symbols reached inOrder
  obtain ⟨after, hreport⟩ :=
    Logged.runWith_report (fun _ => .ok (readingReport a word inOrder)) rfl log
  rw [Logged.runWith_bind_ok hreport]
  rfl

theorem accepts_result (n : Automaton) (word : Value) (log : Log) :
    ((n.accepts word).runWith log).1 =
      ((n.deltaExt n.initial word .rounds).runWith log).1.map n.accepting := by
  rw [accepts, Logged.runWith_bind]
  cases (n.deltaExt n.initial word .rounds).runWith log with
  | mk result after => cases result <;> rfl

theorem deltaExt_eq_sorted (hn : n.Valid) {a word : Value} {w : Word}
    (ha : ∀ s ∈ a.named, n.IsState s) (hitems : word.items = .ok w)
    (hw : ∀ x ∈ w, x.hashable = true) (method : ClosureMethod) (log : Log) :
    ∃ r, ((n.deltaExt a word method).runWith log).1 = (ValueSet.sorted r).map (fun _ => r) ∧
      n.ReachesFrom a.named w.visible r := by
  obtain ⟨closed, hbegin, hclosure⟩ := close_named hn method ha
  obtain ⟨r, hr, hreach⟩ := readSymbols_spec hn method hclosure.epsilonClosed hw
  refine ⟨r, ?_, fun b => ?_⟩
  · rw [deltaExt_result, hbegin, hitems]
    show n.readSymbols method closed w >>= _ = _
    rw [hr]
    rfl
  · rw [hreach]
    constructor
    · rintro ⟨c, hc, run⟩
      obtain ⟨s, hs, hskip⟩ := (hclosure.mem_iff c).mp hc
      exact ⟨s, hs, by simpa using hskip.append run⟩
    · rintro ⟨s, hs, run⟩
      exact ⟨s, (hclosure.mem_iff s).mpr ⟨s, hs, .refl⟩, run⟩

theorem deltaExt_named (hn : n.Valid) (horder : n.Sortable) {a word : Value} {w : Word}
    (ha : ∀ s ∈ a.named, n.IsState s) (hitems : word.items = .ok w)
    (hw : ∀ x ∈ w, x.hashable = true) (method : ClosureMethod) (log : Log) :
    ∃ r after, (n.deltaExt a word method).runWith log = (.ok r, after) ∧
      n.ReachesFrom a.named w.visible r := by
  obtain ⟨r, hresult, hreach⟩ := deltaExt_eq_sorted hn ha hitems hw method log
  obtain ⟨inOrder, hsorted⟩ := horder.sorted_eq_ok (hreach.subset_states hn ha)
  rw [hsorted] at hresult
  exact ⟨r, _, Prod.ext hresult rfl, hreach⟩

/-- From a state that is no set the query returns what runs on the word reach, with the log on or
off. -/
theorem deltaExt_spec (hn : n.Valid) (horder : n.Sortable) {a word : Value} {w : Word}
    (ha : n.IsState a) (hset : a.members? = none) (hitems : word.items = .ok w)
    (hw : ∀ x ∈ w, x.hashable = true) (method : ClosureMethod) (log : Log) :
    ∃ r after, (n.deltaExt a word method).runWith log = (.ok r, after) ∧
      n.Reaches a w.visible r := by
  have hnamed : a.named = [a] := Value.named_eq_self ha.hashable hset
  obtain ⟨r, after, hdelta, hreach⟩ :=
    deltaExt_named hn horder (a := a) (by simpa [hnamed] using ha) hitems hw method log
  refine ⟨r, after, hdelta, fun b => ?_⟩
  rw [hreach, hnamed]
  simp

theorem accepting_iff {s : ValueSet} :
    n.accepting s = true ↔ ∃ f, f ∈ n.finals ∧ f ∈ s := by
  rw [accepting, Bool.not_eq_true', Bool.eq_false_iff, ne_eq, OrderedSet.disjoint_iff]
  simp only [not_forall, Decidable.not_not, exists_prop]

/-- An automaton whose start state is no set answers for every word whether it accepts it. -/
theorem accepts_spec (hn : n.Valid) (horder : n.Sortable)
    (hset : n.initial.members? = none) {word : Value} {w : Word} (hitems : word.items = .ok w)
    (hw : ∀ x ∈ w, x.hashable = true) (log : Log) :
    ∃ answer after, (n.accepts word).runWith log = (.ok answer, after) ∧
      (answer = true ↔ n.Accepts w) := by
  obtain ⟨r, after, hdelta, hreach⟩ := deltaExt_spec hn horder hn.isState_initial hset hitems hw .rounds log
  refine ⟨n.accepting r, after, ?_, ?_⟩
  · rw [accepts, Logged.runWith_bind_ok hdelta]
    rfl
  · rw [accepting_iff]
    simp only [hreach _]
    rfl

theorem accepts_sound (hn : n.Valid) (hset : n.initial.members? = none) {word : Value} {w : Word}
    (hitems : word.items = .ok w) (hw : ∀ x ∈ w, x.hashable = true) {log : Log} {answer : Bool}
    (h : ((n.accepts word).runWith log).1 = .ok answer) : answer = true ↔ n.Accepts w := by
  have hstart := hn.isState_initial
  have hnamed : n.initial.named = [n.initial] := Value.named_eq_self hstart.hashable hset
  obtain ⟨r, hresult, hreach⟩ :=
    deltaExt_eq_sorted hn (a := n.initial) (by simpa [hnamed] using hstart) hitems hw .rounds log
  rw [accepts_result, hresult] at h
  cases hsorted : ValueSet.sorted r with
  | error e => rw [hsorted] at h; cases h
  | ok inOrder =>
    rw [hsorted] at h
    obtain rfl := Except.ok.inj h
    rw [hnamed] at hreach
    simp only [accepting_iff, hreach _, List.mem_singleton, exists_eq_left]
    rfl

theorem accepts_eq_false (hn : n.Valid) (horder : n.Sortable) (hstart : n.initial.named = [])
    {word : Value} {w : Word} (hitems : word.items = .ok w) (hw : ∀ x ∈ w, x.hashable = true)
    (log : Log) : ((n.accepts word).runWith log).1 = .ok false := by
  obtain ⟨r, after, hdelta, hreach⟩ :=
    deltaExt_named hn horder (a := n.initial) (by simp [hstart]) hitems hw .rounds log
  have hnone : n.accepting r = false := by
    rw [Bool.eq_false_iff, ne_eq, accepting_iff]
    rintro ⟨f, -, hf⟩
    obtain ⟨a, ha, -⟩ := (hreach f).mp hf
    simp [hstart] at ha
  rw [accepts, Logged.runWith_bind_ok hdelta, hnone]
  rfl

/-! ## Agreement with the search for paths -/

theorem FlatStates.members?_eq_none (hflat : n.FlatStates) (hn : n.Valid) {a : Value}
    (ha : a ∈ n.states) : a.members? = none := by
  obtain ⟨b, hb, hba⟩ := OrderedSet.mem_iff_exists.mp ha
  rw [← Value.members?_eq_none_congr hba]
  have hhash := hn.hashable.states b hb
  cases b with
  | frozenSet xs => exact absurd hb (hflat xs)
  | set xs => simp [Value.hashable] at hhash
  | _ => rfl

/-- In an automaton whose states can be put in order and are no sets, reading a word leads from a
state to exactly the states to which the search finds a path, by either way of closing; and the word
is accepted exactly when there is a path from the start to a final state. -/
theorem deltaExt_agrees_with_path (made : n.Made) (horder : n.Sortable) (hflat : n.FlatStates)
    {word : Value} {w : Word} (hitems : word.items = .ok w) (hw : ∀ x ∈ w, x.hashable = true)
    (log : Log) :
    (∀ a, n.IsState a → ∀ method, ∃ reached after,
      (n.deltaExt a word method).runWith log = (.ok reached, after) ∧
        ∀ b, n.IsState b → (b ∈ reached ↔ n.path a word b = .ok true)) ∧
    ∃ answer after, (n.accepts word).runWith log = (.ok answer, after) ∧
      (answer = true ↔ ∃ f ∈ n.finals.items, n.path n.initial word f = .ok true) := by
  have hn := made.valid
  constructor
  · intro a ha method
    obtain ⟨reached, after, hdelta, hreach⟩ :=
      deltaExt_spec hn horder ha (hflat.members?_eq_none hn ha.mem) hitems hw method log
    refine ⟨reached, after, hdelta, fun b hb => ?_⟩
    rw [hreach, path_eq_ok_true_iff hn ha hb hitems hw]
  · obtain ⟨answer, after, haccepts, hanswer⟩ :=
      accepts_spec hn horder (hflat.members?_eq_none hn hn.sound.start_mem) hitems hw log
    exact ⟨answer, after, haccepts, hanswer.trans (findsFinal_iff hn hitems hw).symm⟩

/-- A cycle of empty moves with a loop on it, a final state beyond it, and a state that nothing leads
to. -/
def knotted : Shape where
  states := .ofList [.int 0, .int 1, .double (.finite 2), .int 7]
  alphabet := .ofList [.text "a", .tuple [.text "b"]]
  initial := .int 0
  transitions := .ofList [⟨.int 0, .epsilon, .int 1⟩, ⟨.int 1, .epsilon, .int 0⟩,
    ⟨.int 1, .text "a", .int 1⟩, ⟨.int 0, .tuple [.text "b"], .int 2⟩, ⟨.int 7, .text "a", .int 0⟩]
  finals := .ofList [.int 2]

theorem knotted_made : (ofShape knotted).Made :=
  made_ofShape (.list [.int 0, .int 1, .double (.finite 2), .int 7])
    (.list [.text "a", .tuple [.text "b"]]) (.int 0)
    (.list [.tuple [.int 0, .epsilon, .int 1], .tuple [.int 1, .epsilon, .int 0],
      .tuple [.int 1, .text "a", .int 1], .tuple [.int 0, .tuple [.text "b"], .int 2],
      .tuple [.int 7, .text "a", .int 0]])
    (.list [.int 2]) rfl (List.isEmpty_iff.mp (by decide +kernel)) rfl

theorem knotted_sortable : (ofShape knotted).Sortable := by
  show List.Pairwise _ _
  decide +kernel

theorem knotted_flatStates : (ofShape knotted).FlatStates := by
  intro xs h
  have hmem := OrderedSet.mem_of_mem_items_ofList h
  simp at hmem

/-- Around the cycle and the loop and out of it, with empty moves in the word. -/
theorem deltaExt_agrees_with_path_knotted :
    let n := ofShape knotted
    let word := Value.list [.epsilon, .text "a", .epsilon, .text "a", .tuple [.text "b"]]
    (n.Made ∧ n.Sortable ∧ n.FlatStates ∧
      word.items = .ok [.epsilon, .text "a", .epsilon, .text "a", .tuple [.text "b"]] ∧
      ∀ x ∈ [Value.epsilon, .text "a", .epsilon, .text "a", .tuple [.text "b"]],
        x.hashable = true) ∧
    (∀ a, n.IsState a → ∀ method, ∃ reached after,
      (n.deltaExt a word method).runWith .on = (.ok reached, after) ∧
        ∀ b, n.IsState b → (b ∈ reached ↔ n.path a word b = .ok true)) ∧
    ∃ answer after, (n.accepts word).runWith .on = (.ok answer, after) ∧
      (answer = true ↔ ∃ f ∈ n.finals.items, n.path n.initial word f = .ok true) := by
  intro n word
  have hitems : word.items =
      .ok [.epsilon, .text "a", .epsilon, .text "a", .tuple [.text "b"]] := rfl
  have hword : ∀ x ∈ [Value.epsilon, .text "a", .epsilon, .text "a", .tuple [.text "b"]],
      x.hashable = true := by
    simp [Value.hashable, Value.allHashable]
  exact ⟨⟨knotted_made, knotted_sortable, knotted_flatStates, hitems, hword⟩,
    deltaExt_agrees_with_path knotted_made knotted_sortable knotted_flatStates hitems hword .on⟩

end EpsilonAutomata.Automaton
