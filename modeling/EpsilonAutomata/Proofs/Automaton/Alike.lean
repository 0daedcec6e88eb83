import EpsilonAutomata.Proofs.Automaton.Stepping
import EpsilonAutomata.Proofs.Value.Collections

/-!
# Equal automata answer alike

Automata are equal when their parts have the same members, in whatever order they came in and
whichever of several equal values stands for each (`Twins`). Two such automata have the same moves
and runs. Each stage of a query takes equal sets of states to equal sets of states
(`Twins.statesOf`, `close`, `move`, `readSymbols`), so by composition every query gives equal
answers to equal arguments, or faults of one class (`equal_automata_answer_alike`).

Stages are compared by `Related`, with a relation that says what the next stage needs to know of the
sets: that they hold states (`SameStates`) and that empty moves do not leave them (`SameClosed`).
-/

namespace EpsilonAutomata

open Outcome

/-! ## Equal arguments -/

namespace Value

/-- Equal values that can be looked up. -/
structure SameKey (a a' : Value) : Prop where
  beq : (a == a') = true
  left : a.hashable = true
  right : a'.hashable = true

/-- Equal arguments that name only what can be looked up. The two may be sets, frozen or not, that
list their members in different orders. -/
structure SameArgument (a a' : Value) : Prop where
  beq : (a == a') = true
  left : ∀ b ∈ a.named, b.hashable = true
  right : ∀ b ∈ a'.named, b.hashable = true

/-- Words that are equal item by item, and whose items can be looked up, or values neither of which
can be gone through. So are equal values of any kind with such items, but for sets and mappings
(`sameWord_of_beq`): these count as words only in the order in which they yield their items. -/
def SameWord (word word' : Value) : Prop :=
  Related (fun w w' : Word => (w == w') = true ∧ (∀ x ∈ w, x.hashable = true) ∧
    ∀ x ∈ w', x.hashable = true) word.items word'.items

variable {a a' : Value} {xs : List Value}

theorem allHashable_iff : allHashable xs = true ↔ ∀ x ∈ xs, x.hashable = true := by
  induction xs with
  | nil => simp [allHashable]
  | cons x xs ih => simp [allHashable, ih]

theorem named_sameMembers (h : (a == a') = true) : SameMembers a.named a'.named := by
  cases a with
  | list xs =>
    obtain ⟨ys, hys, hsame⟩ := (same_iff_of_sequence rfl a').mp h
    rcases eq_of_sequence hys with ⟨-, hk⟩ | ⟨rfl, -⟩
    · cases hk
    · exact .of_beq (sameItems_iff_beq.mp hsame)
  | set xs | frozenSet xs =>
    obtain ⟨ys, hys, hxs, hys'⟩ := (same_iff_of_members rfl a').mp h
    rw [named_of_members hys]
    exact .of_within hxs hys'
  | _ =>
    have hset : a'.members? = none := (members?_eq_none_congr h).mp rfl
    have hlist : ∀ ys, a' ≠ list ys := by
      rintro ys rfl
      obtain ⟨zs, hzs, -⟩ := (same_iff_of_sequence rfl _).mp (BEq.symm h)
      cases hzs
    have hnamed : a'.named = [a'] := by
      cases a' <;> simp_all [members?, named]
    rw [hnamed]
    exact .of_beq (Lists.beq_cons.mpr ⟨h, rfl⟩)

theorem hashable_of_items? (ha : ∀ b ∈ a.named, b.hashable = true) (hxs : a.items? = some xs) :
    ∀ x ∈ xs, x.hashable = true := by
  cases a with
  | set ys | frozenSet ys | list ys =>
    obtain rfl := Option.some.inj hxs
    exact ha
  | tuple ys =>
    obtain rfl := Option.some.inj hxs
    have htuple : (tuple ys).hashable = true := ha _ List.mem_cons_self
    rwa [hashable, allHashable_iff] at htuple
  | text s =>
    obtain rfl := Option.some.inj hxs
    intro x hx
    obtain ⟨c, -, rfl⟩ := List.mem_map.mp hx
    rfl
  | mapping es => exact absurd (ha _ List.mem_cons_self) (by simp [hashable])
  | _ => cases hxs

theorem SameArgument.items (h : SameArgument a a') :
    Related (fun xs ys => SameMembers xs ys ∧ (∀ x ∈ xs, x.hashable = true) ∧
      ∀ y ∈ ys, y.hashable = true) a.items a'.items := by
  unfold Value.items
  rcases items?_congr h.beq with ⟨hnone, hnone'⟩ | ⟨xs, ys, hxs, hys, hsame⟩
  · rw [hnone, hnone']
    exact .error rfl
  · rw [hxs, hys]
    exact .ok ⟨hsame, hashable_of_items? h.left hxs, hashable_of_items? h.right hys⟩

theorem sameWord_of_beq (h : (a == a') = true) (hset : a.members? = none)
    (hmapping : ∀ es, a ≠ mapping es)
    (hleft : ∀ w, a.items = .ok w → ∀ x ∈ w, x.hashable = true)
    (hright : ∀ w, a'.items = .ok w → ∀ x ∈ w, x.hashable = true) : SameWord a a' := by
  cases a with
  | text s =>
    obtain rfl := eq_text_of_beq h
    exact .ok ⟨BEq.rfl, hleft _ rfl, hright _ rfl⟩
  | tuple xs | list xs =>
    obtain ⟨ys, hys, hsame⟩ := (same_iff_of_sequence rfl a').mp h
    have hitems : a'.items = .ok ys := by
      rcases eq_of_sequence hys with ⟨rfl, -⟩ | ⟨rfl, -⟩ <;> rfl
    rw [SameWord, hitems]
    exact .ok ⟨sameItems_iff_beq.mp hsame, hleft _ rfl, hright _ hitems⟩
  | set xs | frozenSet xs => cases hset
  | mapping es => exact absurd rfl (hmapping es)
  | _ =>
    rcases items?_congr h with ⟨-, hnone⟩ | ⟨xs, ys, hxs, -, -⟩
    · rw [SameWord, Value.items, Value.items, hnone]
      exact .error rfl
    · cases hxs

end Value

/-! ## Equal automata -/

namespace Automaton

variable {n m : Automaton}

/-- Two valid automata with the same members in each part. -/
structure Twins (n m : Automaton) : Prop where
  left : n.Valid
  right : m.Valid
  states : ∀ a, a ∈ n.states ↔ a ∈ m.states
  initial : (n.initial == m.initial) = true
  transitions : ∀ t : Transition, t ∈ n.transitions ↔ t ∈ m.transitions
  finals : ∀ f, f ∈ n.finals ↔ f ∈ m.finals

theorem twins_of_beq (hn : n.Valid) (hm : m.Valid) (h : (n == m) = true) : Twins n m := by
  obtain ⟨hstates, -, hinitial, htransitions, hfinals⟩ := Shape.beq_iff.mp h
  exact ⟨hn, hm, OrderedSet.beq_iff.mp hstates, hinitial, OrderedSet.beq_iff.mp htransitions,
    OrderedSet.beq_iff.mp hfinals⟩

/-- Equal sets of states of the first automaton. -/
structure SameStates (n : Automaton) (s s' : ValueSet) : Prop where
  beq : (s == s') = true
  subset : ∀ b, b ∈ s → b ∈ n.states

/-- Equal sets of states that empty moves of the first automaton do not leave. -/
structure SameClosed (n : Automaton) (s s' : ValueSet) : Prop extends SameStates n s s' where
  closed : n.EpsilonClosed s

namespace Twins

variable {a a' x x' b b' : Value} {w w' : Word} {s s' : ValueSet}

theorem move_iff (h : Twins n m) (ha : (a == a') = true) (hx : (x == x') = true)
    (hb : (b == b') = true) :
    (⟨a, x, b⟩ : Transition) ∈ n.transitions ↔ (⟨a', x', b'⟩ : Transition) ∈ m.transitions :=
  (Shape.mem_transitions_congr ha hx hb).trans (h.transitions _)

theorem run_iff (h : Twins n m) (ha : (a == a') = true) (hw : (w == w') = true)
    (hb : (b == b') = true) : Run n.toShape a w b ↔ Run m.toShape a' w' b' := by
  constructor
  · intro run
    have run' : Run m.toShape a w b := run.mono fun t => (h.transitions t).mp
    exact ((run'.congr_left (BEq.symm ha)).congr_right hb).congr_word hw
  · intro run
    have run' : Run n.toShape a' w' b' := run.mono fun t => (h.transitions t).mpr
    exact ((run'.congr_left ha).congr_right (BEq.symm hb)).congr_word (BEq.symm hw)

theorem isState_iff (h : Twins n m) (ha : a.hashable = true) (ha' : a'.hashable = true)
    (hbeq : (a == a') = true) : n.IsState a ↔ m.IsState a' := by
  have hmem : a ∈ n.states ↔ a' ∈ m.states := (h.states a).trans (OrderedSet.mem_congr hbeq)
  exact ⟨fun hn => ⟨ha', hmem.mp hn.mem⟩, fun hm => ⟨ha, hmem.mpr hm.mem⟩⟩

theorem epsilonClosed (h : Twins n m) (hs : (s == s') = true) (hclosed : n.EpsilonClosed s) :
    m.EpsilonClosed s' := by
  intro a b ha hmove
  rw [← OrderedSet.beq_iff.mp hs] at ha ⊢
  exact hclosed a b ha ((h.transitions _).mpr hmove)

/-! ### Single stages -/

theorem close (h : Twins n m) (method : ClosureMethod) (hs : SameStates n s s') :
    Related (SameClosed n) (n.close method s) (m.close method s') := by
  have hsub' : ∀ b, b ∈ s' → b ∈ m.states := by
    intro b hb
    rw [← OrderedSet.beq_iff.mp hs.beq] at hb
    exact (h.states b).mp (hs.subset b hb)
  obtain ⟨r, hr, hclosure⟩ := close_eq_ok h.left method hs.subset
  obtain ⟨r', hr', hclosure'⟩ := close_eq_ok h.right method hsub'
  rw [hr, hr']
  refine .ok ⟨⟨OrderedSet.beq_iff.mpr fun b => ?_, hclosure.subset_states h.left hs.subset⟩,
    hclosure.epsilonClosed⟩
  rw [hclosure, hclosure']
  simp only [OrderedSet.beq_iff.mp hs.beq, h.run_iff BEq.rfl BEq.rfl BEq.rfl]

theorem move (h : Twins n m) (hs : SameStates n s s') (hx : Value.SameKey x x') :
    Related (SameStates n) (n.move s x) (m.move s' x') := by
  obtain ⟨r, hr, hmoved⟩ := move_eq_ok h.left (s := s) hx.left
  obtain ⟨r', hr', hmoved'⟩ := move_eq_ok h.right (s := s') hx.right
  rw [hr, hr']
  refine .ok ⟨OrderedSet.beq_iff.mpr fun b => ?_, ?_⟩
  · rw [hmoved, hmoved']
    simp only [OrderedSet.beq_iff.mp hs.beq, h.move_iff BEq.rfl hx.beq BEq.rfl]
  · intro b hb
    obtain ⟨a, -, hmove⟩ := (hmoved b).mp hb
    exact (h.left.sound.move_mem _ hmove).2.1

theorem readSymbols (h : Twins n m) (method : ClosureMethod) (hs : SameClosed n s s')
    (hw : (w == w') = true) (hleft : ∀ x ∈ w, x.hashable = true)
    (hright : ∀ x ∈ w', x.hashable = true) :
    Related (SameStates n) (n.readSymbols method s w) (m.readSymbols method s' w') := by
  obtain ⟨r, hr, hruns⟩ := readSymbols_spec h.left method hs.closed hleft
  obtain ⟨r', hr', hruns'⟩ :=
    readSymbols_spec h.right method (h.epsilonClosed hs.beq hs.closed) hright
  rw [hr, hr']
  refine .ok ⟨OrderedSet.beq_iff.mpr fun b => ?_, ?_⟩
  · rw [hruns, hruns']
    simp only [OrderedSet.beq_iff.mp hs.beq, h.run_iff BEq.rfl (Word.visible_congr hw) BEq.rfl]
  · intro b hb
    obtain ⟨a, ha, run⟩ := (hruns b).mp hb
    exact run.mem_states h.left.sound (hs.subset a ha)

/-! ### Queries -/

theorem sortable (h : Twins n m) (horder : n.Sortable) : m.Sortable :=
  horder.comparable fun a => (h.states a).mpr

theorem statesOf (h : Twins n m) (horder : n.Sortable) (ha : Value.SameArgument a a') :
    Related (SameStates n) (n.statesOf a) (m.statesOf a') := by
  have hnamed := Value.named_sameMembers ha.beq
  by_cases hall : ∀ b ∈ a.named, n.IsState b
  · have hall' : ∀ b ∈ a'.named, m.IsState b := by
      intro b hb
      obtain ⟨c, hc, hbc⟩ := hnamed.symm.exists_of_mem hb
      exact (h.isState_iff (ha.left c hc) (ha.right b hb) (BEq.symm hbc)).mp (hall c hc)
    rw [statesOf_eq_ok hall, statesOf_eq_ok hall']
    exact .ok ⟨hnamed.ofList, fun b => mem_states_of_named hall⟩
  · have hsome : ∃ b ∈ a.named, ¬ n.IsState b := by simpa using hall
    have hsome' : ∃ b ∈ a'.named, ¬ m.IsState b := by
      obtain ⟨b, hb, hnot⟩ := hsome
      obtain ⟨c, hc, hbc⟩ := hnamed.exists_of_mem hb
      exact ⟨c, hc, fun hstate =>
        hnot ((h.isState_iff (ha.left b hb) (ha.right c hc) hbc).mpr hstate)⟩
    obtain ⟨e, hrefusal, he⟩ := statesOf_refuses hsome
    obtain ⟨e', hrefusal', he'⟩ := statesOf_refuses hsome'
    rw [he, he']
    apply Related.error
    rw [hrefusal.invalid (horder.comparable h.left.sound.final_mem),
      hrefusal'.invalid ((h.sortable horder).comparable h.right.sound.final_mem)]

theorem closeStates (h : Twins n m) (horder : n.Sortable) (ha : Value.SameArgument a a')
    (method : ClosureMethod) :
    Related (SameClosed n) (n.statesOf a >>= n.close method) (m.statesOf a' >>= m.close method) :=
  (h.statesOf horder ha).bind fun _ _ hs => h.close method hs

theorem step (h : Twins n m) (horder : n.Sortable) (ha : Value.SameArgument a a')
    (hx : Value.SameKey x x') : Related (SameStates n) (n.step a x) (m.step a' x') :=
  (h.statesOf horder ha).bind fun _ _ hs => h.move hs hx

theorem nextState (h : Twins n m) (horder : n.Sortable) (ha : Value.SameArgument a a')
    (hx : Value.SameKey x x') :
    Related (SameClosed n) (n.nextState a x) (m.nextState a' x') := by
  have hnext (n : Automaton) (a x : Value) : n.nextState a x = n.step a x >>= n.close .rounds := by
    rw [Automaton.nextState, Automaton.step, bind_assoc]
    rfl
  rw [hnext, hnext]
  exact (h.step horder ha hx).bind fun _ _ hs => h.close .rounds hs

theorem deltaExt (h : Twins n m) (horder : n.Sortable) (ha : Value.SameArgument a a')
    (hword : Value.SameWord x x') (method : ClosureMethod) (log log' : Log) :
    Related (SameStates n) ((n.deltaExt a x method).runWith log).1
      ((m.deltaExt a' x' method).runWith log').1 := by
  rw [deltaExt_result, deltaExt_result]
  apply (h.closeStates horder ha method).bind
  intro closed closed' hclosed
  apply hword.bind
  rintro w w' ⟨hw, hleft, hright⟩
  apply (h.readSymbols method hclosed hw hleft hright).bind
  intro r r' hr
  -- the states reached can be put in order on both sides
  have hsub' : ∀ b, b ∈ r' → b ∈ m.states := by
    intro b hb
    rw [← OrderedSet.beq_iff.mp hr.beq] at hb
    exact (h.states b).mp (hr.subset b hb)
  obtain ⟨inOrder, hsorted⟩ := horder.sorted_eq_ok hr.subset
  obtain ⟨inOrder', hsorted'⟩ := (h.sortable horder).sorted_eq_ok hsub'
  rw [hsorted, hsorted']
  exact .ok hr

theorem accepting_eq (h : Twins n m) (hs : (s == s') = true) : n.accepting s = m.accepting s' := by
  rw [Bool.eq_iff_iff, accepting_iff, accepting_iff]
  simp only [h.finals, OrderedSet.beq_iff.mp hs]

theorem accepts (h : Twins n m) (horder : n.Sortable)
    (hinitial : Value.SameArgument n.initial m.initial) (hword : Value.SameWord x x')
    (log log' : Log) : Alike ((n.accepts x).runWith log).1 ((m.accepts x').runWith log').1 := by
  rw [accepts_result, accepts_result]
  apply (h.deltaExt horder hinitial hword .rounds log log').map
  intro r r' hr
  rw [beq_iff_eq]
  exact h.accepting_eq hr.beq

theorem path (h : Twins n m) (horder : n.Sortable) (ha : Value.SameKey a a')
    (hb : Value.SameKey b b') (hword : Value.SameWord x x') :
    Alike (n.path a x b) (m.path a' x' b') := by
  have hends : Value.SameArgument (.list [a, b]) (.list [a', b']) := by
    refine ⟨?_, ?_, ?_⟩
    · simp only [Value.beq_def, Value.same, Value.sameItems, Bool.and_true, Bool.and_eq_true]
      exact ⟨ha.beq, hb.beq⟩
    · simp [Value.named, ha.left, hb.left]
    · simp [Value.named, ha.right, hb.right]
  have hstates := h.isState_iff ha.left ha.right ha.beq
  have hstates' := h.isState_iff hb.left hb.right hb.beq
  by_cases hboth : n.IsState a ∧ n.IsState b
  · obtain ⟨hstart, hgoal⟩ := hboth
    rcases hword.ok_or_error with
      ⟨w, w', hitems, hitems', hw, hleft, hright⟩ | ⟨e, e', hitems, hitems', hfamily⟩
    · obtain ⟨answer, -, hpath, hrun, -, -⟩ := exists_visits_path h.left hstart hgoal hitems hleft
      obtain ⟨answer', -, hpath', hrun', -, -⟩ :=
        exists_visits_path h.right (hstates.mp hstart) (hstates'.mp hgoal) hitems' hright
      rw [hpath, hpath']
      apply Related.ok
      rw [beq_iff_eq, Bool.eq_iff_iff, hrun, hrun']
      exact h.run_iff ha.beq (Word.visible_congr hw) hb.beq
    · rw [path_of_states hstart hgoal, path_of_states (hstates.mp hstart) (hstates'.mp hgoal),
        hitems, hitems']
      exact .error hfamily
  · -- neither search begins
    have hsome : ∃ c ∈ (Value.list [a, b]).named, ¬ n.IsState c := by
      by_cases hstart : n.IsState a
      · exact ⟨b, List.mem_cons_of_mem a List.mem_cons_self, fun hgoal => hboth ⟨hstart, hgoal⟩⟩
      · exact ⟨a, List.mem_cons_self, hstart⟩
    obtain ⟨e, -, he⟩ := statesOf_refuses hsome
    rcases (h.statesOf horder hends).ok_or_error with
      ⟨s, -, hs, -, -⟩ | ⟨f, f', hf, hf', hfamily⟩
    · rw [he] at hs
      cases hs
    · rw [Automaton.path, Automaton.path, hf, hf']
      exact .error hfamily

theorem isFinal (h : Twins n m) (ha : Value.SameArgument a a') :
    Alike (n.isFinal a) (m.isFinal a') := by
  apply ha.items.bind
  rintro xs ys ⟨hsame, hxs, hys⟩
  rw [anyFinal_eq_ok hxs, anyFinal_eq_ok hys]
  apply Related.ok
  rw [beq_iff_eq]
  apply hsame.any_congr
  intro c d hcd
  rw [Bool.eq_iff_iff]
  exact (h.finals c).trans (OrderedSet.mem_congr hcd)

theorem epsilonSuccessors (h : Twins n m) (ha : Value.SameKey a a') :
    Alike (n.epsilonSuccessors a) (m.epsilonSuccessors a') := by
  rw [Automaton.epsilonSuccessors, Automaton.epsilonSuccessors, if_pos ha.left, if_pos ha.right]
  refine .ok (OrderedSet.beq_iff.mpr fun b => ?_)
  rw [mem_epsilonTargets h.left, mem_epsilonTargets h.right]
  exact h.move_iff ha.beq BEq.rfl BEq.rfl

theorem symbolSuccessors (h : Twins n m) (ha : Value.SameKey a a') (hx : Value.SameKey x x') :
    Alike (n.symbolSuccessors a x) (m.symbolSuccessors a' x') := by
  rw [Automaton.symbolSuccessors, Automaton.symbolSuccessors, if_pos (by simp [ha.left, hx.left]),
    if_pos (by simp [ha.right, hx.right])]
  refine .ok (OrderedSet.beq_iff.mpr fun b => ?_)
  rw [mem_targets h.left, mem_targets h.right]
  exact h.move_iff ha.beq hx.beq BEq.rfl

end Twins

/-! ### Labels -/

section Labels

variable {a : Value} {ts : List Transition} (labels : ValueSet)

theorem foldlM_addLabel_eq_error (h : ∃ t ∈ ts, a.holds? t.source = none) :
    ts.foldlM (addLabel a) labels = .error .notIterable := by
  induction ts generalizing labels with
  | nil => simp at h
  | cons t ts ih =>
    rw [List.foldlM_cons, addLabel]
    cases hheld : a.holds? t.source with
    | none => rfl
    | some held =>
      obtain ⟨u, hu, hnone⟩ := h
      rcases List.mem_cons.mp hu with rfl | hu
      · rw [hheld] at hnone
        cases hnone
      · exact ih _ ⟨u, hu, hnone⟩

theorem foldlM_addLabel_eq_ok (h : ¬ ∃ t ∈ ts, a.holds? t.source = none) :
    ∃ r, ts.foldlM (addLabel a) labels = .ok r ∧ ∀ x, x ∈ r ↔ x ∈ labels ∨
      ∃ t ∈ ts, a.holds? t.source = some true ∧ t.label.isEpsilon = false ∧
        (t.label == x) = true := by
  induction ts generalizing labels with
  | nil => exact ⟨labels, rfl, by simp⟩
  | cons t ts ih =>
    have hrest : ¬ ∃ u ∈ ts, a.holds? u.source = none :=
      fun ⟨u, hu, hnone⟩ => h ⟨u, List.mem_cons_of_mem t hu, hnone⟩
    cases hheld : a.holds? t.source with
    | none => exact absurd ⟨t, List.mem_cons_self, hheld⟩ h
    | some held =>
      obtain ⟨r, hr, hmem⟩ :=
        ih (if held && !t.label.isEpsilon then labels.insert t.label else labels) hrest
      refine ⟨r, ?_, fun x => ?_⟩
      · rw [List.foldlM_cons, addLabel, hheld]
        exact hr
      · rw [hmem]
        simp only [List.mem_cons, exists_eq_or_imp, hheld, Option.some.injEq]
        cases held <;> cases t.label.isEpsilon <;> simp [OrderedSet.mem_insert, or_assoc]

end Labels

theorem Twins.exists_transition_iff (h : Twins n m) {p q : Transition → Prop}
    (hpq : ∀ t u : Transition, (t == u) = true → (p t ↔ q u)) :
    (∃ t ∈ n.transitions.items, p t) ↔ ∃ u ∈ m.transitions.items, q u := by
  constructor
  · rintro ⟨t, ht, hp⟩
    obtain ⟨u, hu, hut⟩ :=
      OrderedSet.mem_iff_exists.mp ((h.transitions t).mp (OrderedSet.mem_of_mem_items ht))
    exact ⟨u, hu, (hpq t u (BEq.symm hut)).mp hp⟩
  · rintro ⟨u, hu, hq⟩
    obtain ⟨t, ht, htu⟩ :=
      OrderedSet.mem_iff_exists.mp ((h.transitions u).mpr (OrderedSet.mem_of_mem_items hu))
    exact ⟨t, ht, (hpq t u htu).mpr hq⟩

theorem Twins.getLabels (h : Twins n m) {a a' : Value} (ha : (a == a') = true) :
    Alike (n.getLabels a) (m.getLabels a') := by
  have hheld (t u : Transition) (htu : (t == u) = true) : a.holds? t.source = a'.holds? u.source :=
    Value.holds?_congr ha (Transition.beq_iff.mp htu).1
  have hnone := h.exists_transition_iff fun t u htu =>
    show a.holds? t.source = none ↔ a'.holds? u.source = none by rw [hheld t u htu]
  by_cases hspoilt : ∃ t ∈ n.transitions.items, a.holds? t.source = none
  · rw [Automaton.getLabels, Automaton.getLabels, foldlM_addLabel_eq_error ∅ hspoilt,
      foldlM_addLabel_eq_error ∅ (hnone.mp hspoilt)]
    exact .error rfl
  · obtain ⟨r, hr, hmem⟩ := foldlM_addLabel_eq_ok ∅ hspoilt
    obtain ⟨r', hr', hmem'⟩ := foldlM_addLabel_eq_ok ∅ (mt hnone.mpr hspoilt)
    rw [Automaton.getLabels, Automaton.getLabels, hr, hr']
    refine .ok (OrderedSet.beq_iff.mpr fun x => ?_)
    rw [hmem, hmem']
    apply or_congr Iff.rfl
    apply h.exists_transition_iff
    intro t u htu
    obtain ⟨-, hlabel, -⟩ := Transition.beq_iff.mp htu
    rw [hheld t u htu, Value.isEpsilon_congr hlabel]
    have hx : (t.label == x) = true ↔ (u.label == x) = true :=
      ⟨BEq.trans (BEq.symm hlabel), BEq.trans hlabel⟩
    rw [hx]

/-! ## All queries -/

/-- To equal arguments both automata give equal answers, or faults of one class, with the log on or
off on either side. -/
structure AnswersAlike (n m : Automaton) : Prop where
  eclose {a a'} : Value.SameArgument a a' → Alike (n.eclose a) (m.eclose a')
  ecloseByDepth {a a'} : Value.SameArgument a a' → Alike (n.ecloseByDepth a) (m.ecloseByDepth a')
  step {a a' x x'} : Value.SameArgument a a' → Value.SameKey x x' →
    Alike (n.step a x) (m.step a' x')
  deltaExt {a a' word word'} method log log' : Value.SameArgument a a' →
    Value.SameWord word word' → Alike ((n.deltaExt a word method).runWith log).1
      ((m.deltaExt a' word' method).runWith log').1
  path {a a' b b' word word'} : Value.SameKey a a' → Value.SameKey b b' →
    Value.SameWord word word' → Alike (n.path a word b) (m.path a' word' b')
  accepts {word word'} log log' : Value.SameWord word word' →
    Alike ((n.accepts word).runWith log).1 ((m.accepts word').runWith log').1
  start : Alike n.start m.start
  nextState {a a' x x'} : Value.SameArgument a a' → Value.SameKey x x' →
    Alike (n.nextState a x) (m.nextState a' x')
  isFinal {a a'} : Value.SameArgument a a' → Alike (n.isFinal a) (m.isFinal a')
  epsilonSuccessors {a a'} : Value.SameKey a a' →
    Alike (n.epsilonSuccessors a) (m.epsilonSuccessors a')
  symbolSuccessors {a a' x x'} : Value.SameKey a a' → Value.SameKey x x' →
    Alike (n.symbolSuccessors a x) (m.symbolSuccessors a' x')
  getLabels {a a'} : Value.SameArgument a a' → Alike (n.getLabels a) (m.getLabels a')

/-- Two automata that came out of the constructor and are equal answer alike, however their parts
were listed and whichever of several equal values stand in them, if their states can be put in
order. The start may be a frozen set; its members can be looked up, as those of every set can. -/
theorem equal_automata_answer_alike (hn : n.Made) (hm : m.Made) (h : (n == m) = true)
    (horder : n.Sortable) (hleft : ∀ b ∈ n.initial.named, b.hashable = true)
    (hright : ∀ b ∈ m.initial.named, b.hashable = true) : AnswersAlike n m := by
  have twins := twins_of_beq hn.valid hm.valid h
  have hinitial : Value.SameArgument n.initial m.initial := ⟨twins.initial, hleft, hright⟩
  have heclose {a a'} (ha : Value.SameArgument a a') : Alike (n.eclose a) (m.eclose a') :=
    (twins.closeStates horder ha .rounds).mono fun _ _ hr => hr.beq
  constructor
  case eclose => exact heclose
  case ecloseByDepth =>
    exact fun ha => (twins.closeStates horder ha .depth).mono fun _ _ hr => hr.beq
  case step =>
    exact fun ha hx => (twins.step horder ha hx).mono fun _ _ hr => hr.beq
  case deltaExt =>
    intro a a' word word' method log log' ha hword
    exact (twins.deltaExt horder ha hword method log log').mono fun _ _ hr => hr.beq
  case path => exact twins.path horder
  case accepts =>
    exact fun log log' hword => twins.accepts horder hinitial hword log log'
  case start => exact heclose hinitial
  case nextState =>
    exact fun ha hx => (twins.nextState horder ha hx).mono fun _ _ hr => hr.beq
  case isFinal => exact twins.isFinal
  case epsilonSuccessors => exact twins.epsilonSuccessors
  case symbolSuccessors => exact twins.symbolSuccessors
  case getLabels => exact fun ha => twins.getLabels ha.beq

/-- The knot tied again: its parts in other orders and with repetitions, its states by other
numbers. -/
def retied : Shape where
  states := .ofList [.double (.finite 7), .int 2, .bool true, .int 1, .bool false]
  alphabet := .ofList [.tuple [.text "b"], .text "a", .text "a"]
  initial := .double .negativeZero
  transitions := .ofList [⟨.bool true, .text "a", .double (.finite 1)⟩,
    ⟨.int 7, .text "a", .bool false⟩, ⟨.bool false, .tuple [.text "b"], .double (.finite 2)⟩,
    ⟨.bool true, .epsilon, .int 0⟩, ⟨.int 0, .epsilon, .bool true⟩, ⟨.int 0, .epsilon, .int 1⟩]
  finals := .ofList [.double (.finite 2)]

theorem retied_made : (ofShape retied).Made :=
  made_ofShape (.list [.double (.finite 7), .int 2, .bool true, .int 1, .bool false])
    (.list [.tuple [.text "b"], .text "a", .text "a"]) (.double .negativeZero)
    (.list [.tuple [.bool true, .text "a", .double (.finite 1)],
      .tuple [.int 7, .text "a", .bool false],
      .tuple [.bool false, .tuple [.text "b"], .double (.finite 2)],
      .tuple [.bool true, .epsilon, .int 0], .tuple [.int 0, .epsilon, .bool true],
      .tuple [.int 0, .epsilon, .int 1]])
    (.list [.double (.finite 2)]) rfl (List.isEmpty_iff.mp (by decide +kernel)) rfl

/-- Both knots, asked for the same two states by different sets, and for the same word by tuples
with different numbers in them. -/
theorem equal_automata_answer_alike_retied :
    let n := ofShape knotted
    let m := ofShape retied
    let a := Value.set [.int 0, .int 7]
    let a' := Value.frozenSet [.double (.finite 7), .bool false]
    let word := Value.tuple [.text "a", .int 1]
    let word' := Value.tuple [.text "a", .bool true]
    (n.Made ∧ m.Made ∧ (n == m) = true ∧ n.Sortable ∧
      Value.SameArgument a a' ∧ Value.SameWord word word') ∧
    AnswersAlike n m ∧
      Alike ((n.deltaExt a word .rounds).runWith .on).1
        ((m.deltaExt a' word' .rounds).runWith .off).1 := by
  intro n m a a' word word'
  have hbeq : (n == m) = true := by decide +kernel
  have horder : n.Sortable := knotted_sortable
  have hargument : Value.SameArgument a a' := by
    refine ⟨by decide +kernel, ?_, ?_⟩
    · simp [a, Value.named, Value.hashable]
    · simp [a', Value.named, Value.hashable]
  have hword : Value.SameWord word word' := by
    apply Value.sameWord_of_beq (by decide +kernel) rfl (by simp [word])
    · rintro _ ⟨rfl⟩
      simp [Value.hashable]
    · rintro _ ⟨rfl⟩
      simp [Value.hashable]
  have halike : AnswersAlike n m :=
    equal_automata_answer_alike knotted_made retied_made hbeq horder
      (by simp [n, ofShape, knotted, Value.named, Value.hashable])
      (by simp [m, ofShape, retied, Value.named, Value.hashable])
  exact ⟨⟨knotted_made, retied_made, hbeq, horder, hargument, hword⟩, halike,
    halike.deltaExt .rounds .on .off hargument hword⟩

end Automaton

end EpsilonAutomata
