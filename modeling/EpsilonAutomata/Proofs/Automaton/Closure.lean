import EpsilonAutomata.Automaton.Closure
import EpsilonAutomata.Proofs.Automaton.Runs

/-!
# Both closures are what empty moves reach

`IsClosure S r` says that `r` holds exactly what runs on the empty word reach from `S`. Both ways to
find a closure end with one (`close_eq_ok`), so the two queries answer alike, and each with what
trails of empty moves lead to.

* In rounds, everything closed outside the frontier has its empty moves inside (`Expanded`).
* Depth first, an empty move out of a found state leads to a found state or to a frame on the stack
  (`FrameStack`). A successor that is left out because it is on the path was found before, since all
  of a path but its end was visited; so leaving it out loses nothing. A path has different states,
  so it is never longer than there are states.
-/

namespace EpsilonAutomata.Automaton

variable {n : Automaton}

/-- Empty moves do not leave the set. -/
def EpsilonClosed (n : Automaton) (s : ValueSet) : Prop :=
  ∀ a b, a ∈ s → (⟨a, .epsilon, b⟩ : Transition) ∈ n.transitions → b ∈ s

/-- The second set is what empty moves reach from the first. -/
def IsClosure (n : Automaton) (s r : ValueSet) : Prop :=
  ∀ b, b ∈ r ↔ ∃ a, a ∈ s ∧ Run n.toShape a [] b

theorem EpsilonClosed.mem_of_run {s : ValueSet} (hs : n.EpsilonClosed s) {a b : Value}
    (run : Run n.toShape a [] b) (ha : a ∈ s) : b ∈ s := by
  generalize hw : ([] : Word) = w at run
  induction run with
  | stop same => exact (OrderedSet.mem_congr same).mp ha
  | skip move _ ih => exact ih (hs _ _ ha move) hw
  | read _ _ _ _ => cases hw

theorem EpsilonClosed.isClosure {s r : ValueSet} (hr : n.EpsilonClosed r) (hsub : ∀ a, a ∈ s → a ∈ r)
    (hreach : ∀ b, b ∈ r → ∃ a, a ∈ s ∧ Run n.toShape a [] b) : n.IsClosure s r := by
  intro b
  constructor
  · exact hreach b
  · rintro ⟨a, ha, run⟩
    exact hr.mem_of_run run (hsub a ha)

theorem IsClosure.epsilonClosed {s r : ValueSet} (h : n.IsClosure s r) : n.EpsilonClosed r := by
  intro a b ha hmove
  obtain ⟨c, hc, run⟩ := (h a).mp ha
  exact (h b).mpr ⟨c, hc, by simpa using run.append (.of_epsilon hmove)⟩

theorem IsClosure.subset_states (hn : n.Valid) {s r : ValueSet} (h : n.IsClosure s r)
    (hs : ∀ a, a ∈ s → a ∈ n.states) : ∀ b, b ∈ r → b ∈ n.states := by
  intro b hb
  obtain ⟨a, ha, run⟩ := (h b).mp hb
  exact run.mem_states hn.sound (hs a ha)

/-! ## In rounds -/

theorem mem_oneEpsilonAway (hn : n.Valid) {s : ValueSet} {b : Value} :
    b ∈ n.oneEpsilonAway s ↔ ∃ a ∈ s.items, (⟨a, .epsilon, b⟩ : Transition) ∈ n.transitions := by
  rw [oneEpsilonAway, OrderedSet.mem_ofList]
  constructor
  · rintro ⟨c, hc, hcb⟩
    obtain ⟨a, ha, hc⟩ := List.mem_flatMap.mp hc
    exact ⟨a, ha, (mem_epsilonTargets hn).mp (OrderedSet.mem_iff_exists.mpr ⟨c, hc, hcb⟩)⟩
  · rintro ⟨a, ha, hmove⟩
    obtain ⟨c, hc, hcb⟩ := OrderedSet.mem_iff_exists.mp ((mem_epsilonTargets hn).mpr hmove)
    exact ⟨c, List.mem_flatMap.mpr ⟨a, ha, hc⟩, hcb⟩

theorem mem_oneEpsilonAway_of_move (hn : n.Valid) {s : ValueSet} {a b : Value} (ha : a ∈ s)
    (hmove : (⟨a, .epsilon, b⟩ : Transition) ∈ n.transitions) : b ∈ n.oneEpsilonAway s := by
  obtain ⟨c, hc, hca⟩ := OrderedSet.mem_iff_exists.mp ha
  rw [← Shape.mem_transitions_congr hca BEq.rfl BEq.rfl] at hmove
  exact (mem_oneEpsilonAway hn).mpr ⟨c, hc, hmove⟩

/-- The invariant of the rounds: what is closed and not in the frontier was followed. -/
structure Expanded (n : Automaton) (closed frontier : ValueSet) : Prop where
  frontier_subset : ∀ a, a ∈ frontier → a ∈ closed
  followed : ∀ a b, a ∈ closed → a ∉ frontier →
    (⟨a, .epsilon, b⟩ : Transition) ∈ n.transitions → b ∈ closed

theorem Expanded.round (hn : n.Valid) {closed frontier : ValueSet} (h : n.Expanded closed frontier) :
    n.Expanded (closed ∪ (n.oneEpsilonAway frontier \ closed))
      (n.oneEpsilonAway frontier \ closed) := by
  refine ⟨fun a ha => OrderedSet.mem_union.mpr (.inr ha), ?_⟩
  intro a b ha hnew hmove
  have hclosed : a ∈ closed := (OrderedSet.mem_union.mp ha).resolve_right hnew
  rw [OrderedSet.mem_union, OrderedSet.mem_sdiff]
  by_cases hb : b ∈ closed
  · exact .inl hb
  · refine .inr ⟨?_, hb⟩
    by_cases hfrontier : a ∈ frontier
    · exact mem_oneEpsilonAway_of_move hn hfrontier hmove
    · exact absurd (h.followed a b hclosed hfrontier hmove) hb

theorem closeRounds_spec (hn : n.Valid) {closed frontier : ValueSet}
    (h : n.Expanded closed frontier) :
    n.EpsilonClosed (n.closeRounds closed frontier) ∧
      (∀ a, a ∈ closed → a ∈ n.closeRounds closed frontier) ∧
      ∀ b, b ∈ n.closeRounds closed frontier → ∃ a, a ∈ closed ∧ Run n.toShape a [] b := by
  fun_induction n.closeRounds closed frontier with
  | case1 closed frontier found hfound =>
    refine ⟨?_, fun a ha => ha, fun b hb => ⟨b, hb, .refl⟩⟩
    intro a b ha hmove
    by_cases hfrontier : a ∈ frontier
    · exact OrderedSet.subset_iff.mp hfound b (mem_oneEpsilonAway_of_move hn hfrontier hmove)
    · exact h.followed a b ha hfrontier hmove
  | case2 closed frontier found hfound ih =>
    obtain ⟨hclosed, hsub, hreach⟩ := ih (h.round hn)
    refine ⟨hclosed, fun a ha => hsub a (OrderedSet.mem_union.mpr (.inl ha)), ?_⟩
    intro b hb
    obtain ⟨a, ha, run⟩ := hreach b hb
    rcases OrderedSet.mem_union.mp ha with ha | ha
    · exact ⟨a, ha, run⟩
    · obtain ⟨c, hc, hmove⟩ := (mem_oneEpsilonAway hn).mp (OrderedSet.mem_sdiff.mp ha).1
      exact ⟨c, h.frontier_subset c (OrderedSet.mem_of_mem_items hc), .skip hmove run⟩

theorem isClosure_closure (hn : n.Valid) (s : ValueSet) : n.IsClosure s (n.closure s) := by
  have hstart : n.Expanded s s := ⟨fun a ha => ha, fun a b ha hnot _ => absurd ha hnot⟩
  obtain ⟨hclosed, hsub, hreach⟩ := closeRounds_spec hn hstart
  exact hclosed.isClosure hsub hreach

/-! ## Depth first -/

/-- The path of a frame ends in its state, all before was found, and its states are different. -/
structure Frame.Sound (n : Automaton) (found : ValueSet) (f : Frame) : Prop where
  path_eq : ∃ before, f.path = before ++ [f.state] ∧ ∀ a ∈ before, a ∈ found
  distinct : f.path.Pairwise fun a b => (a == b) = false
  states : ∀ a ∈ f.path, a ∈ n.states

/-- The invariant of the visits: empty moves out of what was found lead to what was found or is
still to visit. -/
structure FrameStack (n : Automaton) (found : ValueSet) (stack : List Frame) : Prop where
  frames : ∀ f ∈ stack, f.Sound n found
  pending : ∀ a b, a ∈ found → (⟨a, .epsilon, b⟩ : Transition) ∈ n.transitions →
    b ∈ found ∨ ∃ f ∈ stack, (f.state == b) = true

variable {found : ValueSet} {f g : Frame} {stack : List Frame}

theorem Frame.Sound.mono {found' : ValueSet} (h : f.Sound n found)
    (hsub : ∀ a, a ∈ found → a ∈ found') : f.Sound n found' := by
  obtain ⟨before, hpath, hbefore⟩ := h.path_eq
  exact ⟨⟨before, hpath, fun a ha => hsub a (hbefore a ha)⟩, h.distinct, h.states⟩

theorem Frame.Sound.length_le (h : f.Sound n found) : f.path.length ≤ n.size :=
  OrderedSet.length_le_size h.distinct h.states

theorem Frame.Sound.mem_found (h : f.Sound n found) :
    ∀ a ∈ f.path, a ∈ found.insert f.state := by
  intro a ha
  obtain ⟨before, hpath, hbefore⟩ := h.path_eq
  rw [hpath] at ha
  rcases List.mem_append.mp ha with ha | ha
  · exact OrderedSet.mem_insert.mpr (.inl (hbefore a ha))
  · rw [List.mem_singleton.mp ha]
    exact OrderedSet.mem_insert.mpr (.inr BEq.rfl)

theorem mem_nextFrames {found : ValueSet} :
    g ∈ n.nextFrames found f ↔ ∃ s ∈ (n.epsilonTargets f.state).items,
      (∀ a ∈ f.path, (s == a) = false) ∧ s ∉ found ∧ g = f.extend s := by
  simp only [nextFrames, List.mem_reverse, List.mem_map, List.mem_filter, Bool.and_eq_true,
    Bool.not_eq_true', OrderedSet.contains_eq_false_iff]
  constructor
  · rintro ⟨s, ⟨hs, hpath, hnew⟩, rfl⟩
    refine ⟨s, hs, fun a ha => ?_, hnew, rfl⟩
    rw [List.contains_eq_any_beq, List.any_eq_false] at hpath
    simpa using hpath a ha
  · rintro ⟨s, hs, hpath, hnew, rfl⟩
    refine ⟨s, ⟨hs, ?_, hnew⟩, rfl⟩
    rw [List.contains_eq_any_beq, List.any_eq_false]
    intro a ha
    simp [hpath a ha]

/-- What a visit pushes is sound again: the path grows by a different state. -/
theorem Frame.Sound.next (hn : n.Valid) (h : f.Sound n found)
    (hg : g ∈ n.nextFrames (found.insert f.state) f) : g.Sound n (found.insert f.state) := by
  obtain ⟨s, hs, hpath, -, rfl⟩ := mem_nextFrames.mp hg
  have hmove := (mem_epsilonTargets hn).mp (OrderedSet.mem_of_mem_items hs)
  refine ⟨⟨f.path, rfl, h.mem_found⟩, ?_, ?_⟩
  · refine List.pairwise_append.mpr ⟨h.distinct, List.pairwise_singleton .., ?_⟩
    intro a ha b hb
    rw [List.mem_singleton.mp hb, BEq.comm]
    exact hpath a ha
  · intro a ha
    rcases List.mem_append.mp ha with ha | ha
    · exact h.states a ha
    · rw [List.mem_singleton.mp ha]
      exact (hn.sound.move_mem _ hmove).2.1

theorem FrameStack.origin (hfound : n.EpsilonClosed found) {s : Value} (hs : s ∈ n.states) :
    n.FrameStack found [.origin s] := by
  refine ⟨fun f hf => ?_, fun a b ha hmove => .inl (hfound a b ha hmove)⟩
  obtain rfl := List.mem_singleton.mp hf
  -- the path of an origin is the origin alone
  refine ⟨⟨[], rfl, by simp⟩, List.pairwise_singleton .., fun a ha => ?_⟩
  rw [List.mem_singleton.mp ha]
  exact hs

theorem FrameStack.skip (h : n.FrameStack found (f :: stack)) (hf : f.state ∈ found) :
    n.FrameStack found stack := by
  refine ⟨fun g hg => h.frames g (by simp [hg]), ?_⟩
  intro a b ha hmove
  rcases h.pending a b ha hmove with hb | ⟨g, hg, hgb⟩
  · exact .inl hb
  · rcases List.mem_cons.mp hg with rfl | hg
    · exact .inl ((OrderedSet.mem_congr hgb).mp hf)
    · exact .inr ⟨g, hg, hgb⟩

theorem FrameStack.visit (hn : n.Valid) (h : n.FrameStack found (f :: stack)) :
    n.FrameStack (found.insert f.state) (n.nextFrames (found.insert f.state) f ++ stack) := by
  have hgrow : ∀ a, a ∈ found → a ∈ found.insert f.state :=
    fun a ha => OrderedSet.mem_insert.mpr (.inl ha)
  have hf := h.frames f List.mem_cons_self
  refine ⟨?_, ?_⟩
  · intro g hg
    rcases List.mem_append.mp hg with hg | hg
    · exact hf.next hn hg
    · exact (h.frames g (by simp [hg])).mono hgrow
  · intro a b ha hmove
    rcases OrderedSet.mem_insert.mp ha with ha | ha
    · rcases h.pending a b ha hmove with hb | ⟨g, hg, hgb⟩
      · exact .inl (hgrow b hb)
      · rcases List.mem_cons.mp hg with rfl | hg
        · exact .inl (OrderedSet.mem_insert.mpr (.inr hgb))
        · exact .inr ⟨g, by simp [hg], hgb⟩
    · rw [← Shape.mem_transitions_congr ha BEq.rfl BEq.rfl, ← mem_epsilonTargets hn] at hmove
      obtain ⟨s, hs, hsb⟩ := OrderedSet.mem_iff_exists.mp hmove
      rw [← OrderedSet.mem_congr hsb]
      by_cases hfound : s ∈ found.insert f.state
      · exact .inl hfound
      · -- a successor on the path would have been found
        have hpath : ∀ c ∈ f.path, (s == c) = false := by
          intro c hc
          rw [Bool.eq_false_iff]
          intro hsc
          exact hfound ((OrderedSet.mem_congr hsc).mpr (hf.mem_found c hc))
        have hpushed := mem_nextFrames.mpr ⟨s, hs, hpath, hfound, rfl⟩
        exact .inr ⟨f.extend s, List.mem_append_left _ hpushed, hsb⟩

/-- The visits end without a fault, with a set that is closed, holds what was found and what was to
visit, and nothing that is not reached from there. -/
theorem visitFrames_spec (hn : n.Valid) (h : n.FrameStack found stack) :
    ∃ r, n.visitFrames found stack = .ok r ∧ n.EpsilonClosed r ∧ (∀ a, a ∈ found → a ∈ r) ∧
      (∀ f ∈ stack, f.state ∈ r) ∧
      ∀ b, b ∈ r → b ∈ found ∨ ∃ f ∈ stack, Run n.toShape f.state [] b := by
  fun_induction n.visitFrames found stack with
  | case1 found =>
    refine ⟨found, rfl, ?_, fun a ha => ha, by simp, fun b hb => .inl hb⟩
    intro a b ha hmove
    exact (h.pending a b ha hmove).resolve_right (by simp)
  | case2 found f stack hf ih =>
    obtain ⟨r, hr, hclosed, hfound, hstack, hreach⟩ := ih (h.skip hf)
    refine ⟨r, hr, hclosed, hfound, ?_, ?_⟩
    · intro g hg
      rcases List.mem_cons.mp hg with rfl | hg
      · exact hfound _ hf
      · exact hstack g hg
    · intro b hb
      exact (hreach b hb).imp_right fun ⟨g, hg, run⟩ => ⟨g, by simp [hg], run⟩
  | case3 found f stack hf hlength ih =>
    obtain ⟨r, hr, hclosed, hfound, hstack, hreach⟩ := ih (h.visit hn)
    refine ⟨r, hr, hclosed, fun a ha => hfound a (OrderedSet.mem_insert.mpr (.inl ha)), ?_, ?_⟩
    · intro g hg
      rcases List.mem_cons.mp hg with rfl | hg
      · exact hfound _ (OrderedSet.mem_insert.mpr (.inr BEq.rfl))
      · exact hstack g (by simp [hg])
    · intro b hb
      -- what a pushed frame leads to, the visited one leads to by one move more
      rcases hreach b hb with hb | ⟨g, hg, run⟩
      · rcases OrderedSet.mem_insert.mp hb with hb | hb
        · exact .inl hb
        · exact .inr ⟨f, by simp, .stop hb⟩
      · rcases List.mem_append.mp hg with hg | hg
        · obtain ⟨s, hs, -, -, rfl⟩ := mem_nextFrames.mp hg
          have hmove := (mem_epsilonTargets hn).mp (OrderedSet.mem_of_mem_items hs)
          exact .inr ⟨f, by simp, .skip hmove run⟩
        · exact .inr ⟨g, by simp [hg], run⟩
  | case4 found f stack hf hlength =>
    -- the states on a path are different, so it is never too long
    exact absurd (h.frames f List.mem_cons_self).length_le hlength

theorem visitOrigins_spec (hn : n.Valid) {origins : List Value} (hfound : n.EpsilonClosed found)
    (horigins : ∀ a ∈ origins, a ∈ n.states) :
    ∃ r, n.visitOrigins found origins = .ok r ∧ n.EpsilonClosed r ∧ (∀ a, a ∈ found → a ∈ r) ∧
      (∀ a ∈ origins, a ∈ r) ∧
      ∀ b, b ∈ r → b ∈ found ∨ ∃ a ∈ origins, Run n.toShape a [] b := by
  induction origins generalizing found with
  | nil => exact ⟨found, rfl, hfound, fun a ha => ha, by simp, fun b hb => .inl hb⟩
  | cons s origins ih =>
    have hlater : ∀ a ∈ origins, a ∈ n.states := fun a ha => horigins a (by simp [ha])
    rw [visitOrigins]
    split
    · next hs =>
      obtain ⟨r, hr, hclosed, hsub, hall, hreach⟩ := ih hfound hlater
      refine ⟨r, hr, hclosed, hsub, ?_, ?_⟩
      · intro a ha
        rcases List.mem_cons.mp ha with rfl | ha
        · exact hsub a hs
        · exact hall a ha
      · intro b hb
        exact (hreach b hb).imp_right fun ⟨a, ha, run⟩ => ⟨a, by simp [ha], run⟩
    · have hframes := FrameStack.origin hfound (horigins s List.mem_cons_self)
      obtain ⟨found', hvisit, hclosed', hsub', hstack', hreach'⟩ := visitFrames_spec hn hframes
      obtain ⟨r, hr, hclosed, hsub, hall, hreach⟩ := ih hclosed' hlater
      refine ⟨r, by rw [hvisit]; exact hr, hclosed, fun a ha => hsub a (hsub' a ha), ?_, ?_⟩
      · intro a ha
        rcases List.mem_cons.mp ha with rfl | ha
        · exact hsub a (hstack' _ (List.mem_singleton.mpr rfl))
        · exact hall a ha
      · intro b hb
        rcases hreach b hb with hb | ⟨a, ha, run⟩
        · rcases hreach' b hb with hb | ⟨f, hf, run⟩
          · exact .inl hb
          · obtain rfl := List.mem_singleton.mp hf
            exact .inr ⟨s, by simp, run⟩
        · exact .inr ⟨a, by simp [ha], run⟩

theorem isClosure_closureByDepth (hn : n.Valid) {s : ValueSet} (hs : ∀ a, a ∈ s → a ∈ n.states) :
    ∃ r, n.closureByDepth s = .ok r ∧ n.IsClosure s r := by
  have hempty : n.EpsilonClosed ∅ := fun a b ha _ => absurd ha (OrderedSet.not_mem_empty a)
  obtain ⟨r, hr, hclosed, -, hall, hreach⟩ := visitOrigins_spec hn hempty
    fun a (ha : a ∈ s.items) => hs a (OrderedSet.mem_of_mem_items ha)
  refine ⟨r, hr, hclosed.isClosure ?_ ?_⟩
  · intro a ha
    obtain ⟨c, hc, hca⟩ := OrderedSet.mem_iff_exists.mp ha
    exact (OrderedSet.mem_congr hca).mp (hall c hc)
  · intro b hb
    obtain ⟨a, ha, run⟩ := (hreach b hb).resolve_left (OrderedSet.not_mem_empty b)
    exact ⟨a, OrderedSet.mem_of_mem_items ha, run⟩

theorem close_eq_ok (hn : n.Valid) (method : ClosureMethod) {s : ValueSet}
    (hs : ∀ a, a ∈ s → a ∈ n.states) : ∃ r, n.close method s = .ok r ∧ n.IsClosure s r := by
  cases method with
  | rounds => exact ⟨n.closure s, rfl, isClosure_closure hn s⟩
  | depth => exact isClosure_closureByDepth hn hs

/-! ## The queries -/

theorem mem_states_of_named {xs : List Value} (h : ∀ b ∈ xs, n.IsState b) {a : Value}
    (ha : a ∈ (OrderedSet.ofList xs : ValueSet)) : a ∈ n.states := by
  obtain ⟨b, hb, hba⟩ := OrderedSet.mem_ofList.mp ha
  exact (OrderedSet.mem_congr hba).mp (h b hb).mem

theorem IsClosure.mem_iff {xs : List Value} {r : ValueSet} (h : n.IsClosure (.ofList xs) r)
    (b : Value) : b ∈ r ↔ ∃ a ∈ xs, Run n.toShape a [] b := by
  rw [h b]
  constructor
  · rintro ⟨c, hc, run⟩
    obtain ⟨a, ha, hac⟩ := OrderedSet.mem_ofList.mp hc
    exact ⟨a, ha, run.congr_left hac⟩
  · rintro ⟨a, ha, run⟩
    exact ⟨a, OrderedSet.mem_ofList.mpr ⟨a, ha, BEq.rfl⟩, run⟩

theorem close_named (hn : n.Valid) (method : ClosureMethod) {a : Value}
    (ha : ∀ b ∈ a.named, n.IsState b) :
    ∃ r, (n.statesOf a >>= n.close method) = .ok r ∧ n.IsClosure (.ofList a.named) r := by
  obtain ⟨r, hclose, hclosure⟩ := close_eq_ok hn method fun b => mem_states_of_named ha
  exact ⟨r, by rw [statesOf_eq_ok ha]; exact hclose, hclosure⟩

/-- The closure of the states that an argument names, alone or as the items of a set or list, is
found. It holds these states, empty moves do not leave it, and it is exactly what trails of empty
moves lead to from them. -/
theorem eclose_reaches (made : n.Made) {a : Value} (ha : ∀ b ∈ a.named, n.IsState b) :
    ∃ r, n.eclose a = .ok r ∧ (∀ b ∈ a.named, b ∈ r) ∧ n.EpsilonClosed r ∧
      ∀ b, b ∈ r ↔
        ∃ s ∈ a.named, ∃ ts, Trail n.toShape s ts b ∧ ∀ t ∈ ts, t.label.isEpsilon = true := by
  obtain ⟨r, hr, hclosure⟩ := close_named made.valid .rounds ha
  have hreach := hclosure.mem_iff
  refine ⟨r, hr, fun b hb => (hreach b).mpr ⟨b, hb, .refl⟩, hclosure.epsilonClosed, fun b => ?_⟩
  rw [hreach]
  simp only [run_nil_iff_exists_trail]

/-- Two ways by empty moves into one state, a way back from there, and a move that reads a symbol. -/
def merging : Shape where
  states := .ofList [.int 1, .int 2, .int 3, .int 4, .int 5]
  alphabet := .ofList [.text "x"]
  initial := .int 1
  transitions := .ofList [⟨.int 1, .epsilon, .int 2⟩, ⟨.int 1, .epsilon, .int 3⟩,
    ⟨.int 2, .epsilon, .int 4⟩, ⟨.int 3, .epsilon, .int 4⟩, ⟨.int 4, .epsilon, .int 1⟩,
    ⟨.int 4, .text "x", .int 5⟩]
  finals := .ofList [.int 5]

theorem merging_made : (ofShape merging).Made :=
  made_ofShape (.tuple [.int 1, .int 2, .int 3, .int 4, .int 5]) (.tuple [.text "x"]) (.int 1)
    (.tuple [.tuple [.int 1, .epsilon, .int 2], .tuple [.int 1, .epsilon, .int 3],
      .tuple [.int 2, .epsilon, .int 4], .tuple [.int 3, .epsilon, .int 4],
      .tuple [.int 4, .epsilon, .int 1], .tuple [.int 4, .text "x", .int 5]])
    (.tuple [.int 5]) rfl (List.isEmpty_iff.mp (by decide +kernel)) rfl

/-- From a list that names one state on the cycle twice, by different numbers, and one beyond it. -/
theorem eclose_reaches_merging :
    let n := ofShape merging
    let a := Value.list [.int 2, .double (.finite 2), .int 5]
    (n.Made ∧ ∀ b ∈ a.named, n.IsState b) ∧
      ∃ r, n.eclose a = .ok r ∧ (∀ b ∈ a.named, b ∈ r) ∧ n.EpsilonClosed r ∧
        ∀ b, b ∈ r ↔
          ∃ s ∈ a.named, ∃ ts, Trail merging s ts b ∧ ∀ t ∈ ts, t.label.isEpsilon = true := by
  intro n a
  have ha : ∀ b ∈ a.named, n.IsState b := by
    intro b hb
    rcases List.mem_cons.mp hb with rfl | hb
    · exact ⟨rfl, by decide +kernel⟩
    rcases List.mem_pair.mp hb with rfl | rfl
    · exact ⟨rfl, by decide +kernel⟩
    · exact ⟨rfl, by decide +kernel⟩
  exact ⟨⟨merging_made, ha⟩, eclose_reaches merging_made ha⟩

/-- Both closures answer every argument alike: what names states only with equal sets, and anything
else with one and the same fault. -/
theorem ecloseByDepth_agrees_with_eclose (made : n.Made) (a : Value) :
    (∀ b ∈ a.named, n.IsState b) ∧
        (∃ r r', n.eclose a = .ok r ∧ n.ecloseByDepth a = .ok r' ∧ (r == r') = true) ∨
      (∃ b ∈ a.named, ¬ n.IsState b) ∧
        ∃ e, n.eclose a = .error e ∧ n.ecloseByDepth a = .error e := by
  by_cases ha : ∀ b ∈ a.named, n.IsState b
  · obtain ⟨r, hr, hclosure⟩ := close_named made.valid .rounds ha
    obtain ⟨r', hr', hclosure'⟩ := close_named made.valid .depth ha
    refine .inl ⟨ha, r, r', hr, hr', OrderedSet.beq_iff.mpr fun b => ?_⟩
    rw [hclosure b, hclosure' b]
  · have hsome : ∃ b ∈ a.named, ¬ n.IsState b := by simpa using ha
    -- the argument is refused before either search begins
    obtain ⟨e, he, -⟩ := statesOf_eq_error hsome
    exact .inr ⟨hsome, e, by rw [eclose, he]; rfl, by rw [ecloseByDepth, he]; rfl⟩

/-- On the cycle, from a state that both ways lead to, and on a tuple, which names no state. -/
theorem ecloseByDepth_agrees_with_eclose_merging :
    let n := ofShape merging
    n.Made ∧
      ∀ a ∈ [Value.frozenSet [.int 4], .tuple [.int 4]],
        (∀ b ∈ a.named, n.IsState b) ∧
            (∃ r r', n.eclose a = .ok r ∧ n.ecloseByDepth a = .ok r' ∧ (r == r') = true) ∨
          (∃ b ∈ a.named, ¬ n.IsState b) ∧
            ∃ e, n.eclose a = .error e ∧ n.ecloseByDepth a = .error e :=
  ⟨merging_made, fun a _ => ecloseByDepth_agrees_with_eclose merging_made a⟩

end EpsilonAutomata.Automaton
