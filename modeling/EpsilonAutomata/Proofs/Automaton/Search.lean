import EpsilonAutomata.Automaton.Path
import EpsilonAutomata.Proofs.Automaton.Runs

/-!
# The search for a path is sound and complete

`Visits` writes out a search: which configurations come off the stack, in which order, and with
which answer; `search_eq_ok_iff` says that it is what the search does. The loop invariant
`Search.Inv` relates the stack and the seen set to the runs of the automaton:

* everything on the stack was seen, and nothing is on it twice (`Search.Tidy`);
* everything seen is reached from the start by a run on the part of the word before its position;
* everything seen is still on the stack, or it is not the goal and all its moves were seen.

A turn keeps it (`Inv.turn`). When the stack is empty the seen set is closed under moves and does
not hold the goal, so no run leads there; when the goal comes off the stack, it was reached. A
configuration is pushed only when it is new, so it comes off at most once (`Visits.distinct`).
-/

namespace EpsilonAutomata.Automaton

open Outcome

variable {n : Automaton} {word : Word}

/-! ## Single moves -/

/-- One move of the automaton between configurations. -/
def Moves (n : Automaton) (word : Word) (c d : Configuration) : Prop :=
  (d.position = c.position ∧ (⟨c.state, .epsilon, d.state⟩ : Transition) ∈ n.transitions) ∨
    d.position = c.position + 1 ∧
      ∃ x, word[c.position]? = some x ∧ (⟨c.state, x, d.state⟩ : Transition) ∈ n.transitions

theorem movesFrom_ok (hword : ∀ x ∈ word, x.hashable = true) (c : Configuration) :
    ∃ moves, n.movesFrom word c = .ok moves := by
  unfold movesFrom
  split
  · exact ⟨_, rfl⟩
  · next x rest hdrop =>
    have hx : x ∈ word := List.mem_of_mem_drop (by rw [hdrop]; exact List.mem_cons_self)
    rw [if_pos (hword x hx)]
    exact ⟨_, rfl⟩

theorem exists_mem_resting {d : Configuration} {targets : ValueSet} {p : Nat} :
    (∃ m ∈ targets.items.map fun s => (⟨s, p⟩ : Configuration), (m == d) = true) ↔
      d.position = p ∧ d.state ∈ targets := by
  simp only [List.mem_map, OrderedSet.mem_iff_exists, Configuration.beq_iff]
  constructor
  · rintro ⟨m, ⟨s, hs, rfl⟩, hp, hsd⟩
    exact ⟨hp.symm, s, hs, hsd⟩
  · rintro ⟨hp, s, hs, hsd⟩
    exact ⟨⟨s, p⟩, ⟨s, hs, rfl⟩, hp.symm, hsd⟩

theorem mem_movesFrom (hn : n.Valid) {c d : Configuration} {moves : List Configuration}
    (h : n.movesFrom word c = .ok moves) (hc : c.position ≤ word.length) :
    (∃ m ∈ moves, (m == d) = true) ↔ n.Moves word c d := by
  unfold movesFrom at h
  split at h
  · next hdrop =>
    have hlen : c.position = word.length := by
      have := List.drop_eq_nil_iff.mp hdrop
      omega
    have hnone : word[c.position]? = none := List.getElem?_eq_none (by omega)
    obtain rfl := Except.ok.inj h
    rw [if_pos hlen, exists_mem_resting, mem_epsilonTargets hn]
    simp [Moves, hnone]
  · next x rest hdrop =>
    have hx : word[c.position]? = some x := by
      rw [← List.head?_drop, hdrop]
      rfl
    split at h
    · obtain rfl := Except.ok.inj h
      simp only [List.mem_append, or_and_right, exists_or]
      rw [exists_mem_resting, exists_mem_resting, mem_epsilonTargets hn,
        mem_targets hn]
      simp [Moves, hx]
    · cases h

/-! ## The search, written out -/

/-- The search takes the listed configurations off its stack, in this order, and then answers. -/
inductive Visits (n : Automaton) (word : Word) (goal : Configuration) :
    Search → List Configuration → Bool → Prop
  | exhausted {seen : OrderedSet Configuration} : Visits n word goal ⟨seen, []⟩ [] false
  | found {seen : OrderedSet Configuration} {c : Configuration} {stack : List Configuration}
      (h : (c == goal) = true) : Visits n word goal ⟨seen, c :: stack⟩ [c] true
  | turn {seen : OrderedSet Configuration} {c : Configuration} {stack moves cs : List Configuration}
      {answer : Bool} (h : (c == goal) = false) (hmoves : n.movesFrom word c = .ok moves)
      (rest : Visits n word goal ((Search.mk seen stack).pushAll moves) cs answer) :
      Visits n word goal ⟨seen, c :: stack⟩ (c :: cs) answer

variable {goal start : Configuration}

theorem Visits.search_eq {σ : Search} {cs : List Configuration} {answer : Bool}
    (h : Visits n word goal σ cs answer) : n.search word goal σ.seen σ.stack = .ok answer := by
  induction h with
  | exhausted => rw [search]
  | found h => rw [search, if_pos h]
  | @turn seen c stack moves cs answer h hmoves rest ih =>
    rw [search, if_neg (by simp [h])]
    split
    · next e he => rw [hmoves] at he; cases he
    · next moves' hmoves' =>
      obtain rfl := Except.ok.inj (hmoves.symm.trans hmoves')
      exact ih

theorem exists_visits (hword : ∀ x ∈ word, x.hashable = true) (goal : Configuration)
    (seen : OrderedSet Configuration) (stack : List Configuration) :
    ∃ cs answer, Visits n word goal ⟨seen, stack⟩ cs answer := by
  fun_induction n.search word goal seen stack with
  | case1 seen => exact ⟨[], false, .exhausted⟩
  | case2 seen c stack h => exact ⟨[c], true, .found h⟩
  | case3 seen c stack h e he =>
    obtain ⟨moves, hmoves⟩ := movesFrom_ok (n := n) hword c
    rw [hmoves] at he
    cases he
  | case4 seen c stack h moves hmoves next ih =>
    obtain ⟨cs, answer, hrest⟩ := ih
    exact ⟨c :: cs, answer, .turn (by simpa using h) hmoves hrest⟩

theorem search_eq_ok_iff (hword : ∀ x ∈ word, x.hashable = true) {seen : OrderedSet Configuration}
    {stack : List Configuration} {answer : Bool} :
    n.search word goal seen stack = .ok answer ↔
      ∃ cs, Visits n word goal ⟨seen, stack⟩ cs answer := by
  constructor
  · intro h
    obtain ⟨cs, b, hv⟩ := exists_visits (n := n) hword goal seen stack
    obtain rfl := Except.ok.inj (hv.search_eq.symm.trans h)
    exact ⟨cs, hv⟩
  · rintro ⟨cs, hv⟩
    exact hv.search_eq

/-! ## What a turn pushes -/

theorem Search.pushAll_spec (σ : Search) (cs : List Configuration) :
    ∃ new, (σ.pushAll cs).stack = new ++ σ.stack ∧
      (σ.pushAll cs).seen.items = σ.seen.items ++ new.reverse ∧
      (∀ c ∈ new, c ∈ cs) ∧ ∀ c ∈ cs, c ∈ (σ.pushAll cs).seen := by
  induction cs generalizing σ with
  | nil => exact ⟨[], rfl, by simp [pushAll], by simp, by simp⟩
  | cons c cs ih =>
    have hcons : σ.pushAll (c :: cs) = (σ.push c).pushAll cs := rfl
    obtain ⟨new, hstack, hseen, hnew, hall⟩ := ih (σ.push c)
    rw [hcons]
    have hkept (d : Configuration) (hd : d ∈ (σ.push c).seen) : d ∈ ((σ.push c).pushAll cs).seen := by
      obtain ⟨e, he, hed⟩ := OrderedSet.mem_iff_exists.mp hd
      exact OrderedSet.mem_iff_exists.mpr ⟨e, by rw [hseen]; simp [he], hed⟩
    by_cases hc : c ∈ σ.seen
    · have hpush : σ.push c = σ := if_pos hc
      rw [hpush] at hstack hseen hall hkept ⊢
      refine ⟨new, hstack, hseen, fun d hd => by simp [hnew d hd], ?_⟩
      intro d hd
      rcases List.mem_cons.mp hd with rfl | hd
      · exact hkept _ hc
      · exact hall d hd
    · have hpush : σ.push c = ⟨σ.seen.insert c, c :: σ.stack⟩ := if_neg hc
      rw [hpush] at hstack hseen hall hkept ⊢
      refine ⟨new ++ [c], by simp [hstack], ?_, ?_, ?_⟩
      · rw [hseen, OrderedSet.items_insert_of_not_mem hc]
        simp
      · intro d hd
        rcases List.mem_append.mp hd with hd | hd
        · simp [hnew d hd]
        · simp [List.mem_singleton.mp hd]
      · intro d hd
        rcases List.mem_cons.mp hd with rfl | hd
        · exact hkept _ (OrderedSet.mem_insert.mpr (.inr BEq.rfl))
        · exact hall d hd

theorem Search.mem_seen_pushAll {σ : Search} {d : Configuration} (cs : List Configuration)
    (h : d ∈ σ.seen) : d ∈ (σ.pushAll cs).seen := by
  obtain ⟨new, -, hseen, -, -⟩ := σ.pushAll_spec cs
  obtain ⟨e, he, hed⟩ := OrderedSet.mem_iff_exists.mp h
  exact OrderedSet.mem_iff_exists.mpr ⟨e, by rw [hseen]; simp [he], hed⟩

/-! ## The loop invariant -/

/-- Whatever is on the stack was seen, and it is there once. -/
structure Search.Tidy (σ : Search) : Prop where
  seen_of_stack : ∀ c ∈ σ.stack, c ∈ σ.seen
  distinct : σ.stack.Pairwise fun a b => (a == b) = false

/-- A run leads from the start to the configuration and reads the word up to its position. -/
def Reached (n : Automaton) (word : Word) (origin : Value) (c : Configuration) : Prop :=
  c.position ≤ word.length ∧ Run n.toShape origin (word.take c.position) c.state

/-- The configuration is not the goal, and its moves were all seen. -/
def Search.Done (n : Automaton) (word : Word) (goal : Configuration) (σ : Search)
    (c : Configuration) : Prop :=
  (c == goal) = false ∧ ∀ d, n.Moves word c d → d ∈ σ.seen

/-- The invariant of the search for a goal from a state. -/
structure Search.Inv (n : Automaton) (word : Word) (goal : Configuration) (origin : Value)
    (σ : Search) : Prop extends σ.Tidy where
  origin_seen : (⟨origin, 0⟩ : Configuration) ∈ σ.seen
  reached : ∀ c ∈ σ.seen.items, n.Reached word origin c
  done : ∀ c ∈ σ.seen.items, c ∈ σ.stack ∨ σ.Done n word goal c

variable {origin : Value} {σ : Search} {seen : OrderedSet Configuration} {c d : Configuration}
  {stack moves cs : List Configuration} {answer : Bool}

theorem Search.Tidy.turn (h : (Search.mk seen (c :: stack)).Tidy) (moves : List Configuration) :
    ((Search.mk seen stack).pushAll moves).Tidy ∧
      ∀ d ∈ ((Search.mk seen stack).pushAll moves).stack, d ∈ stack ∨ d ∉ seen := by
  obtain ⟨new, hstack, hseen, -, -⟩ := Search.pushAll_spec ⟨seen, stack⟩ moves
  have hdistinct := ((Search.mk seen stack).pushAll moves).seen.distinct
  rw [hseen, List.pairwise_append, List.pairwise_reverse] at hdistinct
  obtain ⟨-, hnew, hcross⟩ := hdistinct
  have hfresh : ∀ d ∈ new, d ∉ seen := by
    intro d hd hmem
    obtain ⟨e, he, hed⟩ := OrderedSet.mem_iff_exists.mp hmem
    rw [hcross e he d (List.mem_reverse.mpr hd)] at hed
    cases hed
  rw [hstack]
  refine ⟨⟨?_, ?_⟩, ?_⟩
  · intro d hd
    rw [hstack] at hd
    rcases List.mem_append.mp hd with hd | hd
    · exact OrderedSet.mem_of_mem_items (by rw [hseen]; simp [hd])
    · exact Search.mem_seen_pushAll moves (h.seen_of_stack d (by simp [hd]))
  · rw [hstack]
    refine List.pairwise_append.mpr ⟨hnew.imp fun hab => ?_, (List.pairwise_cons.mp h.distinct).2, ?_⟩
    · rwa [BEq.comm]
    · intro a ha b hb
      rw [Bool.eq_false_iff]
      intro hab
      exact hfresh a ha ((OrderedSet.mem_congr hab).mpr (h.seen_of_stack b (by simp [hb])))
  · intro d hd
    rcases List.mem_append.mp hd with hd | hd
    · exact .inr (hfresh d hd)
    · exact .inl hd

theorem Reached.move (h : n.Reached word origin c) (hword : ∀ x ∈ word, x.isEpsilon = false)
    (hmove : n.Moves word c d) : n.Reached word origin d := by
  obtain ⟨hle, hrun⟩ := h
  rcases hmove with ⟨hpos, hskip⟩ | ⟨hpos, x, hx, hread⟩
  · rw [Reached, hpos]
    refine ⟨hle, ?_⟩
    simpa using hrun.append (.of_epsilon hskip)
  · obtain ⟨hlt, rfl⟩ := List.getElem?_eq_some_iff.mp hx
    rw [Reached, hpos, List.take_succ_eq_append_getElem hlt]
    exact ⟨hlt, hrun.append (.of_symbol (hword _ (List.getElem_mem hlt)) hread)⟩

theorem Moves.congr {c' d' : Configuration} (hc : (c == c') = true) (hd : (d == d') = true)
    (h : n.Moves word c d) : n.Moves word c' d' := by
  obtain ⟨hcp, hcs⟩ := Configuration.beq_iff.mp hc
  obtain ⟨hdp, hds⟩ := Configuration.beq_iff.mp hd
  rw [Moves, ← hcp, ← hdp]
  rcases h with ⟨hpos, hskip⟩ | ⟨hpos, x, hx, hread⟩
  · exact .inl ⟨hpos, (Shape.mem_transitions_congr hcs BEq.rfl hds).mp hskip⟩
  · exact .inr ⟨hpos, x, hx, (Shape.mem_transitions_congr hcs BEq.rfl hds).mp hread⟩

theorem Search.Inv.turn (hn : n.Valid) (hword : ∀ x ∈ word, x.isEpsilon = false)
    (h : (Search.mk seen (c :: stack)).Inv n word goal origin) (hgoal : (c == goal) = false)
    (hmoves : n.movesFrom word c = .ok moves) :
    ((Search.mk seen stack).pushAll moves).Inv n word goal origin := by
  obtain ⟨new, hstack, hseen, hnew, hall⟩ := Search.pushAll_spec ⟨seen, stack⟩ moves
  have hkept (d : Configuration) (hd : d ∈ seen) : d ∈ ((Search.mk seen stack).pushAll moves).seen :=
    Search.mem_seen_pushAll moves hd
  -- the configuration taken off was seen, and an equal one among the seen ones was reached
  obtain ⟨c', hc', hcc'⟩ := OrderedSet.mem_iff_exists.mp (h.seen_of_stack c List.mem_cons_self)
  obtain ⟨hpos, hstate⟩ := Configuration.beq_iff.mp hcc'
  have hreached : n.Reached word origin c := by
    obtain ⟨hle, hrun⟩ := h.reached c' hc'
    rw [Reached, ← hpos]
    exact ⟨hle, hrun.congr_right hstate⟩
  have hmem (d : Configuration) := mem_movesFrom hn (d := d) hmoves hreached.1
  refine ⟨(h.toTidy.turn moves).1, hkept _ h.origin_seen, ?_, ?_⟩
  · intro d hd
    rw [hseen] at hd
    rcases List.mem_append.mp hd with hd | hd
    · exact h.reached d hd
    · have hpushed := hnew d (List.mem_reverse.mp hd)
      exact hreached.move hword ((hmem d).mp ⟨d, hpushed, BEq.rfl⟩)
  · intro d hd
    rw [hseen] at hd
    rcases List.mem_append.mp hd with hd | hd
    · rcases h.done d hd with hstacked | ⟨hne, hdone⟩
      · rcases List.mem_cons.mp hstacked with rfl | hstacked
        · refine .inr ⟨hgoal, fun e he => ?_⟩
          obtain ⟨m, hm, hme⟩ := (hmem e).mpr he
          exact (OrderedSet.mem_congr hme).mp (hall m hm)
        · exact .inl (by rw [hstack]; simp [hstacked])
      · exact .inr ⟨hne, fun e he => hkept e (hdone e he)⟩
    · exact .inl (by rw [hstack]; simp [List.mem_reverse.mp hd])

/-! ## What a whole search answers -/

theorem mem_of_run {a b : Value} {v : Word} {p : Nat}
    (hclosed : ∀ c ∈ seen.items, ∀ d, n.Moves word c d → d ∈ seen) (run : Run n.toShape a v b)
    (hv : word.drop p = v) (hp : p ≤ word.length) (ha : (⟨a, p⟩ : Configuration) ∈ seen) :
    (⟨b, word.length⟩ : Configuration) ∈ seen := by
  have hmove (c d : Configuration) (hc : c ∈ seen) (hcd : n.Moves word c d) : d ∈ seen := by
    obtain ⟨e, he, hec⟩ := OrderedSet.mem_iff_exists.mp hc
    exact hclosed e he d (hcd.congr (BEq.symm hec) BEq.rfl)
  -- `p` symbols of the word are read, and the run reads the rest
  induction run generalizing p with
  | @stop a b same =>
    have hend : p = word.length := Nat.le_antisymm hp (List.drop_eq_nil_iff.mp hv)
    have hstop : ((⟨a, p⟩ : Configuration) == ⟨b, word.length⟩) = true :=
      Configuration.beq_iff.mpr ⟨hend, same⟩
    exact (OrderedSet.mem_congr hstop).mp ha
  | @skip a m b v move rest ih => exact ih hv hp (hmove _ ⟨m, p⟩ ha (.inl ⟨rfl, move⟩))
  | @read a x m b v symbol move rest ih =>
    have hx : word[p]? = some x := by rw [← List.head?_drop, hv]; rfl
    have hlt := (List.getElem?_eq_some_iff.mp hx).1
    have hrest : word.drop (p + 1) = v := by rw [← List.drop_drop, hv]; rfl
    exact ih hrest hlt (hmove _ ⟨m, p + 1⟩ ha (.inr ⟨rfl, x, hx, move⟩))

theorem Visits.answer_iff (hn : n.Valid) (hword : ∀ x ∈ word, x.isEpsilon = false) {b : Value}
    (hv : Visits n word ⟨b, word.length⟩ σ cs answer)
    (hinv : σ.Inv n word ⟨b, word.length⟩ origin) :
    answer = true ↔ Run n.toShape origin word b := by
  induction hv with
  | @exhausted seen =>
    refine ⟨by simp, fun run => ?_⟩
    have hdone (c : Configuration) (hc : c ∈ seen.items) := (hinv.done c hc).resolve_left (by simp)
    have hgoal := mem_of_run (fun c hc => (hdone c hc).2) run (p := 0) (by simp) (by omega)
      hinv.origin_seen
    obtain ⟨c, hc, hcb⟩ := OrderedSet.mem_iff_exists.mp hgoal
    rw [(hdone c hc).1] at hcb
    cases hcb
  | @found seen c stack h =>
    refine ⟨fun _ => ?_, fun _ => rfl⟩
    obtain ⟨c', hc', hcc'⟩ := OrderedSet.mem_iff_exists.mp (hinv.seen_of_stack c List.mem_cons_self)
    obtain ⟨hpos, hstate⟩ := Configuration.beq_iff.mp (BEq.trans hcc' h)
    have hrun := (hinv.reached c' hc').2
    rw [hpos, List.take_length] at hrun
    exact hrun.congr_right hstate
  | turn h hmoves rest ih => exact ih (hinv.turn hn hword h hmoves)

theorem Visits.distinct (hv : Visits n word goal σ cs answer) (htidy : σ.Tidy) :
    (cs.Pairwise fun a b => (a == b) = false) ∧ ∀ c ∈ cs, c ∈ σ.stack ∨ c ∉ σ.seen := by
  induction hv with
  | exhausted => exact ⟨.nil, by simp⟩
  | found h => exact ⟨List.pairwise_singleton .., by simp⟩
  | @turn seen c stack moves cs answer h hmoves rest ih =>
    obtain ⟨htidy', hpushed⟩ := htidy.turn moves
    obtain ⟨hcs, hmem⟩ := ih htidy'
    -- what comes off later was on the stack already or is pushed by this turn, and then it is new
    have hlater : ∀ d ∈ cs, d ∈ stack ∨ d ∉ seen := by
      intro d hd
      rcases hmem d hd with hd | hd
      · exact hpushed d hd
      · exact .inr fun hseen => hd (Search.mem_seen_pushAll moves hseen)
    refine ⟨List.pairwise_cons.mpr ⟨?_, hcs⟩, ?_⟩
    · intro d hd
      rcases hlater d hd with hstack | hnew
      · exact (List.pairwise_cons.mp htidy.distinct).1 d hstack
      · rw [Bool.eq_false_iff]
        intro hcd
        exact hnew ((OrderedSet.mem_congr hcd).mp (htidy.seen_of_stack c List.mem_cons_self))
    · intro d hd
      rcases List.mem_cons.mp hd with rfl | hd
      · exact .inl List.mem_cons_self
      · exact (hlater d hd).imp_left (List.mem_cons_of_mem c)

/-- The search that begins with one configuration. -/
def Search.single (c : Configuration) : Search := ⟨.ofList [c], [c]⟩

theorem Search.inv_single (goal : Configuration) :
    (Search.single ⟨origin, 0⟩).Inv n word goal origin where
  seen_of_stack c hc := OrderedSet.mem_ofList.mpr ⟨c, hc, BEq.rfl⟩
  distinct := List.pairwise_singleton ..
  origin_seen := OrderedSet.mem_singleton.mpr BEq.rfl
  reached c hc := by
    obtain rfl := OrderedSet.eq_of_mem_items_singleton hc
    exact ⟨Nat.zero_le _, .refl⟩
  done c hc := .inl (OrderedSet.mem_of_mem_items_ofList hc)

/-! ## Paths -/

theorem path_of_states {a b : Value} (ha : n.IsState a) (hb : n.IsState b) (word : Value) :
    n.path a word b = word.items >>= fun w => n.leadsTo a (Word.visible w) b := by
  have hstates : n.statesOf (.list [a, b]) = .ok (.ofList [a, b]) :=
    statesOf_eq_ok (a := .list [a, b]) (by simp [Value.named, ha, hb])
  rw [path, hstates]
  rfl

theorem path_eq_leadsTo {a b word : Value} {w : Word} (ha : n.IsState a) (hb : n.IsState b)
    (hitems : word.items = .ok w) : n.path a word b = n.leadsTo a w.visible b := by
  rw [path_of_states ha hb, hitems]
  rfl

theorem exists_visits_path (hn : n.Valid) {a b word : Value} {w : Word} (ha : n.IsState a)
    (hb : n.IsState b) (hitems : word.items = .ok w) (hw : ∀ x ∈ w, x.hashable = true) :
    ∃ answer cs, n.path a word b = .ok answer ∧
      (answer = true ↔ Run n.toShape a w.visible b) ∧
      n.Visits w.visible ⟨b, w.visible.length⟩ (.single ⟨a, 0⟩) cs answer ∧
      cs.Pairwise fun c d => (c == d) = false := by
  have hhash : ∀ x ∈ w.visible, x.hashable = true := fun x hx => hw x (Word.mem_of_mem_visible hx)
  have hvisible : ∀ x ∈ w.visible, x.isEpsilon = false := fun x => Word.not_epsilon_of_mem_visible
  obtain ⟨cs, answer, hv⟩ := exists_visits (n := n) hhash ⟨b, w.visible.length⟩
    (.ofList [⟨a, 0⟩]) [⟨a, 0⟩]
  have hinv : (Search.single ⟨a, 0⟩).Inv n w.visible ⟨b, w.visible.length⟩ a := Search.inv_single _
  refine ⟨answer, cs, ?_, hv.answer_iff hn hvisible hinv, hv, (hv.distinct hinv.toTidy).1⟩
  rw [path_eq_leadsTo ha hb hitems, leadsTo]
  exact (search_eq_ok_iff hhash).mpr ⟨cs, hv⟩

theorem path_eq_ok_true_iff (hn : n.Valid) {a b word : Value} {w : Word} (ha : n.IsState a)
    (hb : n.IsState b) (hitems : word.items = .ok w) (hw : ∀ x ∈ w, x.hashable = true) :
    n.path a word b = .ok true ↔ Run n.toShape a w.visible b := by
  obtain ⟨answer, cs, hpath, hrun, -, -⟩ := exists_visits_path hn ha hb hitems hw
  rw [hpath, Except.ok.injEq, hrun]

/-- The search finds a path from the start to a final state. -/
def FindsFinal (n : Automaton) (word : Value) : Prop :=
  ∃ f ∈ n.finals.items, n.path n.initial word f = .ok true

theorem findsFinal_iff (hn : n.Valid) {word : Value} {w : Word} (hitems : word.items = .ok w)
    (hw : ∀ x ∈ w, x.hashable = true) :
    n.FindsFinal word ↔ n.Accepts w := by
  constructor
  · rintro ⟨f, hf, hpath⟩
    rw [path_eq_ok_true_iff hn hn.isState_initial (isState_of_final hn hf) hitems hw] at hpath
    exact ⟨f, OrderedSet.mem_of_mem_items hf, hpath⟩
  · rintro ⟨f, hf, run⟩
    obtain ⟨g, hg, hgf⟩ := OrderedSet.mem_iff_exists.mp hf
    refine ⟨g, hg, ?_⟩
    rw [path_eq_ok_true_iff hn hn.isState_initial (isState_of_final hn hg) hitems hw]
    exact run.congr_right (BEq.symm hgf)

/-- Between two states of an automaton the search for a path ends; it finds one exactly when some
trail of transitions carries the symbols of the word, and it takes no configuration off its stack
twice. -/
theorem path_finds_trails (made : n.Made) {a b word : Value} {w : Word} (ha : n.IsState a)
    (hb : n.IsState b) (hitems : word.items = .ok w) (hw : ∀ x ∈ w, x.hashable = true) :
    ∃ answer cs, n.path a word b = .ok answer ∧
      (answer = true ↔
        ∃ ts, Trail n.toShape a ts b ∧ ((Trail.labels ts).visible == w.visible) = true) ∧
      n.Visits w.visible ⟨b, w.visible.length⟩ (.single ⟨a, 0⟩) cs answer ∧
      cs.Pairwise fun c d => (c == d) = false := by
  obtain ⟨answer, cs, hpath, hrun, hvisits, hdistinct⟩ :=
    exists_visits_path made.valid ha hb hitems hw
  rw [run_iff_exists_trail] at hrun
  exact ⟨answer, cs, hpath, hrun, hvisits, hdistinct⟩

/-- A cycle of empty moves, a loop that reads a text, and a move onto a set that reads a number. -/
def looping : Shape where
  states := .ofList [.int 0, .int 1, .frozenSet [.int 2]]
  alphabet := .ofList [.text "a", .bool true]
  initial := .int 0
  transitions := .ofList [⟨.int 0, .epsilon, .int 1⟩, ⟨.int 1, .epsilon, .int 0⟩,
    ⟨.int 1, .text "a", .bool true⟩, ⟨.int 1, .bool true, .frozenSet [.int 2]⟩]
  finals := .ofList [.frozenSet [.int 2]]

theorem looping_made : (ofShape looping).Made :=
  made_ofShape (.tuple [.int 0, .int 1, .frozenSet [.int 2]]) (.tuple [.text "a", .bool true])
    (.int 0)
    (.tuple [.tuple [.int 0, .epsilon, .int 1], .tuple [.int 1, .epsilon, .int 0],
      .tuple [.int 1, .text "a", .bool true], .tuple [.int 1, .bool true, .frozenSet [.int 2]]])
    (.tuple [.frozenSet [.int 2]]) rfl (List.isEmpty_iff.mp (by decide +kernel)) rfl

/-- Through the cycle and the loop, with an empty move in the word, and equal values for both states
and for the number read. -/
theorem path_finds_trails_looping :
    (ofShape looping).Made ∧ (ofShape looping).IsState (.bool false) ∧
      (ofShape looping).IsState (.frozenSet [.double (.finite 2)]) ∧
      (∀ x ∈ [Value.text "a", .epsilon, .text "a", .int 1], x.hashable = true) ∧
      ∃ answer cs, (ofShape looping).path (.bool false)
          (.list [.text "a", .epsilon, .text "a", .int 1]) (.frozenSet [.double (.finite 2)]) =
            .ok answer ∧
        (answer = true ↔ ∃ ts, Trail looping (.bool false) ts (.frozenSet [.double (.finite 2)]) ∧
          ((Trail.labels ts).visible == [Value.text "a", .text "a", .int 1]) = true) ∧
        (ofShape looping).Visits [.text "a", .text "a", .int 1]
          ⟨.frozenSet [.double (.finite 2)], 3⟩ (.single ⟨.bool false, 0⟩) cs answer ∧
        cs.Pairwise fun c d => (c == d) = false := by
  have hstart : (ofShape looping).IsState (.bool false) := ⟨rfl, by decide +kernel⟩
  have hgoal : (ofShape looping).IsState (.frozenSet [.double (.finite 2)]) :=
    ⟨by decide +kernel, by decide +kernel⟩
  have hword : ∀ x ∈ [Value.text "a", .epsilon, .text "a", .int 1], x.hashable = true := by
    simp [Value.hashable]
  have hitems : (Value.list [.text "a", .epsilon, .text "a", .int 1]).items =
      .ok [.text "a", .epsilon, .text "a", .int 1] := rfl
  exact ⟨looping_made, hstart, hgoal, hword,
    path_finds_trails looping_made hstart hgoal hitems hword⟩

end EpsilonAutomata.Automaton
