import EpsilonAutomata.Proofs.Automaton.Join
import EpsilonAutomata.Proofs.Automaton.Search
import EpsilonAutomata.Proofs.Build.Separate

/-!
# Union

A run of a union leaves the new start, which nothing leads back to, by the link to one of the two
operands. From there it stays on that side (`run_side`), since the operands share no state. So the
union accepts what either of them accepts (`union_accepts_iff`).

The main statement says so of the operands as they were given. The new start is chosen after the second
operand has been moved, so it is free in the first operand and in the copy of the second. The second
operand as it was given may have it as a state, if it uses numbers above the counter.
-/

namespace EpsilonAutomata

open Build (link hashable_link)

namespace Shape

variable {s t : Shape} {start a b : Value} {w : Word}

/-- The union of two shapes that share no state, with a new start. -/
def union (s t : Shape) (start : Value) : Shape :=
  s.join t ((s.states ∪ t.states).insert start) start [link start s.initial, link start t.initial]
    (s.finals ∪ t.finals)

theorem mem_states_union : a ∈ (s.union t start).states ↔
    (a ∈ s.states ∨ a ∈ t.states) ∨ (start == a) = true := by
  show a ∈ (s.states ∪ t.states).insert start ↔ _
  rw [OrderedSet.mem_insert, OrderedSet.mem_union]

theorem mem_transitions_union {u : Transition} :
    u ∈ (s.union t start).transitions ↔ u ∈ s.transitions ∨ u ∈ t.transitions ∨
      (link start s.initial == u) = true ∨ (link start t.initial == u) = true := by
  rw [union, mem_transitions_join]
  simp

theorem sound_union (hs : s.Sound) (ht : t.Sound) : (s.union t start).Sound := by
  have hstart : start ∈ (s.union t start).states := mem_states_union.mpr (.inr BEq.rfl)
  apply sound_join hs ht (fun a ha => mem_states_union.mpr (.inl ha)) hstart
  · intro l hl
    rcases List.mem_pair.mp hl with rfl | rfl
    · exact ⟨rfl, hstart, mem_states_union.mpr (.inl (.inl hs.start_mem))⟩
    · exact ⟨rfl, hstart, mem_states_union.mpr (.inl (.inr ht.start_mem))⟩
  · intro f hf
    refine mem_states_union.mpr (.inl ?_)
    exact (OrderedSet.mem_union.mp hf).imp (hs.final_mem f) (ht.final_mem f)

theorem hashable_startLinks (hs : s.Hashable) (ht : t.Hashable) (hstart : start.hashable = true) :
    ∀ l ∈ [link start s.initial, link start t.initial], l.hashable = true := by
  simp [hashable_link hstart hs.start, hashable_link hstart ht.start]

theorem hashable_union (hs : s.Hashable) (ht : t.Hashable) (hstart : start.hashable = true) :
    (s.union t start).Hashable :=
  hashable_join hs ht
    (ValueSet.hashable_insert (ValueSet.hashable_union hs.states ht.states) hstart) hstart
    (hashable_startLinks hs ht hstart) (ValueSet.hashable_union hs.finals ht.finals)

/-! ## Runs on one side -/

/-- A run that has entered one side stays there. Either operand may be the first shape here. -/
theorem run_side {j : Shape} (hs : s.Sound) (ht : t.Sound) (hapart : ∀ a, a ∈ s.states → a ∉ t.states)
    (hfresh : start ∉ s.states)
    (hmoves : ∀ u : Transition, u ∈ j.transitions →
      u ∈ s.transitions ∨ u ∈ t.transitions ∨ (start == u.source) = true)
    (run : Run j a w b) (ha : a ∈ s.states) : Run s a w b := by
  refine run.restrict hs ?_ ha
  intro u hu hsource
  rcases hmoves u hu with hu | hu | hstart
  · exact hu
  · exact absurd (ht.move_mem u hu).1 (hapart _ hsource)
  · exact absurd ((OrderedSet.mem_congr hstart).mpr hsource) hfresh

theorem source_of_mem_union {u : Transition} (hu : u ∈ (s.union t start).transitions) :
    u ∈ s.transitions ∨ u ∈ t.transitions ∨ (start == u.source) = true := by
  rcases mem_transitions_union.mp hu with hu | hu | hu | hu
  · exact .inl hu
  · exact .inr (.inl hu)
  · exact .inr (.inr (Transition.beq_iff.mp hu).1)
  · exact .inr (.inr (Transition.beq_iff.mp hu).1)

theorem run_from_start (hs : s.Sound) (ht : t.Sound) (hfresh : start ∉ s.states ∪ t.states)
    (hb : b ∈ s.states ∪ t.states) (run : Run (s.union t start) start w b) :
    Run (s.union t start) s.initial w b ∨ Run (s.union t start) t.initial w b := by
  have hleave {x m : Value} (move : (⟨start, x, m⟩ : Transition) ∈ (s.union t start).transitions) :
      x.isEpsilon = true ∧ ((s.initial == m) = true ∨ (t.initial == m) = true) := by
    rcases mem_transitions_union.mp move with h | h | h | h
    · exact absurd (OrderedSet.mem_union.mpr (.inl (hs.move_mem _ h).1)) hfresh
    · exact absurd (OrderedSet.mem_union.mpr (.inr (ht.move_mem _ h).1)) hfresh
    · obtain ⟨-, hlabel, htarget⟩ := Transition.beq_iff.mp h
      exact ⟨by rw [← Value.isEpsilon_congr hlabel]; rfl, .inl htarget⟩
    · obtain ⟨-, hlabel, htarget⟩ := Transition.beq_iff.mp h
      exact ⟨by rw [← Value.isEpsilon_congr hlabel]; rfl, .inr htarget⟩
  cases run with
  | stop same => exact absurd ((OrderedSet.mem_congr same).mpr hb) hfresh
  | skip move rest =>
    rcases (hleave move).2 with h | h
    · exact .inl (rest.congr_left h)
    · exact .inr (rest.congr_left h)
  | read symbol move rest =>
    rw [(hleave move).1] at symbol
    cases symbol

theorem target_ne_start (hs : s.Sound) (ht : t.Sound) (hfresh : start ∉ s.states ∪ t.states)
    {u : Transition} (hu : u ∈ (s.union t start).transitions) : (u.target == start) = false := by
  have hmem : u.target ∈ s.states ∪ t.states := by
    rw [OrderedSet.mem_union]
    rcases mem_transitions_union.mp hu with hu | hu | hu | hu
    · exact .inl (hs.move_mem u hu).2.1
    · exact .inr (ht.move_mem u hu).2.1
    · exact .inl ((OrderedSet.mem_congr (Transition.beq_iff.mp hu).2.2).mp hs.start_mem)
    · exact .inr ((OrderedSet.mem_congr (Transition.beq_iff.mp hu).2.2).mp ht.start_mem)
  rw [Bool.eq_false_iff]
  intro heq
  exact hfresh ((OrderedSet.mem_congr heq).mp hmem)

theorem union_accepts_iff (hs : s.Sound) (ht : t.Sound)
    (hapart : ∀ a, a ∈ s.states → a ∉ t.states) (hfresh : start ∉ s.states ∪ t.states) (w : Word) :
    (s.union t start).Accepts w ↔ s.Accepts w ∨ t.Accepts w := by
  rw [OrderedSet.mem_union, not_or] at hfresh
  -- behind the link out of the new start a run stays on its side
  have hleft {f : Value} (run : Run (s.union t start) s.initial w.visible f) :
      Run s s.initial w.visible f :=
    run_side hs ht hapart hfresh.1 (fun _ => source_of_mem_union) run hs.start_mem
  have hright {f : Value} (run : Run (s.union t start) t.initial w.visible f) :
      Run t t.initial w.visible f :=
    run_side ht hs (fun a hat has => hapart a has hat) hfresh.2
      (fun u hu => or_left_comm.mp (source_of_mem_union hu)) run ht.start_mem
  constructor
  · rintro ⟨f, hf, run⟩
    have hstates : f ∈ s.states ∪ t.states := OrderedSet.mem_union.mpr
      ((OrderedSet.mem_union.mp hf).imp (hs.final_mem f) (ht.final_mem f))
    rcases run_from_start hs ht (by simp [OrderedSet.mem_union, hfresh]) hstates run with run | run
    · have hend := (hleft run).mem_states hs hs.start_mem
      rcases OrderedSet.mem_union.mp hf with hf | hf
      · exact .inl ⟨f, hf, hleft run⟩
      · exact absurd (ht.final_mem f hf) (hapart f hend)
    · have hend := (hright run).mem_states ht ht.start_mem
      rcases OrderedSet.mem_union.mp hf with hf | hf
      · exact absurd hend (hapart f (hs.final_mem f hf))
      · exact .inr ⟨f, hf, hright run⟩
  · have henter {m : Value} (h : link start m ∈ (s.union t start).transitions) {f : Value}
        (run : Run (s.union t start) m w.visible f) : Run (s.union t start) start w.visible f :=
      .skip h run
    rintro (⟨f, hf, run⟩ | ⟨f, hf, run⟩)
    · refine ⟨f, OrderedSet.mem_union.mpr (.inl hf), henter ?_ (run.mono fun m hm => ?_)⟩
      · exact mem_transitions_union.mpr (.inr (.inr (.inl BEq.rfl)))
      · exact mem_transitions_union.mpr (.inl hm)
    · refine ⟨f, OrderedSet.mem_union.mpr (.inr hf), henter ?_ (run.mono fun m hm => ?_)⟩
      · exact mem_transitions_union.mpr (.inr (.inr (.inr BEq.rfl)))
      · exact mem_transitions_union.mpr (.inr (.inl hm))

end Shape

namespace Build

open Automaton (make_eq_ok_iff ofShape findsFinal_iff)

variable {m n j : Automaton} {ws after : Workshop} {c : Int}

theorem union_of_separate {r : Automaton} {mid drawn : Workshop} {start : Value} (hm : m.Valid)
    (hr : r.Valid) (hseparate : (separate m n).runWith ws = (.ok r, mid))
    (hstart : (freshState (m.states ∪ r.states)).runWith mid = (.ok start, drawn))
    (hhash : start.hashable = true)
    (hreport : (report fun _ => do
      return "union -> " ++ (← (m.toShape.union r.toShape start).summary)).runWith drawn =
        (.ok (), after)) :
    (union m n).runWith ws = (.ok (ofShape (m.toShape.union r.toShape start)), after) := by
  have hjoined := addLinks_eq_ok (m.transitions ∪ r.transitions)
    (Shape.hashable_startLinks hm.hashable hr.hashable hhash)
  have hsound : (m.toShape.union r.toShape start).Sound := Shape.sound_union hm.sound hr.sound
  have hmake := make_eq_ok_iff.mpr ⟨hsound, rfl⟩
  rw [union, runWith_bind_ok hseparate]
  refine (runWith_bind_ok hstart).trans ?_
  refine (runWith_bind_ok (quiet_eq_ok_iff.mpr ⟨hjoined, rfl⟩)).trans ?_
  refine (runWith_bind_ok (quiet_eq_ok_iff.mpr ⟨hmake, rfl⟩)).trans ?_
  exact runWith_bind_ok hreport

theorem runWith_union (hm : m.Valid) (hn : n.Valid) (hapart : m.states.disjoint n.states = true)
    (hfinals : ∃ xs, ValueSet.sorted (m.finals ∪ n.finals) = .ok xs)
    (hc : ws.counter.value? = some c) (hfree : Value.int (c + 1) ∉ m.states ∪ n.states) :
    ∃ after, (union m n).runWith ws =
        (.ok (.ofShape (m.toShape.union n.toShape (.int (c + 1)))), after) ∧
      after.counter.value? = some (c + 1) := by
  obtain ⟨text, htext⟩ := Shape.summary_eq_ok
    (s := m.toShape.union n.toShape (.int (c + 1))) hfinals
  obtain ⟨after, hreport, hcounter⟩ := runWith_report
    (fun _ => do return "union -> " ++ (← (m.toShape.union n.toShape (.int (c + 1))).summary))
    (by rw [htext]; rfl) ⟨⟨.int (c + 1)⟩, ws.log⟩
  refine ⟨after, ?_, by rw [hcounter]; rfl⟩
  exact union_of_separate hm hn (separate_of_disjoint hapart) (runWith_freshState hc hfree)
    rfl hreport

theorem union_eq_ok (h : (union m n).runWith ws = (.ok j, after)) :
    ∃ r mid start drawn, (separate m n).runWith ws = (.ok r, mid) ∧
      (freshState (m.states ∪ r.states)).runWith mid = (.ok start, drawn) ∧
      start.hashable = true ∧ j = ofShape (m.toShape.union r.toShape start) := by
  simp only [union, bind_eq_ok_iff, quiet_eq_ok_iff] at h
  obtain ⟨r, mid, hseparate, start, drawn, hstart, transitions, _, ⟨hlinks, rfl⟩, joined, _,
    ⟨hmake, rfl⟩, _, _, _, h⟩ := h
  obtain ⟨rfl, -⟩ := pure_eq_ok_iff.mp h
  obtain ⟨hhash, rfl⟩ := addLinks_eq_ok_iff.mp hlinks
  have hlink := hhash _ List.mem_cons_self
  simp only [Transition.hashable, link, Bool.and_eq_true] at hlink
  exact ⟨r, mid, start, _, hseparate, hstart, hlink.1.1, (make_eq_ok_iff.mp hmake).2⟩

theorem fresh_not_mem_right {r : Automaton} {mid drawn : Workshop} {start : Value}
    (hc : ws.counter.value? = some c) (hseparate : (separate m n).runWith ws = (.ok r, mid))
    (hstart : (freshState (m.states ∪ r.states)).runWith mid = (.ok start, drawn))
    (h : m.states.disjoint n.states = true ∨ ∀ k, c < k → Value.int k ∉ n.states) :
    start ∉ n.states := by
  rcases h with hapart | habove
  · rw [separate_of_disjoint hapart] at hseparate
    obtain ⟨hr, -⟩ := Prod.mk.inj hseparate
    obtain rfl := Except.ok.inj hr
    exact fun hmem => freshState_not_taken hstart (OrderedSet.mem_union.mpr (.inr hmem))
  · obtain ⟨d, hd, hmid⟩ := separate_counter hc hseparate
    obtain ⟨k, hk, rfl, -⟩ := freshState_eq_ok hmid hstart
    exact habove k (by omega)

/-- Whatever the two automata and the number at which the counter stands are, if the automata can be
united then there is a path through the result for a word exactly when there is one through the first
or one through the second. The new start is no state of the first, nor of the second if they share no
state or the second uses no number above the counter, and no transition leads to it. -/
theorem union_findsFinal_iff (hm : m.Valid) (hn : n.Valid) (hc : ws.counter.value? = some c)
    (h : (union m n).runWith ws = (.ok j, after)) :
    (∀ (word : Value) (w : Word), word.items = .ok w →
      (∀ x ∈ w, x.hashable = true ∧ x.isEpsilon = false) →
        (j.FindsFinal word ↔ m.FindsFinal word ∨ n.FindsFinal word)) ∧
      j.initial ∉ m.states ∧
      ((m.states.disjoint n.states = true ∨ ∀ k, c < k → Value.int k ∉ n.states) →
        j.initial ∉ n.states) ∧
      ∀ u, u ∈ j.transitions → (u.target == j.initial) = false := by
  obtain ⟨r, mid, start, drawn, hseparate, hstart, hhash, rfl⟩ := union_eq_ok h
  have hr := separate_spec hn hseparate
  have hfresh : start ∉ m.states ∪ r.states := freshState_not_taken hstart
  have hvalid : (ofShape (m.toShape.union r.toShape start)).Valid :=
    Automaton.valid_ofShape (Shape.sound_union hm.sound hr.valid.sound)
      (Shape.hashable_union hm.hashable hr.valid.hashable hhash)
  refine ⟨fun word w hitems hw => ?_, ?_, fresh_not_mem_right hc hseparate hstart, fun u => ?_⟩
  · have hword : ∀ x ∈ w, x.hashable = true := fun x hx => (hw x hx).1
    rw [findsFinal_iff hvalid hitems hword, findsFinal_iff hm hitems hword,
      findsFinal_iff hn hitems hword, ← hr.accepts_iff w]
    exact Shape.union_accepts_iff hm.sound hr.valid.sound hr.apart hfresh w
  · exact fun hmem => hfresh (OrderedSet.mem_union.mpr (.inl hmem))
  · exact Shape.target_ne_start hm.sound hr.valid.sound hfresh

/-- Two states and a symbol between them. -/
def near : Shape where
  states := .ofList [.int 1, .int 2]
  alphabet := .ofList [.text "a"]
  initial := .int 1
  transitions := .ofList [⟨.int 1, .text "a", .int 2⟩]
  finals := .ofList [.int 2]

/-- The same states, followed by two with higher numbers. -/
def far : Shape where
  states := .ofList [.int 1, .int 2, .int 7, .int 8]
  alphabet := .ofList [.text "a", .text "b"]
  initial := .int 1
  transitions := .ofList [⟨.int 1, .text "a", .int 2⟩, ⟨.int 2, .epsilon, .int 7⟩,
    ⟨.int 7, .text "b", .int 8⟩]
  finals := .ofList [.int 8]

theorem near_made : (ofShape near).Made :=
  Automaton.made_ofShape (.list [.int 1, .int 2]) (.list [.text "a"]) (.int 1)
    (.list [.tuple [.int 1, .text "a", .int 2]]) (.list [.int 2]) rfl
    (List.isEmpty_iff.mp (by decide +kernel)) rfl

theorem far_made : (ofShape far).Made :=
  Automaton.made_ofShape (.list [.int 1, .int 2, .int 7, .int 8]) (.list [.text "a", .text "b"])
    (.int 1)
    (.list [.tuple [.int 1, .text "a", .int 2], .tuple [.int 2, .epsilon, .int 7],
      .tuple [.int 7, .text "b", .int 8]])
    (.list [.int 8]) rfl (List.isEmpty_iff.mp (by decide +kernel)) rfl

/-- Two automata that share states, by a counter that has issued the numbers of one of them. -/
theorem union_findsFinal_iff_far :
    let m := ofShape near
    let n := ofShape far
    (m.Valid ∧ n.Valid ∧ Counter.value? ⟨.int 2⟩ = some 2) ∧
      ∃ j after, (union m n).runWith ⟨⟨.int 2⟩, .off⟩ = (.ok j, after) ∧
        (∀ (word : Value) (w : Word), word.items = .ok w →
          (∀ x ∈ w, x.hashable = true ∧ x.isEpsilon = false) →
            (j.FindsFinal word ↔ m.FindsFinal word ∨ n.FindsFinal word)) ∧
          j.initial ∉ m.states ∧
          ((m.states.disjoint n.states = true ∨ ∀ k, 2 < k → Value.int k ∉ n.states) →
            j.initial ∉ n.states) ∧
          ∀ u, u ∈ j.transitions → (u.target == j.initial) = false := by
  intro m n
  have hm : m.Valid := near_made.valid
  have hn : n.Valid := far_made.valid
  have hsome : ((union m n).runWith ⟨⟨.int 2⟩, .off⟩).1.toOption.any (fun _ => true) = true := by
    decide +kernel
  obtain ⟨j, after, h, -⟩ := exists_of_outcome hsome
  exact ⟨⟨hm, hn, rfl⟩, j, after, h, union_findsFinal_iff hm hn rfl h⟩

/-- The second automaton is moved to the numbers after the counter, past which the new start is one of
the numbers it had. -/
theorem union_start_reused :
    (ofShape near).Made ∧ (ofShape far).Made ∧
      ∃ j after, (union (ofShape near) (ofShape far)).runWith ⟨⟨.int 2⟩, .off⟩ = (.ok j, after) ∧
        j.initial ∈ (ofShape far).states := by
  have hreused : ((union (ofShape near) (ofShape far)).runWith ⟨⟨.int 2⟩, .off⟩).1.toOption.any
      (fun j => (ofShape far).states.contains j.initial) = true := by
    decide +kernel
  exact ⟨near_made, far_made, exists_of_outcome hreused⟩

end Build

end EpsilonAutomata
