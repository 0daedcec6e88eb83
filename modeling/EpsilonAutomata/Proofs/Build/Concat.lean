import EpsilonAutomata.Proofs.Automaton.Join
import EpsilonAutomata.Proofs.Automaton.Search
import EpsilonAutomata.Proofs.Build.Separate

/-!
# Concatenation

A run of a concatenation that ends in the second automaton crosses from the first exactly once, over
a link from a final state of the first to the start of the second: no transition leads back, since
the two have been kept apart. So it can be cut at that link (`exists_cut`), and the concatenation
accepts the words of the first followed by those of the second (`concat_accepts_iff`). The main
statement says so of the operands as they were given, which may share states, have transitions into
their starts and out of their final states, or be one automaton twice.
-/

namespace EpsilonAutomata

open Build (link hashable_link)

namespace Shape

variable {s t : Shape} {a b : Value} {w : Word}

/-- The concatenation of two shapes that share no state. -/
def concat (s t : Shape) : Shape :=
  s.join t (s.states ∪ t.states) s.initial (s.finals.items.map fun f => link f t.initial) t.finals

theorem mem_transitions_concat {u : Transition} :
    u ∈ (s.concat t).transitions ↔ u ∈ s.transitions ∨ u ∈ t.transitions ∨
      u.source ∈ s.finals ∧ u.label.isEpsilon = true ∧ (t.initial == u.target) = true := by
  rw [concat, mem_transitions_join]
  refine or_congr Iff.rfl (or_congr Iff.rfl ?_)
  constructor
  · rintro ⟨l, hl, hlu⟩
    obtain ⟨f, hf, rfl⟩ := List.mem_map.mp hl
    obtain ⟨hsource, hlabel, htarget⟩ := Transition.beq_iff.mp hlu
    refine ⟨OrderedSet.mem_iff_exists.mpr ⟨f, hf, hsource⟩, ?_, htarget⟩
    rw [← Value.isEpsilon_congr hlabel]
    rfl
  · rintro ⟨hsource, hlabel, htarget⟩
    obtain ⟨f, hf, hfu⟩ := OrderedSet.mem_iff_exists.mp hsource
    refine ⟨_, List.mem_map.mpr ⟨f, hf, rfl⟩, Transition.beq_iff.mpr ⟨hfu, ?_, htarget⟩⟩
    rw [Value.eq_epsilon_of_isEpsilon hlabel]
    exact BEq.rfl

theorem sound_concat (hs : s.Sound) (ht : t.Sound) : (s.concat t).Sound := by
  refine sound_join hs ht (fun a => OrderedSet.mem_union.mpr)
    (OrderedSet.mem_union.mpr (.inl hs.start_mem)) ?_ fun f hf =>
      OrderedSet.mem_union.mpr (.inr (ht.final_mem f hf))
  intro l hl
  obtain ⟨f, hf, rfl⟩ := List.mem_map.mp hl
  have hfinal := hs.final_mem f (OrderedSet.mem_of_mem_items hf)
  exact ⟨rfl, OrderedSet.mem_union.mpr (.inl hfinal), OrderedSet.mem_union.mpr (.inr ht.start_mem)⟩

theorem hashable_finalLinks (hs : s.Hashable) (ht : t.Hashable) :
    ∀ l ∈ s.finals.items.map fun f => link f t.initial, l.hashable = true := by
  intro l hl
  obtain ⟨f, hf, rfl⟩ := List.mem_map.mp hl
  exact hashable_link (hs.finals f hf) ht.start

theorem hashable_concat (hs : s.Hashable) (ht : t.Hashable) : (s.concat t).Hashable :=
  hashable_join hs ht (ValueSet.hashable_union hs.states ht.states) hs.start
    (hashable_finalLinks hs ht) ht.finals

/-! ## Cutting a run -/

theorem run_right_of_concat (hs : s.Sound) (ht : t.Sound) (hapart : ∀ a, a ∈ s.states → a ∉ t.states)
    (run : Run (s.concat t) a w b) (ha : a ∈ t.states) : Run t a w b := by
  refine run.restrict ht ?_ ha
  intro u hu hsource
  rcases mem_transitions_concat.mp hu with hu | hu | ⟨hfinal, -⟩
  · exact absurd hsource (hapart _ (hs.move_mem u hu).1)
  · exact hu
  · exact absurd hsource (hapart _ (hs.final_mem _ hfinal))

theorem exists_cut (hs : s.Sound) (ht : t.Sound) (hapart : ∀ a, a ∈ s.states → a ∉ t.states)
    (run : Run (s.concat t) a w b) (ha : a ∈ s.states) (hb : b ∈ t.states) :
    ∃ u v f, w = u ++ v ∧ f ∈ s.finals ∧ Run s a u f ∧ Run t t.initial v b := by
  -- up to the link the run stays in the first shape; at the link the rest is a run of the second
  induction run with
  | @stop a b same => exact absurd hb (hapart b ((OrderedSet.mem_congr same).mp ha))
  | @skip a m b w move rest ih =>
    rcases mem_transitions_concat.mp move with hmove | hmove | ⟨hfinal, -, hstart⟩
    · obtain ⟨u, v, f, rfl, hf, hleft, hright⟩ := ih (hs.move_mem _ hmove).2.1 hb
      exact ⟨u, v, f, rfl, hf, .skip hmove hleft, hright⟩
    · exact absurd (ht.move_mem _ hmove).1 (hapart a ha)
    · have hm : m ∈ t.states := (OrderedSet.mem_congr hstart).mp ht.start_mem
      have hright := run_right_of_concat hs ht hapart rest hm
      exact ⟨[], w, a, rfl, hfinal, .refl, hright.congr_left hstart⟩
  | @read a x m b w symbol move rest ih =>
    rcases mem_transitions_concat.mp move with hmove | hmove | ⟨-, hepsilon, -⟩
    · obtain ⟨u, v, f, rfl, hf, hleft, hright⟩ := ih (hs.move_mem _ hmove).2.1 hb
      exact ⟨x :: u, v, f, rfl, hf, .read symbol hmove hleft, hright⟩
    · exact absurd (ht.move_mem _ hmove).1 (hapart a ha)
    · rw [symbol] at hepsilon
      cases hepsilon

theorem concat_accepts_iff (hs : s.Sound) (ht : t.Sound)
    (hapart : ∀ a, a ∈ s.states → a ∉ t.states) (w : Word) :
    (s.concat t).Accepts w ↔ ∃ u v, w.visible = u ++ v ∧ s.Accepts u ∧ t.Accepts v := by
  constructor
  · rintro ⟨g, hg, run⟩
    obtain ⟨u, v, f, hw, hf, hleft, hright⟩ :=
      exists_cut hs ht hapart run hs.start_mem (ht.final_mem g hg)
    refine ⟨u, v, hw, ⟨f, hf, ?_⟩, g, hg, ?_⟩
    · rw [Word.visible_eq_self hleft.not_epsilon]
      exact hleft
    · rw [Word.visible_eq_self hright.not_epsilon]
      exact hright
  · rintro ⟨u, v, hw, ⟨f, hf, hleft⟩, g, hg, hright⟩
    have hlink : (link f t.initial) ∈ (s.concat t).transitions :=
      mem_transitions_concat.mpr (.inr (.inr ⟨hf, rfl, BEq.rfl⟩))
    have hleft' : Run (s.concat t) s.initial u.visible f :=
      hleft.mono fun m hm => mem_transitions_concat.mpr (.inl hm)
    have hright' : Run (s.concat t) t.initial v.visible g :=
      hright.mono fun m hm => mem_transitions_concat.mpr (.inr (.inl hm))
    refine ⟨g, hg, ?_⟩
    rw [Word.visible_of_visible_eq_append hw]
    exact hleft'.append (.skip hlink hright')

end Shape

namespace Build

open Automaton (make_eq_ok_iff ofShape findsFinal_iff)

variable {m n j : Automaton} {ws after : Workshop}

theorem concat_eq_ok (h : (concat m n).runWith ws = (.ok j, after)) :
    ∃ r mid, (separate m n).runWith ws = (.ok r, mid) ∧
      j = ofShape (m.toShape.concat r.toShape) := by
  simp only [concat, bind_eq_ok_iff, quiet_eq_ok_iff] at h
  obtain ⟨r, mid, hseparate, transitions, _, ⟨hlinks, rfl⟩, joined, _, ⟨hmake, rfl⟩, _, _, _, h⟩ := h
  obtain ⟨rfl, -⟩ := pure_eq_ok_iff.mp h
  obtain ⟨-, rfl⟩ := addLinks_eq_ok_iff.mp hlinks
  exact ⟨r, _, hseparate, (make_eq_ok_iff.mp hmake).2⟩

theorem concat_of_separate {r : Automaton} {mid : Workshop} (hm : m.Valid) (hr : r.Valid)
    (hseparate : (separate m n).runWith ws = (.ok r, mid))
    (hreport : (report fun _ => do
      return "concat -> " ++ (← (m.toShape.concat r.toShape).summary)).runWith mid =
        (.ok (), after)) :
    (concat m n).runWith ws = (.ok (ofShape (m.toShape.concat r.toShape)), after) := by
  have hjoined := addLinks_eq_ok (m.transitions ∪ r.transitions)
    (Shape.hashable_finalLinks hm.hashable hr.hashable)
  have hmake := make_eq_ok_iff.mpr ⟨Shape.sound_concat hm.sound hr.sound, rfl⟩
  rw [concat, runWith_bind_ok hseparate]
  refine (runWith_bind_ok (quiet_eq_ok_iff.mpr ⟨hjoined, rfl⟩)).trans ?_
  refine (runWith_bind_ok (quiet_eq_ok_iff.mpr ⟨hmake, rfl⟩)).trans ?_
  exact runWith_bind_ok hreport

theorem runWith_concat (hm : m.Valid) (hn : n.Valid) (hapart : m.states.disjoint n.states = true)
    (hfinals : ∃ xs, ValueSet.sorted n.finals = .ok xs) (ws : Workshop) :
    ∃ after, (concat m n).runWith ws = (.ok (ofShape (m.toShape.concat n.toShape)), after) ∧
      after.counter = ws.counter := by
  obtain ⟨text, htext⟩ := Shape.summary_eq_ok (s := m.toShape.concat n.toShape) hfinals
  obtain ⟨after, hreport, hcounter⟩ := runWith_report
    (fun _ => do return "concat -> " ++ (← (m.toShape.concat n.toShape).summary))
    (by rw [htext]; rfl) ws
  exact ⟨after, concat_of_separate hm hn (separate_of_disjoint hapart) hreport, hcounter⟩

/-- Whatever the two automata are, if they can be concatenated then there is a path through the
result for a word exactly when the word is one with a path through the first followed by one with a
path through the second. -/
theorem concat_findsFinal_iff (hm : m.Valid) (hn : n.Valid)
    (h : (concat m n).runWith ws = (.ok j, after)) {word : Value} {w : Word}
    (hitems : word.items = .ok w) (hw : ∀ x ∈ w, x.hashable = true ∧ x.isEpsilon = false) :
    j.FindsFinal word ↔
      ∃ u v, w = u ++ v ∧ m.FindsFinal (.tuple u) ∧ n.FindsFinal (.tuple v) := by
  obtain ⟨r, mid, hseparate, rfl⟩ := concat_eq_ok h
  have hr := separate_spec hn hseparate
  have hvalid : (ofShape (m.toShape.concat r.toShape)).Valid :=
    Automaton.valid_ofShape (Shape.sound_concat hm.sound hr.valid.sound)
      (Shape.hashable_concat hm.hashable hr.valid.hashable)
  have haccepts := Shape.concat_accepts_iff hm.sound hr.valid.sound hr.apart w
  rw [Word.visible_eq_self fun x hx => (hw x hx).2] at haccepts
  rw [findsFinal_iff hvalid hitems fun x hx => (hw x hx).1]
  constructor
  · intro hj
    obtain ⟨u, v, rfl, hu, hv⟩ := haccepts.mp hj
    have hsplit : ∀ x, x ∈ u ∨ x ∈ v → x.hashable = true := fun x hx =>
      (hw x (List.mem_append.mpr hx)).1
    exact ⟨u, v, rfl, (findsFinal_iff hm rfl fun x hx => hsplit x (.inl hx)).mpr hu,
      (findsFinal_iff hn rfl fun x hx => hsplit x (.inr hx)).mpr ((hr.accepts_iff v).mp hv)⟩
  · rintro ⟨u, v, rfl, hu, hv⟩
    have hsplit : ∀ x, x ∈ u ∨ x ∈ v → x.hashable = true := fun x hx =>
      (hw x (List.mem_append.mpr hx)).1
    have hu := (findsFinal_iff hm rfl fun x hx => hsplit x (.inl hx)).mp hu
    have hv := (findsFinal_iff hn rfl fun x hx => hsplit x (.inr hx)).mp hv
    exact haccepts.mpr ⟨u, v, rfl, hu, (hr.accepts_iff v).mpr hv⟩

/-- A start state that is final and led back to, and a loop on the other final state. -/
def returning : Shape where
  states := .ofList [.int 1, .int 2]
  alphabet := .ofList [.text "a", .int 0]
  initial := .int 1
  transitions := .ofList [⟨.int 1, .text "a", .int 2⟩, ⟨.int 2, .epsilon, .int 1⟩,
    ⟨.int 2, .int 0, .int 2⟩]
  finals := .ofList [.int 1, .int 2]

theorem returning_made : (ofShape returning).Made :=
  Automaton.made_ofShape (.list [.int 1, .int 2]) (.list [.text "a", .int 0]) (.int 1)
    (.list [.tuple [.int 1, .text "a", .int 2], .tuple [.int 2, .epsilon, .int 1],
      .tuple [.int 2, .int 0, .int 2]])
    (.list [.int 1, .int 2]) rfl (List.isEmpty_iff.mp (by decide +kernel)) rfl

/-- One automaton concatenated with itself, by a counter that has issued a number it uses. -/
theorem concat_findsFinal_iff_returning :
    let n := ofShape returning
    let w := [Value.text "a", .bool false, .text "a"]
    n.Valid ∧ (∀ x ∈ w, x.hashable = true ∧ x.isEpsilon = false) ∧
      ∃ j after, (concat n n).runWith ⟨⟨.int 1⟩, .off⟩ = (.ok j, after) ∧
        (j.FindsFinal (.list w) ↔
          ∃ u v, w = u ++ v ∧ n.FindsFinal (.tuple u) ∧ n.FindsFinal (.tuple v)) := by
  intro n w
  have hn : n.Valid := returning_made.valid
  have hw : ∀ x ∈ w, x.hashable = true ∧ x.isEpsilon = false := by
    simp [w, Value.hashable, Value.isEpsilon]
  have hsome : ((concat n n).runWith ⟨⟨.int 1⟩, .off⟩).1.toOption.isSome = true := by
    decide +kernel
  refine ⟨hn, hw, ?_⟩
  cases h : (concat n n).runWith ⟨⟨.int 1⟩, .off⟩ with
  | mk result after =>
    rw [h] at hsome
    cases result with
    | error e => cases hsome
    | ok j => exact ⟨j, after, rfl, concat_findsFinal_iff hn hn h rfl hw⟩

end Build

end EpsilonAutomata
