import EpsilonAutomata.Proofs.Automaton.Runs

/-!
# Two shapes in one

Concatenation and union put the transitions of two shapes side by side and add links, which are
empty moves (`Shape.join`). The result keeps the invariants whatever the links are, as long as they
stay among its states (`sound_join`, `hashable_join`). A run that cannot leave one of the two shapes
is a run of that shape (`Run.restrict`).
-/

namespace EpsilonAutomata

theorem Run.restrict {s t : Shape} {a b : Value} {w : Word} (hs : s.Sound)
    (hstay : ∀ u : Transition, u ∈ t.transitions → u.source ∈ s.states → u ∈ s.transitions)
    (run : Run t a w b) (ha : a ∈ s.states) : Run s a w b := by
  induction run with
  | stop same => exact .stop same
  | skip move _ ih =>
    have hmove := hstay _ move ha
    exact .skip hmove (ih (hs.move_mem _ hmove).2.1)
  | read symbol move _ ih =>
    have hmove := hstay _ move ha
    exact .read symbol hmove (ih (hs.move_mem _ hmove).2.1)

theorem ValueSet.hashable_union {s t : ValueSet} (hs : ∀ a ∈ s.items, a.hashable = true)
    (ht : ∀ a ∈ t.items, a.hashable = true) : ∀ a ∈ (s ∪ t).items, a.hashable = true := by
  intro a ha
  rcases OrderedSet.mem_items_of_mem_items_insertAll ha with h | h
  · exact hs a h
  · exact ht a h

theorem ValueSet.hashable_insert {s : ValueSet} {a : Value} (hs : ∀ b ∈ s.items, b.hashable = true)
    (ha : a.hashable = true) : ∀ b ∈ (s.insert a).items, b.hashable = true := by
  intro b hb
  rcases OrderedSet.mem_items_of_mem_items_insert hb with h | rfl
  · exact hs b h
  · exact ha

namespace Shape

/-- The transitions of two shapes side by side, with links. -/
def join (s t : Shape) (states : ValueSet) (initial : Value) (links : List Transition)
    (finals : ValueSet) : Shape where
  states := states
  alphabet := s.alphabet ∪ t.alphabet
  initial := initial
  transitions := (s.transitions ∪ t.transitions).insertAll links
  finals := finals

variable {s t : Shape} {states finals : ValueSet} {initial : Value} {links : List Transition}

theorem mem_transitions_join {u : Transition} :
    u ∈ (join s t states initial links finals).transitions ↔
      u ∈ s.transitions ∨ u ∈ t.transitions ∨ ∃ l ∈ links, (l == u) = true := by
  show u ∈ (s.transitions ∪ t.transitions).insertAll links ↔ _
  rw [OrderedSet.mem_insertAll, OrderedSet.mem_union, or_assoc]

theorem sound_join (hs : s.Sound) (ht : t.Sound) (hsub : ∀ a, a ∈ s.states ∨ a ∈ t.states → a ∈ states)
    (hinitial : initial ∈ states)
    (hlinks : ∀ l ∈ links, l.label = .epsilon ∧ l.source ∈ states ∧ l.target ∈ states)
    (hfinals : ∀ f, f ∈ finals → f ∈ states) : (join s t states initial links finals).Sound where
  start_mem := hinitial
  has_state := by
    rw [Bool.eq_false_iff]
    intro hempty
    exact OrderedSet.isEmpty_iff_forall_not_mem.mp hempty initial hinitial
  epsilon_not_mem := by
    intro h
    rcases OrderedSet.mem_union.mp h with h | h
    · exact hs.epsilon_not_mem h
    · exact ht.epsilon_not_mem h
  symbol_used := by
    have hused (u : Transition) (x : Value) (hx : (u.label == x) = true)
        (hu : u ∈ (join s t states initial links finals).transitions) :
        ∃ u ∈ (join s t states initial links finals).transitions.items, (u.label == x) = true := by
      obtain ⟨u', hu', huu⟩ := OrderedSet.mem_iff_exists.mp hu
      exact ⟨u', hu', BEq.trans (Transition.beq_iff.mp huu).2.1 hx⟩
    intro x h
    rcases OrderedSet.mem_union.mp h with h | h
    · obtain ⟨u, hu, hx⟩ := hs.symbol_used x h
      exact hused u x hx (mem_transitions_join.mpr (.inl (OrderedSet.mem_of_mem_items hu)))
    · obtain ⟨u, hu, hx⟩ := ht.symbol_used x h
      exact hused u x hx (mem_transitions_join.mpr (.inr (.inl (OrderedSet.mem_of_mem_items hu))))
  final_mem := hfinals
  move_mem := by
    intro u hu
    rcases mem_transitions_join.mp hu with hu | hu | ⟨l, hl, hlu⟩
    · obtain ⟨hsource, htarget, hlabel⟩ := hs.move_mem u hu
      exact ⟨hsub _ (.inl hsource), hsub _ (.inl htarget),
        hlabel.imp_right fun h => OrderedSet.mem_union.mpr (.inl h)⟩
    · obtain ⟨hsource, htarget, hlabel⟩ := ht.move_mem u hu
      exact ⟨hsub _ (.inr hsource), hsub _ (.inr htarget),
        hlabel.imp_right fun h => OrderedSet.mem_union.mpr (.inr h)⟩
    · obtain ⟨hepsilon, hsource, htarget⟩ := hlinks l hl
      obtain ⟨h1, h2, h3⟩ := Transition.beq_iff.mp hlu
      refine ⟨(OrderedSet.mem_congr h1).mp hsource, (OrderedSet.mem_congr h3).mp htarget, .inl ?_⟩
      rw [← Value.isEpsilon_congr h2, hepsilon]
      rfl

theorem hashable_join (hs : s.Hashable) (ht : t.Hashable)
    (hstates : ∀ a ∈ states.items, a.hashable = true) (hinitial : initial.hashable = true)
    (hlinks : ∀ l ∈ links, l.hashable = true) (hfinals : ∀ f ∈ finals.items, f.hashable = true) :
    (join s t states initial links finals).Hashable where
  states := hstates
  alphabet x hx := by
    rcases OrderedSet.mem_items_of_mem_items_insertAll hx with h | h
    · exact hs.alphabet x h
    · exact ht.alphabet x h
  start := hinitial
  transitions u hu := by
    rcases OrderedSet.mem_items_of_mem_items_insertAll hu with h | h
    · rcases OrderedSet.mem_items_of_mem_items_insertAll h with h | h
      · exact hs.transitions u h
      · exact ht.transitions u h
    · exact hlinks u h
  finals := hfinals

end Shape

end EpsilonAutomata
