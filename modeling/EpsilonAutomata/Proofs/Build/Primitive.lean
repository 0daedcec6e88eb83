import EpsilonAutomata.Build.Combinators
import EpsilonAutomata.Proofs.Automaton.Runs
import EpsilonAutomata.Proofs.Build.Counter

/-!
# Automata of at most one word

The automaton of nothing is a lone state; the automata of the empty word and of one symbol are one
move between two states (`Shape.edge`), which differ in what the move reads.
-/

namespace EpsilonAutomata

open Build (link)

namespace Shape

variable {s e x : Value}

/-! ## One state -/

/-- One state that is not final. -/
def lone (s : Value) : Shape := ⟨.ofList [s], ∅, s, ∅, ∅⟩

theorem sound_lone (s : Value) : (lone s).Sound where
  start_mem := OrderedSet.mem_singleton.mpr BEq.rfl
  has_state := rfl
  epsilon_not_mem := OrderedSet.not_mem_empty _
  symbol_used x hx := absurd hx (OrderedSet.not_mem_empty x)
  final_mem f hf := absurd hf (OrderedSet.not_mem_empty f)
  move_mem u hu := absurd hu (OrderedSet.not_mem_empty u)

theorem hashable_lone (hs : s.hashable = true) : (lone s).Hashable where
  states a ha := by
    obtain rfl := OrderedSet.eq_of_mem_items_singleton ha
    exact hs
  alphabet x hx := absurd hx List.not_mem_nil
  start := hs
  transitions u hu := absurd hu List.not_mem_nil
  finals f hf := absurd hf List.not_mem_nil

theorem lone_not_accepts (s : Value) (w : Word) : ¬ (lone s).Accepts w := by
  rintro ⟨f, hf, -⟩
  exact OrderedSet.not_mem_empty f hf

/-! ## One move -/

/-- A move from a start state to a final state. Its label is in the alphabet if it can be read. -/
def edge (s x e : Value) : Shape where
  states := .ofList [s, e]
  alphabet := .ofList (Word.visible [x])
  initial := s
  transitions := .ofList [⟨s, x, e⟩]
  finals := .ofList [e]

theorem mem_transitions_edge {u : Transition} :
    u ∈ (edge s x e).transitions ↔
      (s == u.source) = true ∧ (x == u.label) = true ∧ (e == u.target) = true := by
  show u ∈ OrderedSet.ofList [(⟨s, x, e⟩ : Transition)] ↔ _
  rw [OrderedSet.mem_singleton, Transition.beq_iff]

theorem mem_states_edge {a : Value} :
    a ∈ (edge s x e).states ↔ (s == a) = true ∨ (e == a) = true := by
  show a ∈ OrderedSet.ofList [s, e] ↔ _
  rw [OrderedSet.mem_ofList]
  simp

theorem sound_edge (s x e : Value) : (edge s x e).Sound where
  start_mem := mem_states_edge.mpr (.inl BEq.rfl)
  has_state := by
    rw [Bool.eq_false_iff]
    intro hempty
    exact OrderedSet.isEmpty_iff_forall_not_mem.mp hempty s (mem_states_edge.mpr (.inl BEq.rfl))
  epsilon_not_mem := by
    intro h
    obtain ⟨y, hy, hepsilon⟩ := OrderedSet.mem_ofList.mp h
    have hread := Word.not_epsilon_of_mem_visible hy
    rw [← Value.beq_epsilon, hepsilon] at hread
    cases hread
  symbol_used := by
    intro y h
    obtain ⟨z, hz, hzy⟩ := OrderedSet.mem_ofList.mp h
    obtain rfl := List.mem_singleton.mp (Word.mem_of_mem_visible hz)
    exact ⟨⟨s, z, e⟩, List.mem_cons_self, hzy⟩
  final_mem := by
    intro f hf
    exact mem_states_edge.mpr (.inr (OrderedSet.mem_singleton.mp hf))
  move_mem := by
    intro u hu
    obtain ⟨hsource, hlabel, htarget⟩ := mem_transitions_edge.mp hu
    refine ⟨mem_states_edge.mpr (.inl hsource), mem_states_edge.mpr (.inr htarget), ?_⟩
    rw [← Value.isEpsilon_congr hlabel]
    cases hx : x.isEpsilon with
    | true => exact .inl rfl
    | false =>
      exact .inr (OrderedSet.mem_ofList.mpr ⟨x, List.mem_filter.mpr ⟨by simp, by simp [hx]⟩, hlabel⟩)

theorem hashable_edge (hs : s.hashable = true) (hx : x.hashable = true) (he : e.hashable = true) :
    (edge s x e).Hashable where
  states a ha := by
    rcases List.mem_pair.mp (OrderedSet.mem_of_mem_items_ofList ha) with rfl | rfl
    · exact hs
    · exact he
  alphabet y hy := by
    obtain rfl := List.mem_singleton.mp
      (Word.mem_of_mem_visible (OrderedSet.mem_of_mem_items_ofList hy))
    exact hx
  start := hs
  transitions u hu := by
    obtain rfl := OrderedSet.eq_of_mem_items_singleton hu
    simp [Transition.hashable, hs, hx, he]
  finals f hf := by
    obtain rfl := OrderedSet.eq_of_mem_items_singleton hf
    exact he

theorem run_from_end {w : Word} {b : Value} (hse : (s == e) = false) (run : Run (edge s x e) e w b) :
    w = [] := by
  have hstuck (y m : Value) : (⟨e, y, m⟩ : Transition) ∉ (edge s x e).transitions := by
    intro h
    rw [(mem_transitions_edge.mp h).1] at hse
    cases hse
  cases run with
  | stop _ => rfl
  | skip move _ => exact absurd move (hstuck _ _)
  | read _ move _ => exact absurd move (hstuck _ _)

theorem edge_accepts_iff (hse : (s == e) = false) (w : Word) :
    (edge s x e).Accepts w ↔ (Word.visible [x] == w.visible) = true := by
  rw [Word.visible_cons]
  constructor
  · rintro ⟨f, hf, run⟩
    have hef : (e == f) = true := OrderedSet.mem_singleton.mp hf
    generalize w.visible = v at run
    cases run with
    | stop same =>
      have heq : (s == e) = true := BEq.trans same (BEq.symm hef)
      rw [hse] at heq
      cases heq
    | skip move rest =>
      obtain ⟨-, hlabel, htarget⟩ := mem_transitions_edge.mp move
      rw [if_pos (by rw [Value.isEpsilon_congr hlabel]; rfl), run_from_end hse (rest.congr_left htarget)]
      rfl
    | read symbol move rest =>
      obtain ⟨-, hlabel, htarget⟩ := mem_transitions_edge.mp move
      rw [if_neg (by rw [Value.isEpsilon_congr hlabel, symbol]; simp),
        run_from_end hse (rest.congr_left htarget)]
      exact Lists.beq_cons.mpr ⟨hlabel, rfl⟩
  · intro h
    refine ⟨e, OrderedSet.mem_singleton.mpr BEq.rfl, Run.congr_word h ?_⟩
    have hmove : (⟨s, x, e⟩ : Transition) ∈ (edge s x e).transitions :=
      mem_transitions_edge.mpr ⟨BEq.rfl, BEq.rfl, BEq.rfl⟩
    split
    · next hx =>
      rw [Value.eq_epsilon_of_isEpsilon hx] at hmove ⊢
      exact Run.of_epsilon hmove
    · next hx => exact Run.of_symbol (by simpa using hx) hmove

end Shape

namespace Build

open Automaton (ofShape make_eq_ok_iff)

variable {ws : Workshop} {c : Int}

theorem runWith_two_states (hc : ws.counter.value? = some c) (f : Value → Value → Build Automaton) :
    (newState >>= fun s => newState >>= fun e => f s e).runWith ws =
      (f (.int (c + 1)) (.int (c + 1 + 1))).runWith { ws with counter := ⟨.int (c + 1 + 1)⟩ } := by
  rw [runWith_bind_ok (runWith_newState hc)]
  exact runWith_bind_ok (runWith_newState rfl)

theorem runWith_empty (hc : ws.counter.value? = some c) :
    empty.runWith ws =
      (.ok (ofShape (.lone (.int (c + 1)))), { ws with counter := ⟨.int (c + 1)⟩ }) := by
  have hmake := make_eq_ok_iff.mpr ⟨Shape.sound_lone (.int (c + 1)), rfl⟩
  rw [empty, runWith_bind_ok (runWith_newState hc)]
  exact quiet_eq_ok_iff.mpr ⟨hmake, rfl⟩

theorem runWith_epsilon (hc : ws.counter.value? = some c) :
    epsilon.runWith ws = (.ok (ofShape (.edge (.int (c + 1)) .epsilon (.int (c + 1 + 1)))),
      { ws with counter := ⟨.int (c + 1 + 1)⟩ }) := by
  have hmake := make_eq_ok_iff.mpr
    ⟨Shape.sound_edge (.int (c + 1)) .epsilon (.int (c + 1 + 1)), rfl⟩
  rw [epsilon, runWith_two_states hc]
  exact quiet_eq_ok_iff.mpr ⟨hmake, rfl⟩

theorem runWith_symbol (hc : ws.counter.value? = some c) {x : Value} (hx : x.hashable = true)
    (hread : x.isEpsilon = false) :
    (symbol x).runWith ws = (.ok (ofShape (.edge (.int (c + 1)) x (.int (c + 1 + 1)))),
      { ws with counter := ⟨.int (c + 1 + 1)⟩ }) := by
  have hmake := make_eq_ok_iff.mpr
    ⟨Shape.sound_edge (.int (c + 1)) x (.int (c + 1 + 1)), rfl⟩
  have hmember : x.asMember = .ok x := if_pos hx
  have hshape : Shape.edge (.int (c + 1)) x (.int (c + 1 + 1)) =
      ⟨.ofList [.int (c + 1), .int (c + 1 + 1)], .ofList [x], .int (c + 1),
        .ofList [⟨.int (c + 1), x, .int (c + 1 + 1)⟩], .ofList [.int (c + 1 + 1)]⟩ := by
    rw [Shape.edge, Word.visible_cons, hread]
    rfl
  rw [hshape] at hmake ⊢
  rw [symbol, if_neg (by simp [hread]), runWith_two_states hc]
  refine (runWith_bind_ok (quiet_eq_ok_iff.mpr ⟨hmember, rfl⟩)).trans ?_
  exact quiet_eq_ok_iff.mpr ⟨hmake, rfl⟩

end Build

end EpsilonAutomata
