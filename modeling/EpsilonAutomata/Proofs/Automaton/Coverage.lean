import EpsilonAutomata.Proofs.Automaton.Remap
import EpsilonAutomata.Proofs.Automaton.Search

/-!
# What a mapping must cover

Renaming looks up the values that the start, the transitions and the final states mention, and takes
all images of the mapping for the new states. So a state that is mentioned nowhere needs no image, and
is dropped if it has none; and a key that is no state leaves its image behind as a new state
(`remap_uneven`). `remap_coverage` says when renaming returns, how it fails otherwise, and which states
come out.
-/

namespace EpsilonAutomata

namespace Mapping

variable {m : Mapping} {a : Value}

theorem eq_missingKey_of_get {e : Fault} (ha : a.hashable = true) (h : m.get a = .error e) :
    e = .missingKey := by
  rw [get, if_neg (by simp [ha])] at h
  split at h
  · cases h
  · exact (Except.error.inj h).symm

theorem eq_missingKey_of_onTransition {t : Transition} {e : Fault} (ht : t.hashable = true)
    (h : m.onTransition t = .error e) : e = .missingKey := by
  simp only [Transition.hashable, Bool.and_eq_true] at ht
  rw [onTransition, Outcome.bind_eq_error_iff] at h
  obtain h | ⟨source, -, h⟩ := h
  · exact eq_missingKey_of_get ht.1.1 h
  · obtain h | ⟨target, -, h⟩ := Outcome.bind_eq_error_iff.mp h
    · exact eq_missingKey_of_get ht.2 h
    · cases h

end Mapping

namespace Automaton

open Outcome

variable {n r : Automaton} {m : Mapping}

theorem defines_of_remap (h : n.remap m = .ok r) {a : Value} (ha : n.Mentions a) : m.Defines a := by
  have hcovers := covers_remap h
  cases ha with
  | start same => exact hcovers.start.defines.congr same
  | source move =>
    obtain ⟨_, _, hsource, -, -⟩ := hcovers.move move
    exact hsource.defines
  | target move =>
    obtain ⟨_, _, -, htarget, -⟩ := hcovers.move move
    exact htarget.defines
  | final mem =>
    obtain ⟨_, hfinal, -⟩ := hcovers.final mem
    exact hfinal.defines

theorem eq_missingKey_of_remap (hn : n.Valid) (himages : ∀ v ∈ m.values, v.hashable = true)
    {e : Fault} (h : n.remap m = .error e) : e = .missingKey := by
  simp only [remap, ValueSet.ofValues_eq_ok_iff.mpr ⟨himages, rfl⟩, bind_eq_error_iff,
    Except.ok.injEq, reduceCtorEq, false_or, exists_eq_left'] at h
  obtain h | ⟨initial, hinitial, h | ⟨ts, hts, h | ⟨fs, hfs, h⟩⟩⟩ := h
  · exact Mapping.eq_missingKey_of_get hn.hashable.start h
  · obtain ⟨t, ht, hte⟩ := exists_of_mapM_eq_error h
    exact Mapping.eq_missingKey_of_onTransition (hn.hashable.transitions t ht) hte
  · obtain ⟨f, hf, hfe⟩ := exists_of_mapM_eq_error h
    exact Mapping.eq_missingKey_of_get (hn.hashable.finals f hf) hfe
  · -- the images of the parts keep the invariants, so nothing is refused at the end
    rw [make_eq_ok_iff.mpr ⟨sound_remap hn hinitial hts hfs, rfl⟩] at h
    cases h

theorem mem_states_iff_exists_sends (h : n.remap m = .ok r) {b : Value} :
    b ∈ r.states ↔ ∃ a, m.Sends a b := by
  rw [mem_states_of_remap h]
  constructor
  · rintro ⟨e, he, himage⟩
    exact ⟨e.1, e, he, BEq.rfl, himage⟩
  · rintro ⟨a, e, he, -, himage⟩
    exact ⟨e, he, himage⟩

theorem states_eq_images_iff (hone : m.OneToOne) (h : n.remap m = .ok r) :
    (∀ b, b ∈ r.states ↔ ∃ a, a ∈ n.states ∧ m.Sends a b) ↔ ∀ a, m.Defines a → a ∈ n.states := by
  constructor
  · intro hstates a ha
    obtain ⟨b, hab⟩ := ha.exists_sends
    obtain ⟨a', ha', hab'⟩ := (hstates b).mp ((mem_states_iff_exists_sends h).mpr ⟨a, hab⟩)
    exact (OrderedSet.mem_congr (hone.key_unique hab' hab)).mp ha'
  · intro hkeys b
    rw [mem_states_iff_exists_sends h]
    exact exists_congr fun a => ⟨fun hab => ⟨hkeys a hab.defines, hab⟩, And.right⟩

/-- Renaming with a one-to-one mapping returns exactly if all that is mentioned has an image, so it does
if all states have one; otherwise the key is missing. The states of the result are the images of all
keys, which are the images of the states exactly if every key is a state. -/
theorem remap_coverage (made : n.Made) (hone : m.OneToOne)
    (himages : ∀ v ∈ m.values, v.hashable = true) :
    ((∃ r, n.remap m = .ok r) ↔ ∀ a, n.Mentions a → m.Defines a) ∧
    ((∀ a, a ∈ n.states → m.Defines a) → ∃ r, n.remap m = .ok r) ∧
    ((∃ a, n.Mentions a ∧ ¬ m.Defines a) → n.remap m = .error .missingKey) ∧
    ∀ r, n.remap m = .ok r →
      (∀ b, b ∈ r.states ↔ ∃ a, m.Sends a b) ∧
      ((∀ b, b ∈ r.states ↔ ∃ a, a ∈ n.states ∧ m.Sends a b) ↔
        ∀ a, m.Defines a → a ∈ n.states) := by
  have hn := made.valid
  refine ⟨⟨?_, ?_⟩, ?_, ?_, fun r h =>
    ⟨fun b => mem_states_iff_exists_sends h, states_eq_images_iff hone h⟩⟩
  · rintro ⟨r, h⟩ a ha
    exact defines_of_remap h ha
  · intro hkeys
    exact remap_returns_of_mentions hn hkeys himages
  · intro hkeys
    exact remap_returns hn hkeys himages
  · rintro ⟨a, ha, hmissing⟩
    cases h : n.remap m with
    | ok r => exact absurd (defines_of_remap h ha) hmissing
    | error e => rw [eq_missingKey_of_remap hn himages h]

/-- The keys are the states, among them a set, and a text that is none. -/
theorem remap_coverage_looping :
    let n := ofShape looping
    let m : Mapping := ⟨[(.bool false, .int 1), (.int 1, .frozenSet [.int 2]),
      (.frozenSet [.double (.finite 2)], .int 0), (.text "a", .text "b")]⟩
    (n.Made ∧ m.OneToOne ∧ ∀ v ∈ m.values, v.hashable = true) ∧
      ((∃ r, n.remap m = .ok r) ↔ ∀ a, n.Mentions a → m.Defines a) ∧
      ((∀ a, a ∈ n.states → m.Defines a) → ∃ r, n.remap m = .ok r) ∧
      ((∃ a, n.Mentions a ∧ ¬ m.Defines a) → n.remap m = .error .missingKey) ∧
      ∀ r, n.remap m = .ok r →
        (∀ b, b ∈ r.states ↔ ∃ a, m.Sends a b) ∧
        ((∀ b, b ∈ r.states ↔ ∃ a, a ∈ n.states ∧ m.Sends a b) ↔
          ∀ a, m.Defines a → a ∈ n.states) := by
  intro n m
  have hone : m.OneToOne := ⟨by decide +kernel, by decide +kernel⟩
  have himages : ∀ v ∈ m.values, v.hashable = true := by decide +kernel
  exact ⟨⟨looping_made, hone, himages⟩, remap_coverage looping_made hone himages⟩

/-- Two states, of which only the start is mentioned. -/
def pair : Shape where
  states := .ofList [.int 1, .int 2]
  alphabet := ∅
  initial := .int 1
  transitions := ∅
  finals := ∅

theorem pair_made : (ofShape pair).Made :=
  made_ofShape (.list [.int 1, .int 2]) (.list []) (.int 1) (.list []) (.list []) rfl
    (List.isEmpty_iff.mp (by decide +kernel)) rfl

theorem eq_of_mentions_pair {a : Value} (h : (ofShape pair).Mentions a) : (Value.int 1 == a) = true := by
  cases h with
  | start same => exact same
  | source move => exact absurd move (OrderedSet.not_mem_empty _)
  | target move => exact absurd move (OrderedSet.not_mem_empty _)
  | final mem => exact absurd mem (OrderedSet.not_mem_empty _)

/-- States and keys are not treated alike: a state without an image is no obstacle if nothing mentions
it, and the image of a key that is no state becomes a state. -/
theorem remap_uneven :
    let n := ofShape pair
    let scarce : Mapping := ⟨[(.int 1, .int 3)]⟩
    let ample : Mapping := ⟨[(.int 1, .int 3), (.int 2, .int 4), (.int 9, .int 5)]⟩
    n.Made ∧
      (scarce.OneToOne ∧ (∀ v ∈ scarce.values, v.hashable = true) ∧
        Value.int 2 ∈ n.states ∧ ¬ scarce.Defines (.int 2) ∧ ∃ r, n.remap scarce = .ok r) ∧
      ample.OneToOne ∧ (∀ v ∈ ample.values, v.hashable = true) ∧
        (∀ a ∈ n.states.items, ample.Defines a) ∧
        ∃ r, n.remap ample = .ok r ∧ Value.int 5 ∈ r.states ∧
          ¬ ∃ a ∈ n.states.items, ample.Sends a (.int 5) := by
  intro n scarce ample
  have hn : n.Valid := pair_made.valid
  have hscarce : ∀ v ∈ scarce.values, v.hashable = true := by decide +kernel
  have hample : ∀ v ∈ ample.values, v.hashable = true := by decide +kernel
  refine ⟨pair_made, ⟨⟨by decide +kernel, by decide +kernel⟩, hscarce, by decide +kernel, ?_, ?_⟩,
    ⟨by decide +kernel, by decide +kernel⟩, hample, ?_, ?_⟩
  · rintro ⟨e, he, hkey⟩
    obtain rfl := List.mem_singleton.mp he
    exact absurd hkey (by decide +kernel)
  · exact remap_returns_of_mentions hn
      (fun a ha => ⟨_, List.mem_cons_self, eq_of_mentions_pair ha⟩) hscarce
  · unfold Mapping.Defines
    decide +kernel
  · obtain ⟨r, h⟩ := remap_returns_of_mentions hn
      (fun a ha => ⟨_, List.mem_cons_self, eq_of_mentions_pair ha⟩) hample
    have hsends : ample.Sends (.int 9) (.int 5) :=
      ⟨(.int 9, .int 5), by simp [ample], BEq.rfl, BEq.rfl⟩
    refine ⟨r, h, (mem_states_iff_exists_sends h).mpr ⟨_, hsends⟩, ?_⟩
    unfold Mapping.Sends
    decide +kernel

end Automaton

end EpsilonAutomata
