import EpsilonAutomata.Proofs.Automaton.Image
import EpsilonAutomata.Proofs.Automaton.Reading

/-!
# Renaming carries words along

A mapping may rename the states of an automaton one-to-one, or join some of them. As long as it has
an entry for each state (`Mapping.IsOn`), renaming returns, and the renamed automaton `Follows` the
old one: a word that leads from one state to another leads from image to image. A one-to-one mapping
can be turned around (`Mapping.inverse`); then the old automaton follows the renamed one as well, and
renaming with the inverse restores it (`remap_transports`).
-/

namespace EpsilonAutomata

namespace Mapping

variable {m : Mapping} {n r : Automaton} {a b : Value}

/-- The mapping with its keys and images exchanged. -/
def inverse (m : Mapping) : Mapping := ⟨m.entries.map Prod.swap⟩

theorem sends_inverse : m.inverse.Sends b a ↔ m.Sends a b := by
  constructor
  · rintro ⟨e, he, hkey, himage⟩
    obtain ⟨d, hd, rfl⟩ := List.mem_map.mp he
    exact ⟨d, hd, himage, hkey⟩
  · rintro ⟨e, he, hkey, himage⟩
    exact ⟨e.swap, List.mem_map.mpr ⟨e, he, rfl⟩, himage, hkey⟩

theorem exists_key_inverse :
    (∃ e ∈ m.inverse.entries, (e.1 == a) = true) ↔ ∃ e ∈ m.entries, (e.2 == a) = true := by
  simp only [inverse, List.mem_map, exists_exists_and_eq_and, Prod.fst_swap]

theorem OneToOne.inverse (hm : m.OneToOne) : m.inverse.OneToOne where
  keys := List.pairwise_map.mpr hm.images
  images := List.pairwise_map.mpr hm.keys

/-- The keys are the states of the automaton, each of them once, and the images can be members of a
set. Images may be equal to each other. -/
structure IsOn (m : Mapping) (n : Automaton) : Prop where
  distinct : m.entries.Pairwise fun d e => (d.1 == e.1) = false
  keys : ∀ e ∈ m.entries, n.IsState e.1
  total : ∀ a ∈ n.states.items, ∃ e ∈ m.entries, (e.1 == a) = true
  images : ∀ v ∈ m.values, v.hashable = true

namespace IsOn

theorem mem_states_iff (hm : m.IsOn n) : a ∈ n.states ↔ m.Defines a := by
  constructor
  · intro ha
    obtain ⟨b, hb, hba⟩ := OrderedSet.mem_iff_exists.mp ha
    obtain ⟨e, he, heb⟩ := hm.total b hb
    exact ⟨e, he, BEq.trans heb hba⟩
  · rintro ⟨e, he, hea⟩
    exact (OrderedSet.mem_congr hea).mp (hm.keys e he).mem

theorem exists_get (hm : m.IsOn n) (ha : n.IsState a) : ∃ b, m.get a = .ok b :=
  get_of_key ha.hashable (hm.mem_states_iff.mp ha.mem)

theorem isState_of_get (hm : m.IsOn n) (h : n.remap m = .ok r) (hab : m.get a = .ok b) :
    n.IsState a ∧ r.IsState b := by
  obtain ⟨hhash, e, he, hkey, rfl⟩ := exists_entry_of_get hab
  refine ⟨⟨hhash, hm.mem_states_iff.mpr ⟨e, he, hkey⟩⟩, hm.images _ (mem_values_of_get hab), ?_⟩
  exact (Automaton.mem_states_of_remap h).mpr ⟨e, he, BEq.rfl⟩

theorem inverse (hm : m.IsOn n) (hone : m.OneToOne) (h : n.remap m = .ok r) :
    m.inverse.IsOn r where
  distinct := hone.inverse.keys
  keys := by
    intro e he
    obtain ⟨d, hd, rfl⟩ := List.mem_map.mp he
    exact ⟨hm.images _ (List.mem_map.mpr ⟨d, hd, rfl⟩),
      (Automaton.mem_states_of_remap h).mpr ⟨d, hd, BEq.rfl⟩⟩
  total := by
    intro b hb
    rw [exists_key_inverse]
    exact (Automaton.mem_states_of_remap h).mp (OrderedSet.mem_of_mem_items hb)
  images := by
    intro v hv
    obtain ⟨e, he, rfl⟩ := List.mem_map.mp hv
    obtain ⟨d, hd, rfl⟩ := List.mem_map.mp he
    exact (hm.keys d hd).hashable

end IsOn

end Mapping

namespace Automaton

open Mapping

variable {n r k : Automaton} {m : Mapping} {Q R : Value → Value → Prop}

/-! ## Following words -/

/-- Every answer that the first automaton gives for a word, the second gives as well: where there is a
path between states there is one between their counterparts, where one leads from the start to a final
state one does so too, and what is accepted is accepted. To accept, a start that is a set is taken for
its members, and the states reached are put in order. -/
structure Follows (Q : Value → Value → Prop) (n r : Automaton) : Prop where
  path : ∀ {a a' b b' word w}, Q a a' → Q b b' → Value.items word = .ok w →
    (∀ x ∈ w, x.hashable = true) → n.path a word b = .ok true → r.path a' word b' = .ok true
  finds : ∀ {word w}, Value.items word = .ok w → (∀ x ∈ w, x.hashable = true) →
    n.FindsFinal word → r.FindsFinal word
  accepts : ∀ {word w log}, Value.items word = .ok w → (∀ x ∈ w, x.hashable = true) →
    n.initial.members? = none → r.initial.members? = none → r.Sortable →
    ((n.accepts word).runWith log).1 = .ok true → ((r.accepts word).runWith log).1 = .ok true

theorem Follows.of_simulation (hn : n.Valid) (hr : r.Valid)
    (h : Simulation n.toShape r.toShape R) (hunique : ∀ {a b b'}, R a b → R a b' → (b == b') = true)
    (hQ : ∀ {a b}, Q a b → n.IsState a ∧ r.IsState b ∧ R a b) : Follows Q n r where
  path := by
    intro a a' b b' word w haa hbb hitems hw hpath
    obtain ⟨ha, ha', hRa⟩ := hQ haa
    obtain ⟨hb, hb', hRb⟩ := hQ hbb
    rw [path_eq_ok_true_iff hn ha hb hitems hw] at hpath
    rw [path_eq_ok_true_iff hr ha' hb' hitems hw]
    obtain ⟨d, hd, run⟩ := h.exists_run hpath hRa
    exact run.congr_right (hunique hd hRb)
  finds := by
    intro word w hitems hw hfinds
    rw [findsFinal_iff hn hitems hw] at hfinds
    rw [findsFinal_iff hr hitems hw]
    exact h.accepts hfinds
  accepts := by
    intro word w log hitems hw hset hset' horder haccepts
    have hword := (accepts_sound hn hset hitems hw haccepts).mp rfl
    obtain ⟨answer, after, hanswer, hiff⟩ :=
      accepts_spec hr horder hset' hitems hw log
    rw [hanswer, hiff.mpr (h.accepts hword)]

/-! ## Renaming -/

theorem follows_remap (hn : n.Valid) (hm : m.IsOn n) (h : n.remap m = .ok r) :
    Follows (fun a b => m.get a = .ok b) n r := by
  refine .of_simulation hn (valid_of_remap hn h) (simulation_remap hm.distinct h)
    (image_unique hm.distinct) fun hab => ?_
  obtain ⟨ha, hb⟩ := hm.isState_of_get h hab
  exact ⟨ha, hb, sends_of_get hab⟩

theorem follows_of_remap (hn : n.Valid) (hm : m.IsOn n) (hone : m.OneToOne)
    (h : n.remap m = .ok r) : Follows (fun b a => m.get a = .ok b) r n := by
  refine .of_simulation (valid_of_remap hn h) hn (simulation_of_remap hone h)
    hone.key_unique fun hab => ?_
  obtain ⟨ha, hb⟩ := hm.isState_of_get h hab
  exact ⟨hb, ha, sends_of_get hab⟩

theorem remap_isOn (hn : n.Valid) (hm : m.IsOn n) : ∃ r, n.remap m = .ok r :=
  remap_returns hn (fun _ ha => hm.mem_states_iff.mp ha) hm.images

/-- Renaming back restores the automaton: it is the image of its image under the inverse mapping. -/
theorem remap_inverse (hn : n.Valid) (hm : m.IsOn n) (hone : m.OneToOne) (h : n.remap m = .ok r) :
    ∃ k, r.remap m.inverse = .ok k ∧ (k == n) = true := by
  have hinverse := hm.inverse hone h
  obtain ⟨k, hk⟩ := remap_isOn (valid_of_remap hn h) hinverse
  have hforth := image_remap hm.distinct (fun _ => hm.mem_states_iff) h
  have hback := image_remap hinverse.distinct (fun _ => hinverse.mem_states_iff) hk
  have htotal : ∀ a, a ∈ n.states → ∃ b, m.Sends a b := fun a ha =>
    (hm.mem_states_iff.mp ha).exists_sends
  have hreturn : Shape.Image (fun b a => m.Sends a b) r.toShape n.toShape :=
    hforth.back hn.sound hone.key_unique htotal
  exact ⟨k, hk, hback.unique (renaming_sends hinverse.distinct)
    (hreturn.congr fun _ _ => sends_inverse.symm)⟩

/-- A mapping on the states of an automaton, be it one-to-one or not, renames them, and what comes out
keeps the invariants and follows the automaton on every word. A one-to-one mapping is followed back as
well, and its inverse restores the automaton. -/
theorem remap_transports (made : n.Made) (hm : m.IsOn n) :
    ∃ r, n.remap m = .ok r ∧ r.violations = [] ∧
      (∀ a, n.IsState a → ∃ b, m.get a = .ok b ∧ r.IsState b) ∧
      Follows (fun a b => m.get a = .ok b) n r ∧
      (m.OneToOne → Follows (fun b a => m.get a = .ok b) r n ∧
        ∃ k, r.remap m.inverse = .ok k ∧ (k == n) = true) := by
  have hn := made.valid
  obtain ⟨r, h⟩ := remap_isOn hn hm
  refine ⟨r, h, Shape.violations_eq_nil_iff.mpr (valid_of_remap hn h).sound, fun a ha => ?_,
    follows_remap hn hm h, fun hone =>
      ⟨follows_of_remap hn hm hone h, remap_inverse hn hm hone h⟩⟩
  obtain ⟨b, hab⟩ := hm.exists_get ha
  exact ⟨b, hab, (hm.isState_of_get h hab).2⟩

/-- Every state takes the name of another one, one of them a set. -/
theorem remap_transports_looping :
    let n := ofShape looping
    let m : Mapping := ⟨[(.bool false, .int 1), (.int 1, .frozenSet [.int 2]),
      (.frozenSet [.double (.finite 2)], .int 0)]⟩
    (n.Made ∧ m.IsOn n ∧ m.OneToOne) ∧
      ∃ r, n.remap m = .ok r ∧ r.violations = [] ∧
        (∀ a, n.IsState a → ∃ b, m.get a = .ok b ∧ r.IsState b) ∧
        Follows (fun a b => m.get a = .ok b) n r ∧
        (m.OneToOne → Follows (fun b a => m.get a = .ok b) r n ∧
          ∃ k, r.remap m.inverse = .ok k ∧ (k == n) = true) := by
  intro n m
  have hm : m.IsOn n := by
    refine ⟨by decide +kernel, ?_, by decide +kernel, by decide +kernel⟩
    simp only [m, List.forall_mem_cons]
    exact ⟨⟨rfl, by decide +kernel⟩, ⟨rfl, by decide +kernel⟩,
      ⟨by decide +kernel, by decide +kernel⟩, by simp⟩
  have hone : m.OneToOne := ⟨by decide +kernel, by decide +kernel⟩
  exact ⟨⟨looping_made, hm, hone⟩, remap_transports looping_made hm⟩

/-- An automaton with one state, which is final. -/
def lone : Shape where
  states := .ofList [.int 0]
  alphabet := ∅
  initial := .int 0
  transitions := ∅
  finals := .ofList [.int 0]

theorem lone_made : (ofShape lone).Made :=
  made_ofShape (.list [.int 0]) (.list []) (.int 0) (.list []) (.list [.int 0]) rfl
    (List.isEmpty_iff.mp (by decide +kernel)) rfl

/-- A start that is renamed to a set is taken for its members: a word that was accepted is no longer
so, though the path is still found. -/
theorem remap_to_set_start :
    let n := ofShape lone
    let m : Mapping := ⟨[(.int 0, .frozenSet [])]⟩
    n.Made ∧ m.IsOn n ∧ m.OneToOne ∧ ∃ r, n.remap m = .ok r ∧
      ((n.accepts (.list [])).runWith .off).1 = .ok true ∧
      ((r.accepts (.list [])).runWith .off).1 = .ok false ∧ r.FindsFinal (.list []) := by
  intro n m
  have hm : m.IsOn n := by
    refine ⟨by decide +kernel, ?_, by decide +kernel, by decide +kernel⟩
    simpa [m] using ⟨rfl, by decide +kernel⟩
  have hn := lone_made.valid
  obtain ⟨r, hr⟩ := remap_isOn hn hm
  obtain ⟨initial, ts, fs, hinitial, -, -, -, -, hshape⟩ := remap_eq_ok hr
  have hnamed : r.initial.named = [] := by
    obtain ⟨-, e, he, -, himage⟩ := exists_entry_of_get hinitial
    obtain rfl := List.mem_singleton.mp he
    rw [hshape]
    show initial.named = []
    rw [← himage]
    rfl
  have horder : r.Sortable := by
    rw [hshape]
    exact List.pairwise_singleton _ _
  have hitems : (Value.list []).items = .ok [] := rfl
  have hword : n.Accepts [] := ⟨.int 0, by decide +kernel, .refl⟩
  refine ⟨lone_made, hm, ⟨by decide +kernel, by decide +kernel⟩, r, hr, ?_,
    accepts_eq_false (valid_of_remap hn hr) horder hnamed hitems (by simp) .off, ?_⟩
  · obtain ⟨answer, after, hanswer, hiff⟩ :=
      accepts_spec hn (List.pairwise_singleton _ _) rfl hitems (by simp) .off
    rw [hanswer, hiff.mpr hword]
  · exact (follows_remap hn hm hr).finds hitems (by simp)
      ((findsFinal_iff hn hitems (by simp)).mpr hword)

end Automaton

end EpsilonAutomata
