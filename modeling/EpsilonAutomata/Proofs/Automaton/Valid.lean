import EpsilonAutomata.Automaton.Successors
import EpsilonAutomata.Proofs.Outcome
import EpsilonAutomata.Proofs.Value.Comparable

/-!
# Automata that keep their invariants

`Shape.Sound` says the six invariants directly over the five parts, `Shape.Keeps` says the one with a
given number. The list of breaches is exact (`mem_violations_iff`): a breach with a number is in it if
and only if the invariant of that number fails, and it is empty if and only if all hold
(`violations_eq_nil_iff`). `Shape.Hashable` says that the parts can be
looked up. An automaton is `Valid` if it has both and its two lookup tables hold its transitions;
every automaton that comes out of the constructor (`Automaton.Made`) is valid, and so is every
automaton made from a sound and hashable shape. Everything after this module rests on `Valid` alone
and never on how an automaton came about.
-/

namespace EpsilonAutomata

open Outcome

/-! ## The six invariants -/

/-- The six invariants. Membership counts up to equality of values. -/
structure Shape.Sound (s : Shape) : Prop where
  start_mem : s.initial ∈ s.states
  has_state : s.states.isEmpty = false
  epsilon_not_mem : Value.epsilon ∉ s.alphabet
  symbol_used : ∀ x, x ∈ s.alphabet → ∃ t ∈ s.transitions.items, (t.label == x) = true
  final_mem : ∀ f, f ∈ s.finals → f ∈ s.states
  move_mem : ∀ t : Transition, t ∈ s.transitions →
    t.source ∈ s.states ∧ t.target ∈ s.states ∧ (t.label.isEpsilon = true ∨ t.label ∈ s.alphabet)

/-- Every part can be a member of a set. -/
structure Shape.Hashable (s : Shape) : Prop where
  states : ∀ a ∈ s.states.items, a.hashable = true
  alphabet : ∀ x ∈ s.alphabet.items, x.hashable = true
  start : s.initial.hashable = true
  transitions : ∀ t ∈ s.transitions.items, t.hashable = true
  finals : ∀ f ∈ s.finals.items, f.hashable = true

theorem Value.isEpsilon_congr {a b : Value} (h : (a == b) = true) : a.isEpsilon = b.isEpsilon := by
  rw [← Value.beq_epsilon, ← Value.beq_epsilon]
  exact Bool.eq_iff_iff.mpr ⟨fun ha => BEq.trans (BEq.symm h) ha, fun hb => BEq.trans h hb⟩

theorem Value.isEpsilon_iff {a : Value} : a.isEpsilon = true ↔ a = .epsilon :=
  ⟨Value.eq_epsilon_of_isEpsilon, fun h => h ▸ rfl⟩

theorem Value.isSeekable_of_hashable {a : Value} (h : a.hashable = true) : a.isSeekable = true := by
  cases a with
  | set xs => rfl
  | _ => exact h

namespace Shape

variable {s : Shape}

theorem mem_transitions_congr {a x b a' x' b' : Value} (ha : (a == a') = true)
    (hx : (x == x') = true) (hb : (b == b') = true) :
    (⟨a, x, b⟩ : Transition) ∈ s.transitions ↔ (⟨a', x', b'⟩ : Transition) ∈ s.transitions :=
  OrderedSet.mem_congr (Transition.beq_iff.mpr ⟨ha, hx, hb⟩)

theorem labels_iff {x : Value} :
    s.labels x = true ↔ ∃ t ∈ s.transitions.items, (t.label == x) = true := by
  rw [labels, List.any_eq_true]

theorem exists_labelled_iff {x : Value} :
    (∃ t ∈ s.transitions.items, (t.label == x) = true) ↔
      ∃ a b, (⟨a, x, b⟩ : Transition) ∈ s.transitions := by
  constructor
  · rintro ⟨t, ht, hlabel⟩
    exact ⟨t.source, t.target, OrderedSet.mem_iff_exists.mpr
      ⟨t, ht, Transition.beq_iff.mpr ⟨BEq.rfl, hlabel, BEq.rfl⟩⟩⟩
  · rintro ⟨a, b, h⟩
    obtain ⟨t, ht, hsame⟩ := OrderedSet.mem_iff_exists.mp h
    exact ⟨t, ht, (Transition.beq_iff.mp hsame).2.1⟩

theorem transitionViolation?_eq_some_iff {t : Transition} {v : Violation} :
    s.transitionViolation? t = some v ↔
      (v = .transitionOutside t ∧ (t.source ∉ s.states ∨ t.target ∉ s.states)) ∨
      (v = .unknownLabel t.label ∧ t.source ∈ s.states ∧ t.target ∈ s.states ∧
        t.label.isEpsilon = false ∧ t.label ∉ s.alphabet) := by
  simp only [OrderedSet.mem_def, transitionViolation?]
  cases s.states.contains t.source <;> cases s.states.contains t.target <;>
    cases t.label.isEpsilon <;> cases s.alphabet.contains t.label <;> simp [eq_comm]

end Shape

/-- What a breach tells of the five sets. -/
def Violation.IsTrueOf (s : Shape) : Violation → Prop
  | .startOutside a => a = s.initial ∧ s.initial ∉ s.states
  | .noStates => s.states.isEmpty = true
  | .epsilonInAlphabet => Value.epsilon ∈ s.alphabet
  | .unusedSymbol x => x ∈ s.alphabet.items ∧ ¬ ∃ a b, (⟨a, x, b⟩ : Transition) ∈ s.transitions
  | .finalOutside f => f ∈ s.finals.items ∧ f ∉ s.states
  | .transitionOutside t =>
    t ∈ s.transitions.items ∧ (t.source ∉ s.states ∨ t.target ∉ s.states)
  | .unknownLabel x => ∃ t ∈ s.transitions.items, x = t.label ∧ t.source ∈ s.states ∧
      t.target ∈ s.states ∧ t.label.isEpsilon = false ∧ t.label ∉ s.alphabet

/-- The invariant with the given number, said directly over the five sets. -/
def Shape.Keeps (s : Shape) : Nat → Prop
  | 1 => s.initial ∈ s.states
  | 2 => ∃ a, a ∈ s.states
  | 3 => Value.epsilon ∉ s.alphabet
  | 4 => ∀ x, x ∈ s.alphabet → ∃ a b, (⟨a, x, b⟩ : Transition) ∈ s.transitions
  | 5 => ∀ f, f ∈ s.finals → f ∈ s.states
  | 6 => ∀ t : Transition, t ∈ s.transitions →
    t.source ∈ s.states ∧ t.target ∈ s.states ∧ (t.label = .epsilon ∨ t.label ∈ s.alphabet)
  | _ => True

namespace Shape

variable {s : Shape}

theorem mem_violations_iff {v : Violation} : v ∈ s.violations ↔ v.IsTrueOf s := by
  simp only [violations, List.mem_append, List.mem_map, List.mem_filter, List.mem_filterMap,
    transitionViolation?_eq_some_iff, List.mem_ite_nil_left, List.mem_ite_nil_right,
    List.mem_singleton, ← OrderedSet.mem_def, OrderedSet.mem_items_sdiff]
  cases v with
  | startOutside a => simp [Violation.IsTrueOf, and_comm]
  | noStates => simp [Violation.IsTrueOf]
  | epsilonInAlphabet => simp [Violation.IsTrueOf]
  | unusedSymbol x => simp [Violation.IsTrueOf, ← labels_iff, ← exists_labelled_iff]
  | finalOutside f => simp [Violation.IsTrueOf]
  | transitionOutside t => simp [Violation.IsTrueOf]
  | unknownLabel x => simp [Violation.IsTrueOf]

theorem not_keeps_number {v : Violation} (h : v.IsTrueOf s) : ¬ s.Keeps v.number := by
  cases v with
  | startOutside a => exact h.2
  | noStates => exact fun ⟨a, ha⟩ => OrderedSet.isEmpty_iff_forall_not_mem.mp h a ha
  | epsilonInAlphabet => exact not_not_intro h
  | unusedSymbol x => exact fun hkeeps => h.2 (hkeeps x (OrderedSet.mem_of_mem_items h.1))
  | finalOutside f => exact fun hkeeps => h.2 (hkeeps f (OrderedSet.mem_of_mem_items h.1))
  | transitionOutside t =>
    obtain ⟨ht, houtside⟩ := h
    intro hkeeps
    obtain ⟨hsource, htarget, -⟩ := hkeeps t (OrderedSet.mem_of_mem_items ht)
    exact houtside.elim (absurd hsource) (absurd htarget)
  | unknownLabel x =>
    obtain ⟨t, ht, -, -, -, hlabel, hunknown⟩ := h
    intro hkeeps
    obtain ⟨-, -, heps | hmem⟩ := hkeeps t (OrderedSet.mem_of_mem_items ht)
    · simp [heps, Value.isEpsilon] at hlabel
    · exact hunknown hmem

theorem exists_isTrueOf {k : Nat} (h : ¬ s.Keeps k) : ∃ v : Violation, v.IsTrueOf s ∧ v.number = k := by
  match k, h with
  | 1, h => exact ⟨.startOutside s.initial, ⟨rfl, h⟩, rfl⟩
  | 2, h =>
    exact ⟨.noStates, OrderedSet.isEmpty_iff_forall_not_mem.mpr (not_exists.mp h), rfl⟩
  | 3, h => exact ⟨.epsilonInAlphabet, not_not.mp h, rfl⟩
  | 4, h =>
    simp only [Keeps, not_forall] at h
    obtain ⟨x, hx, hunused⟩ := h
    obtain ⟨y, hy, hyx⟩ := OrderedSet.mem_iff_exists.mp hx
    refine ⟨.unusedSymbol y, ⟨hy, fun ⟨a, b, hmem⟩ => hunused ⟨a, b, ?_⟩⟩, rfl⟩
    exact (mem_transitions_congr BEq.rfl hyx BEq.rfl).mp hmem
  | 5, h =>
    simp only [Keeps, not_forall] at h
    obtain ⟨f, hf, houtside⟩ := h
    obtain ⟨g, hg, hgf⟩ := OrderedSet.mem_iff_exists.mp hf
    exact ⟨.finalOutside g, ⟨hg, mt (OrderedSet.mem_congr hgf).mp houtside⟩, rfl⟩
  | 6, h =>
    simp only [Keeps, not_forall] at h
    obtain ⟨t, ht, hbreaks⟩ := h
    obtain ⟨u, hu, hut⟩ := OrderedSet.mem_iff_exists.mp ht
    obtain ⟨hsource, hlabel, htarget⟩ := Transition.beq_iff.mp hut
    rw [← OrderedSet.mem_congr hsource, ← OrderedSet.mem_congr htarget, ← Value.isEpsilon_iff,
      ← Value.isEpsilon_congr hlabel, ← OrderedSet.mem_congr hlabel] at hbreaks
    by_cases hjoins : u.source ∈ s.states ∧ u.target ∈ s.states
    · refine ⟨.unknownLabel u.label, ⟨u, hu, rfl, hjoins.1, hjoins.2, ?_, ?_⟩, rfl⟩
      · exact Bool.eq_false_iff.mpr fun heps => hbreaks ⟨hjoins.1, hjoins.2, .inl heps⟩
      · exact fun hmem => hbreaks ⟨hjoins.1, hjoins.2, .inr hmem⟩
    · exact ⟨.transitionOutside u, ⟨hu, not_and_or.mp hjoins⟩, rfl⟩
  | 0, h => exact absurd trivial h
  | k + 7, h => exact absurd trivial h

theorem exists_number_iff (k : Nat) :
    (∃ v ∈ s.violations, v.number = k) ↔ ¬ s.Keeps k := by
  simp only [mem_violations_iff]
  constructor
  · rintro ⟨v, hv, rfl⟩
    exact not_keeps_number hv
  · exact exists_isTrueOf

theorem violations_eq_nil_iff_keeps : s.violations = [] ↔ ∀ k, s.Keeps k := by
  rw [List.eq_nil_iff_forall_not_mem]
  constructor
  · intro h k
    by_contra hfails
    obtain ⟨v, hv, -⟩ := (exists_number_iff k).mpr hfails
    exact h v hv
  · intro h v hv
    exact (exists_number_iff v.number).mp ⟨v, hv, rfl⟩ (h v.number)

theorem sound_iff_keeps : s.Sound ↔ ∀ k, s.Keeps k := by
  constructor
  · rintro ⟨hstart, -, hepsilon, hused, hfinal, hmove⟩ k
    match k with
    | 1 => exact hstart
    | 2 => exact ⟨s.initial, hstart⟩
    | 3 => exact hepsilon
    | 4 => exact fun x hx => exists_labelled_iff.mp (hused x hx)
    | 5 => exact hfinal
    | 6 =>
      intro t ht
      rw [← Value.isEpsilon_iff]
      exact hmove t ht
    | 0 | k + 7 => trivial
  · intro h
    refine ⟨h 1, ?_, h 3, fun x hx => exists_labelled_iff.mpr (h 4 x hx), h 5, fun t ht => ?_⟩
    · rw [Bool.eq_false_iff, ne_eq, OrderedSet.isEmpty_iff_forall_not_mem]
      exact fun hnone => hnone _ (h 1)
    · rw [Value.isEpsilon_iff]
      exact h 6 t ht

theorem violations_eq_nil_iff : s.violations = [] ↔ s.Sound :=
  violations_eq_nil_iff_keeps.trans sound_iff_keeps.symm

theorem Sound.of_beq {s' : Shape} (h : (s' == s) = true) (hs : s.Sound) : s'.Sound := by
  obtain ⟨hstates, halphabet, hinitial, htransitions, hfinals⟩ := beq_iff.mp h
  rw [OrderedSet.beq_iff] at hstates halphabet htransitions hfinals
  have hstart : s'.initial ∈ s'.states :=
    (hstates _).mpr ((OrderedSet.mem_congr hinitial).mpr hs.start_mem)
  refine ⟨hstart, ?_, mt (halphabet _).mp hs.epsilon_not_mem, ?_, ?_, ?_⟩
  · rw [Bool.eq_false_iff]
    exact fun hempty => OrderedSet.isEmpty_iff_forall_not_mem.mp hempty _ hstart
  · intro x hx
    obtain ⟨t, ht, hlabel⟩ := hs.symbol_used x ((halphabet x).mp hx)
    obtain ⟨t', ht', hsame⟩ := OrderedSet.mem_iff_exists.mp
      ((htransitions t).mpr (OrderedSet.mem_of_mem_items ht))
    exact ⟨t', ht', BEq.trans (Transition.beq_iff.mp hsame).2.1 hlabel⟩
  · exact fun f hf => (hstates f).mpr (hs.final_mem f ((hfinals f).mp hf))
  · intro t ht
    rw [hstates, hstates, halphabet]
    exact hs.move_mem t ((htransitions t).mp ht)

end Shape

/-! ## Valid automata -/

/-- An automaton whose invariants hold, whose parts can be looked up, and whose tables hold its
transitions. -/
structure Automaton.Valid (n : Automaton) : Prop where
  sound : n.toShape.Sound
  hashable : n.toShape.Hashable
  epsilonTable : ∀ a d, d ∈ n.epsilonMoves.get.get a ↔ (⟨a, .epsilon, d⟩ : Transition) ∈ n.transitions
  symbolTable : ∀ a x d, x.isEpsilon = false →
    (d ∈ n.symbolMoves.get.get ⟨a, x⟩ ↔ (⟨a, x, d⟩ : Transition) ∈ n.transitions)

/-- The automaton came out of the constructor. -/
def Automaton.Made (n : Automaton) : Prop :=
  ∃ states alphabet initial transitions finals : Value,
    Automaton.ofValues states alphabet initial transitions finals = .ok n

/-- A value that names a state: it can be looked up, and it equals one. -/
structure Automaton.IsState (n : Automaton) (a : Value) : Prop where
  hashable : a.hashable = true
  mem : a ∈ n.states

namespace Automaton

theorem make_eq_ok_iff {s : Shape} {n : Automaton} :
    make s = .ok n ↔ s.Sound ∧ n = .ofShape s := by
  rw [← Shape.violations_eq_nil_iff, make]
  cases s.violations with
  | nil => simp [eq_comm]
  | cons v vs => simp

theorem make_eq_error {s : Shape} (h : s.violations ≠ []) :
    make s = .error (.broken s.violations) := by
  rw [make]
  cases hbroken : s.violations with
  | nil => exact absurd hbroken h
  | cons v vs => rfl

theorem valid_ofShape {s : Shape} (hsound : s.Sound) (hhash : s.Hashable) : (ofShape s).Valid where
  sound := hsound
  hashable := hhash
  epsilonTable _ _ := Shape.mem_epsilonTable
  symbolTable _ _ _ hx := Shape.mem_symbolTable hx

end Automaton

/-! ## The constructor -/

theorem ValueSet.ofValues_eq_ok_iff {xs : List Value} {s : ValueSet} :
    ValueSet.ofValues xs = .ok s ↔ (∀ x ∈ xs, x.hashable = true) ∧ s = .ofList xs := by
  rw [ValueSet.ofValues, ← List.all_eq_true]
  split
  · next hall => simp [hall, eq_comm]
  · next hall => simp [hall]

theorem Transition.ofList_eq_ok_iff {xs : List Value} {t : Transition} :
    Transition.ofList xs = .ok t ↔ xs = [t.source, t.label, t.target] := by
  constructor
  · intro h
    unfold Transition.ofList at h
    split at h
    · obtain rfl := Except.ok.inj h
      rfl
    · cases h
  · rintro rfl
    rfl

/-- Parts make a shape exactly if all of them can be looked up and every transition has three. -/
theorem Shape.ofParts_eq_ok_iff {states alphabet : List Value} {initial : Value}
    {triples : List (List Value)} {finals : List Value} {s : Shape} :
    Shape.ofParts states alphabet initial triples finals = .ok s ↔
      (∀ a ∈ states, a.hashable = true) ∧ (∀ x ∈ alphabet, x.hashable = true) ∧
      (∀ t ∈ triples, t.all Value.hashable = true) ∧ (∀ f ∈ finals, f.hashable = true) ∧
      initial.isSeekable = true ∧
      ∃ ts, triples.mapM Transition.ofList = .ok ts ∧
        s = ⟨.ofList states, .ofList alphabet, initial, .ofList ts, .ofList finals⟩ := by
  have htriples : (triples.any fun t => !t.all Value.hashable) = false ↔
      ∀ t ∈ triples, t.all Value.hashable = true := by simp
  rw [← htriples]
  simp only [ofParts, bind_eq_ok_iff, ValueSet.ofValues_eq_ok_iff]
  constructor
  · rintro ⟨_, ⟨hstates, rfl⟩, _, ⟨halphabet, rfl⟩, h⟩
    split at h
    · cases h
    next hlists =>
    obtain ⟨_, hset, h⟩ := bind_eq_ok_iff.mp h
    obtain ⟨hfinals, rfl⟩ := ValueSet.ofValues_eq_ok_iff.mp hset
    split at h
    · cases h
    next hstart =>
    obtain ⟨ts, hts, h⟩ := bind_eq_ok_iff.mp h
    exact ⟨hstates, halphabet, by simpa using hlists, hfinals, by simpa using hstart, ts, hts,
      (Except.ok.inj h).symm⟩
  · rintro ⟨hstates, halphabet, hlists, hfinals, hstart, ts, hts, rfl⟩
    refine ⟨_, ⟨hstates, rfl⟩, _, ⟨halphabet, rfl⟩, ?_⟩
    simp only [hlists, hstart, hts, ValueSet.ofValues_eq_ok_iff.mpr ⟨hfinals, rfl⟩]
    rfl

theorem Shape.hashable_of_ofParts {states alphabet : List Value} {initial : Value}
    {triples : List (List Value)} {finals : List Value} {s : Shape}
    (h : Shape.ofParts states alphabet initial triples finals = .ok s)
    (hstart : s.initial.hashable = true) : s.Hashable := by
  obtain ⟨hstates, halphabet, htriples, hfinals, -, ts, hts, rfl⟩ := ofParts_eq_ok_iff.mp h
  refine ⟨fun a ha => hstates a (OrderedSet.mem_of_mem_items_ofList ha),
    fun x hx => halphabet x (OrderedSet.mem_of_mem_items_ofList hx), hstart, fun t ht => ?_,
    fun f hf => hfinals f (OrderedSet.mem_of_mem_items_ofList hf)⟩
  obtain ⟨parts, hparts, hmade⟩ := exists_of_mem_mapM hts (OrderedSet.mem_of_mem_items_ofList ht)
  have hall := htriples parts hparts
  rw [Transition.ofList_eq_ok_iff.mp hmade] at hall
  simpa [Transition.hashable, and_assoc] using hall

namespace Automaton

variable {states alphabet initial transitions finals : Value} {s : Shape} {n : Automaton}

theorem ofValues_eq_ok_iff
    (h : Shape.ofValues states alphabet initial transitions finals = .ok s) :
    ofValues states alphabet initial transitions finals = .ok n ↔
      s.Sound ∧ s.initial.hashable = true ∧ n = .ofShape s := by
  simp only [ofValues, bind_eq_ok_iff, make_eq_ok_iff, h, Except.ok.injEq, exists_eq_left']
  constructor
  · rintro ⟨_, ⟨hsound, rfl⟩, hn⟩
    split at hn
    · cases hn
    · next hstart => exact ⟨hsound, by simpa [ofShape] using hstart, (Except.ok.inj hn).symm⟩
  · rintro ⟨hsound, hstart, rfl⟩
    refine ⟨_, ⟨hsound, rfl⟩, ?_⟩
    rw [if_neg (by simpa [ofShape] using hstart)]
    rfl

theorem ofValues_eq_ok (h : Shape.ofValues states alphabet initial transitions finals = .ok s)
    (hsound : s.Sound) (hstart : s.initial.hashable = true) :
    ofValues states alphabet initial transitions finals = .ok (.ofShape s) :=
  (ofValues_eq_ok_iff h).mpr ⟨hsound, hstart, rfl⟩

theorem made_ofShape (states alphabet initial transitions finals : Value)
    (h : Shape.ofValues states alphabet initial transitions finals = .ok s)
    (hs : s.violations = []) (hstart : s.initial.hashable = true) : (ofShape s).Made :=
  ⟨states, alphabet, initial, transitions, finals,
    ofValues_eq_ok h (Shape.violations_eq_nil_iff.mp hs) hstart⟩

theorem Made.exists_shape (h : n.Made) : ∃ s : Shape, s.Sound ∧ s.Hashable ∧ n = .ofShape s := by
  obtain ⟨states, alphabet, initial, transitions, finals, h⟩ := h
  obtain ⟨s, hs, -⟩ := bind_eq_ok_iff.mp h
  obtain ⟨hsound, hstart, rfl⟩ := (ofValues_eq_ok_iff hs).mp h
  simp only [Shape.ofValues, bind_eq_ok_iff] at hs
  obtain ⟨ss, _, xs, _, ts, _, lists, _, fs, _, hparts⟩ := hs
  exact ⟨s, hsound, Shape.hashable_of_ofParts hparts hstart, rfl⟩

theorem Made.valid (h : n.Made) : n.Valid := by
  obtain ⟨s, hsound, hhash, rfl⟩ := h.exists_shape
  exact valid_ofShape hsound hhash

theorem Made.eq_ofShape (h : n.Made) : n = .ofShape n.toShape := by
  obtain ⟨s, -, -, rfl⟩ := h.exists_shape
  rfl

end Automaton

theorem Automaton.Valid.isState_initial {n : Automaton} (hn : n.Valid) : n.IsState n.initial :=
  ⟨hn.hashable.start, hn.sound.start_mem⟩

/-! ## Single moves -/

namespace Automaton

variable {n : Automaton}

theorem mem_epsilonTargets (hn : n.Valid) {a d : Value} :
    d ∈ n.epsilonTargets a ↔ (⟨a, .epsilon, d⟩ : Transition) ∈ n.transitions :=
  hn.epsilonTable a d

theorem mem_targets (hn : n.Valid) {a x d : Value} :
    d ∈ n.targets a x ↔ (⟨a, x, d⟩ : Transition) ∈ n.transitions := by
  unfold targets
  split
  · next hx =>
    rw [Value.eq_epsilon_of_isEpsilon hx]
    exact mem_epsilonTargets hn
  · next hx => exact hn.symbolTable a x d (by simpa using hx)

end Automaton

/-! ## Summaries -/

theorem Shape.summary_eq_ok {s : Shape} (h : ∃ xs, ValueSet.sorted s.finals = .ok xs) :
    ∃ text, s.summary = .ok text := by
  obtain ⟨xs, hxs⟩ := h
  exact ⟨_, by rw [summary, hxs]; rfl⟩

theorem Shape.summary_eq_error {s : Shape} (h : ¬ ValueSet.Comparable s.finals) :
    s.summary = .error .incomparable := by
  rw [summary, ValueSet.sorted_eq_error h]
  rfl

/-! ## The states that an argument names -/

/-- The values that an argument names: the items of a set or list, anything else itself. -/
def Value.named : Value → List Value
  | .set xs => xs
  | .frozenSet xs => xs
  | .list xs => xs
  | a => [a]

theorem Value.named_eq_self {a : Value} (h : a.hashable = true) (hset : a.members? = none) :
    a.named = [a] := by
  cases a with
  | list xs => simp [Value.hashable] at h
  | set xs => cases hset
  | frozenSet xs => cases hset
  | _ => rfl

theorem Value.named_of_members {a : Value} {xs : List Value} (h : a.members? = some xs) :
    a.named = xs := by
  cases a with
  | set ys | frozenSet ys => exact Option.some.inj h
  | _ => cases h

namespace Automaton

variable {n : Automaton}

theorem isState_of_final (hn : n.Valid) {f : Value} (hf : f ∈ n.finals.items) : n.IsState f :=
  ⟨hn.hashable.finals f hf, hn.sound.final_mem f (OrderedSet.mem_of_mem_items hf)⟩

theorem statesOf_eq (a : Value) :
    n.statesOf a = if a.named.all Value.hashable then
        if (OrderedSet.ofList a.named \ n.states).isEmpty then .ok (.ofList a.named)
        else n.summary.bind fun text => .error (.foreignStates (Sorting.sortBy
          (fun a b => decide (a.written < b.written)) (OrderedSet.ofList a.named \ n.states).items)
          text)
      else n.summary.bind fun text => .error (.notState a text) := by
  cases a <;> rfl

theorem statesOf_eq_ok {a : Value} (h : ∀ b ∈ a.named, n.IsState b) :
    n.statesOf a = .ok (.ofList a.named) := by
  have hhash : a.named.all Value.hashable = true :=
    List.all_eq_true.mpr fun b hb => (h b hb).hashable
  have hknown : (OrderedSet.ofList a.named \ n.states).isEmpty = true := by
    rw [OrderedSet.isEmpty_iff_forall_not_mem]
    intro b hb
    obtain ⟨hgiven, hnot⟩ := OrderedSet.mem_sdiff.mp hb
    obtain ⟨c, hc, hcb⟩ := OrderedSet.mem_ofList.mp hgiven
    exact hnot ((OrderedSet.mem_congr hcb).mp (h c hc).mem)
  rw [statesOf_eq, if_pos hhash, if_pos hknown]

theorem exists_refusal {a : Value} (h : ∃ b ∈ a.named, ¬ n.IsState b) :
    ∃ fault : String → Fault, (∀ text, (fault text).family = .invalidState) ∧
      n.statesOf a = n.summary.bind fun text => .error (fault text) := by
  obtain ⟨b, hb, hnot⟩ := h
  rw [statesOf_eq]
  by_cases hhash : a.named.all Value.hashable = true
  · have hbhash := List.all_eq_true.mp hhash b hb
    have hunknown : ¬ (OrderedSet.ofList a.named \ n.states).isEmpty = true := by
      rw [OrderedSet.isEmpty_iff_forall_not_mem]
      intro hnone
      refine hnone b (OrderedSet.mem_sdiff.mpr ⟨OrderedSet.mem_ofList.mpr ⟨b, hb, BEq.rfl⟩, ?_⟩)
      exact fun hmem => hnot ⟨hbhash, hmem⟩
    rw [if_pos hhash, if_neg hunknown]
    exact ⟨_, fun _ => rfl, rfl⟩
  · rw [if_neg hhash]
    exact ⟨_, fun _ => rfl, rfl⟩

theorem statesOf_eq_error {a : Value} (h : ∃ b ∈ a.named, ¬ n.IsState b) :
    ∃ e, n.statesOf a = .error e ∧ (e.family = .invalidState ∨ n.summary = .error e) := by
  obtain ⟨fault, hfamily, hrefused⟩ := exists_refusal h
  rw [hrefused]
  cases n.summary with
  | ok text => exact ⟨fault text, rfl, .inl (hfamily text)⟩
  | error e => exact ⟨e, rfl, .inr rfl⟩

end Automaton

end EpsilonAutomata
