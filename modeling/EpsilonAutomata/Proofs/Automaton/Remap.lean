import Mathlib.Data.List.Pairwise
import EpsilonAutomata.Automaton.Remap
import EpsilonAutomata.Proofs.Automaton.Runs

/-!
# Renaming states one-to-one

A `Simulation` answers every move of one shape by a move of another that reads the same, so words
accepted by the first are accepted by the second. When states are renamed by a mapping that is one
to one, the mapping is a simulation in both directions: `remap_accepts_iff`. Renaming goes through as
soon as the values that the parts mention have images (`remap_returns_of_mentions`).
-/

namespace EpsilonAutomata

open Outcome

/-! ## Simulations -/

/-- A relation along which the second shape follows the moves of the first. -/
structure Simulation (s t : Shape) (R : Value → Value → Prop) : Prop where
  congr : ∀ {a b c}, (a == b) = true → R a c → R b c
  start : R s.initial t.initial
  move : ∀ {a x b c}, (⟨a, x, b⟩ : Transition) ∈ s.transitions → R a c →
    ∃ d, R b d ∧ (⟨c, x, d⟩ : Transition) ∈ t.transitions
  final : ∀ {f g}, f ∈ s.finals → R f g → g ∈ t.finals

namespace Simulation

variable {s t : Shape} {R : Value → Value → Prop} {a b c : Value} {w : Word}

theorem exists_run (h : Simulation s t R) (run : Run s a w b) (hac : R a c) :
    ∃ d, R b d ∧ Run t c w d := by
  induction run generalizing c with
  | stop same => exact ⟨c, h.congr same hac, .refl⟩
  | skip move _ ih =>
    obtain ⟨k, hk, hmove⟩ := h.move move hac
    obtain ⟨d, hd, hrest⟩ := ih hk
    exact ⟨d, hd, .skip hmove hrest⟩
  | read symbol move _ ih =>
    obtain ⟨k, hk, hmove⟩ := h.move move hac
    obtain ⟨d, hd, hrest⟩ := ih hk
    exact ⟨d, hd, .read symbol hmove hrest⟩

theorem accepts (h : Simulation s t R) (hw : s.Accepts w) : t.Accepts w := by
  obtain ⟨f, hf, run⟩ := hw
  obtain ⟨g, hfg, run'⟩ := h.exists_run run h.start
  exact ⟨g, h.final hf hfg, run'⟩

end Simulation

/-- Every part of the first shape has a counterpart in the second. -/
structure Covers (s t : Shape) (R : Value → Value → Prop) : Prop where
  start : R s.initial t.initial
  move : ∀ {a x b}, (⟨a, x, b⟩ : Transition) ∈ s.transitions →
    ∃ c d, R a c ∧ R b d ∧ (⟨c, x, d⟩ : Transition) ∈ t.transitions
  final : ∀ {f}, f ∈ s.finals → ∃ g, R f g ∧ g ∈ t.finals

theorem Covers.simulation {s t : Shape} {R : Value → Value → Prop} (h : Covers s t R)
    (congr : ∀ {a b c}, (a == b) = true → R a c → R b c)
    (unique : ∀ {a c d}, R a c → R a d → (c == d) = true) : Simulation s t R where
  congr := congr
  start := h.start
  move := by
    intro a x b c hmove hac
    obtain ⟨c', d, hac', hbd, hmove'⟩ := h.move hmove
    have hcc := unique hac' hac
    exact ⟨d, hbd, (Shape.mem_transitions_congr hcc BEq.rfl BEq.rfl).mp hmove'⟩
  final := by
    intro f g hf hfg
    obtain ⟨g', hfg', hg'⟩ := h.final hf
    exact (OrderedSet.mem_congr (unique hfg' hfg)).mp hg'

/-! ## Mappings -/

namespace Mapping

variable {m : Mapping} {a a' b b' : Value}

/-- The mapping has an entry from the one value to the other. -/
def Sends (m : Mapping) (a b : Value) : Prop :=
  ∃ e ∈ m.entries, (e.1 == a) = true ∧ (e.2 == b) = true

/-- The mapping has an entry for the value. -/
def Defines (m : Mapping) (a : Value) : Prop :=
  ∃ e ∈ m.entries, (e.1 == a) = true

/-- No two keys are equal, and no two images are. -/
structure OneToOne (m : Mapping) : Prop where
  keys : m.entries.Pairwise fun d e => (d.1 == e.1) = false
  images : m.entries.Pairwise fun d e => (d.2 == e.2) = false

theorem defines_iff_of_keys {xs : List Value} (h : m.entries.map (·.1) = xs) :
    m.Defines a ↔ ∃ b ∈ xs, (b == a) = true := by
  rw [← h]
  simp only [Defines, List.mem_map, exists_exists_and_eq_and]

theorem Defines.congr (h : m.Defines a) (ha : (a == a') = true) : m.Defines a' := by
  obtain ⟨e, he, hkey⟩ := h
  exact ⟨e, he, BEq.trans hkey ha⟩

theorem Defines.exists_sends (h : m.Defines a) : ∃ b, m.Sends a b := by
  obtain ⟨e, he, hkey⟩ := h
  exact ⟨e.2, e, he, hkey, BEq.rfl⟩

theorem Sends.defines (h : m.Sends a b) : m.Defines a := by
  obtain ⟨e, he, hkey, -⟩ := h
  exact ⟨e, he, hkey⟩

theorem Sends.congr (h : m.Sends a b) (ha : (a == a') = true) (hb : (b == b') = true) :
    m.Sends a' b' := by
  obtain ⟨e, he, hkey, himage⟩ := h
  exact ⟨e, he, BEq.trans hkey ha, BEq.trans himage hb⟩

theorem eq_of_part_eq {part : Value × Value → Value}
    (h : m.entries.Pairwise fun d e => (part d == part e) = false) {d e : Value × Value}
    (hd : d ∈ m.entries) (he : e ∈ m.entries) (hde : (part d == part e) = true) : d = e := by
  have : Std.Symm fun d e => (part d == part e) = false := ⟨fun d e hne => by rw [BEq.comm, hne]⟩
  by_contra hne
  rw [h.forall hd he hne] at hde
  cases hde

theorem image_unique (hkeys : m.entries.Pairwise fun d e => (d.1 == e.1) = false)
    (hb : m.Sends a b) (hb' : m.Sends a b') : (b == b') = true := by
  obtain ⟨d, hd, hkey, himage⟩ := hb
  obtain ⟨e, he, hkey', himage'⟩ := hb'
  obtain rfl := eq_of_part_eq hkeys hd he (BEq.trans hkey (BEq.symm hkey'))
  exact BEq.trans (BEq.symm himage) himage'

theorem OneToOne.key_unique (h : m.OneToOne) (ha : m.Sends a b) (ha' : m.Sends a' b) :
    (a == a') = true := by
  obtain ⟨d, hd, hkey, himage⟩ := ha
  obtain ⟨e, he, hkey', himage'⟩ := ha'
  obtain rfl := eq_of_part_eq h.images hd he (BEq.trans himage (BEq.symm himage'))
  exact BEq.trans (BEq.symm hkey) hkey'

theorem exists_entry_of_get {v : Value} (h : m.get a = .ok v) :
    a.hashable = true ∧ ∃ e ∈ m.entries, (e.1 == a) = true ∧ e.2 = v := by
  unfold get at h
  split at h
  · cases h
  next hhash =>
  refine ⟨by simpa using hhash, ?_⟩
  split at h
  · next u hu =>
    obtain rfl := Except.ok.inj h
    obtain ⟨e, he, rfl⟩ := Option.map_eq_some_iff.mp hu
    have hkey := List.find?_some he
    exact ⟨e, List.mem_of_find?_eq_some he, hkey, rfl⟩
  · cases h

theorem sends_of_get {v : Value} (h : m.get a = .ok v) : m.Sends a v := by
  obtain ⟨-, e, he, hkey, rfl⟩ := exists_entry_of_get h
  exact ⟨e, he, hkey, BEq.rfl⟩

theorem mem_values_of_get {v : Value} (h : m.get a = .ok v) : v ∈ m.values := by
  obtain ⟨-, e, he, -, rfl⟩ := exists_entry_of_get h
  exact List.mem_map.mpr ⟨e, he, rfl⟩

theorem get_of_key (ha : a.hashable = true) (hkey : m.Defines a) : ∃ v, m.get a = .ok v := by
  have hfound : (m.entries.find? fun e => e.1 == a).isSome = true := by
    rw [List.find?_isSome]
    exact hkey
  obtain ⟨e, he⟩ := Option.isSome_iff_exists.mp hfound
  exact ⟨e.2, by rw [get, if_neg (by simp [ha]), get?, he]; rfl⟩

theorem onTransition_eq_ok {t u : Transition} (h : m.onTransition t = .ok u) :
    m.get t.source = .ok u.source ∧ u.label = t.label ∧ m.get t.target = .ok u.target := by
  simp only [onTransition, bind_eq_ok_iff, pure_eq_ok_iff] at h
  obtain ⟨c, hc, d, hd, rfl⟩ := h
  exact ⟨hc, rfl, hd⟩

theorem setEntry_of_new {k v : Value} {es : List (Value × Value)}
    (h : ∀ e ∈ es, (e.1 == k) = false) : setEntry k v es = es ++ [(k, v)] := by
  induction es with
  | nil => rfl
  | cons e es ih =>
    obtain ⟨k', v'⟩ := e
    have hk : (k' == k) = false := h _ List.mem_cons_self
    rw [setEntry, if_neg (by simp [hk]), ih fun e he => h e (List.mem_cons_of_mem _ he)]
    rfl

theorem ofList_of_distinct {es : List (Value × Value)}
    (h : es.Pairwise fun d e => (d.1 == e.1) = false) : ofList es = ⟨es⟩ := by
  -- the entries set so far, followed by the rest, are all of them
  have hset (done : List (Value × Value))
      (hdone : (done ++ es).Pairwise fun d e => (d.1 == e.1) = false) :
      es.foldl (fun m e => m.set e.1 e.2) ⟨done⟩ = (⟨done ++ es⟩ : Mapping) := by
    clear h
    induction es generalizing done with
    | nil => simp
    | cons e es ih =>
      have hnew : ∀ d ∈ done, (d.1 == e.1) = false := by
        intro d hd
        exact (List.pairwise_append.mp hdone).2.2 d hd e List.mem_cons_self
      rw [List.foldl_cons, set, setEntry_of_new hnew]
      have := ih (done ++ [e]) (by simpa using hdone)
      simpa using this
  exact hset [] (by simpa using h)

theorem mem_values_setEntry {k v w : Value} {es : List (Value × Value)}
    (h : w ∈ (setEntry k v es).map (·.2)) : w ∈ es.map (·.2) ∨ w = v := by
  induction es with
  | nil => exact .inr (List.mem_singleton.mp h)
  | cons e es ih =>
    obtain ⟨k', v'⟩ := e
    rw [setEntry] at h
    rw [List.map_cons, List.mem_cons]
    split at h
    · rcases List.mem_cons.mp h with rfl | h
      · exact .inr rfl
      · exact .inl (.inr h)
    · rcases List.mem_cons.mp h with rfl | h
      · exact .inl (.inl rfl)
      · exact (ih h).imp_left .inr

theorem exists_of_mem_values_ofList {es : List (Value × Value)} {w : Value}
    (h : w ∈ (ofList es).values) : ∃ e ∈ es, e.2 = w := by
  revert w
  refine List.foldlRecOn (motive := fun m : Mapping => ∀ {w}, w ∈ m.values → ∃ e ∈ es, e.2 = w)
    es _ ?_ ?_
  · intro w hw
    cases hw
  · intro m ih e he w hw
    rcases mem_values_setEntry hw with hw | rfl
    · exact ih hw
    · exact ⟨e, he, rfl⟩

end Mapping

/-! ## Renaming -/

/-- The value is the start, an end of a transition or a final state. Other states are in no part of the
shape but the set of states. -/
inductive Shape.Mentions (s : Shape) (a : Value) : Prop where
  | start (same : (s.initial == a) = true)
  | source {x b : Value} (move : (⟨a, x, b⟩ : Transition) ∈ s.transitions)
  | target {x b : Value} (move : (⟨b, x, a⟩ : Transition) ∈ s.transitions)
  | final (mem : a ∈ s.finals)

theorem Shape.Mentions.mem_states {s : Shape} {a : Value} (h : s.Mentions a) (hs : s.Sound) :
    a ∈ s.states := by
  cases h with
  | start same => exact (OrderedSet.mem_congr same).mp hs.start_mem
  | source move => exact (hs.move_mem _ move).1
  | target move => exact (hs.move_mem _ move).2.1
  | final mem => exact hs.final_mem a mem

namespace Automaton

variable {n r : Automaton} {m : Mapping}

theorem remap_eq_ok (h : n.remap m = .ok r) :
    ∃ initial ts fs, m.get n.initial = .ok initial ∧ (∀ v ∈ m.values, v.hashable = true) ∧
      n.transitions.items.mapM m.onTransition = .ok ts ∧ n.finals.items.mapM m.get = .ok fs ∧
      r.Sound ∧
      r = .ofShape ⟨.ofList m.values, n.alphabet, initial, .ofList ts, .ofList fs⟩ := by
  simp only [remap, bind_eq_ok_iff] at h
  obtain ⟨initial, hinitial, states, hstates, ts, hts, fs, hfs, hmake⟩ := h
  obtain ⟨himages, rfl⟩ := ValueSet.ofValues_eq_ok_iff.mp hstates
  obtain ⟨hsound, rfl⟩ := make_eq_ok_iff.mp hmake
  exact ⟨initial, ts, fs, hinitial, himages, hts, hfs, hsound, rfl⟩

theorem renumber_result (n : Automaton) (base : Value) (log : Log) :
    ((n.renumber base).runWith log).1 =
      ValueSet.sorted n.states >>= fun inOrder => numbering base inOrder >>= n.remap := by
  rw [renumber]
  simp only [Logged.fst_runWith_quiet_bind]
  congr! with inOrder numbers
  obtain ⟨after, hreport⟩ := Logged.runWith_report (fun _ => .ok ("Renumbering " ++
    Value.writtenInt numbers.entries.length ++ " states from " ++ base.shown)) rfl log
  rw [Logged.runWith_bind_ok hreport]
  rfl

theorem valid_of_remap (hn : n.Valid) (h : n.remap m = .ok r) : r.Valid := by
  obtain ⟨initial, ts, fs, hinitial, himages, hts, hfs, hsound, rfl⟩ := remap_eq_ok h
  have himage {a v : Value} (hv : m.get a = .ok v) : v.hashable = true :=
    himages v (Mapping.mem_values_of_get hv)
  refine valid_ofShape hsound
    ⟨?_, hn.hashable.alphabet, himage hinitial, ?_, ?_⟩
  · intro a ha
    exact himages a (OrderedSet.mem_of_mem_items_ofList ha)
  · intro u hu
    obtain ⟨t, ht, htu⟩ := exists_of_mem_mapM hts (OrderedSet.mem_of_mem_items_ofList hu)
    obtain ⟨hsource, hlabel, htarget⟩ := Mapping.onTransition_eq_ok htu
    have htlabel := hn.hashable.transitions t ht
    simp only [Transition.hashable, Bool.and_eq_true] at htlabel ⊢
    rw [hlabel]
    exact ⟨⟨himage hsource, htlabel.1.2⟩, himage htarget⟩
  · intro g hg
    obtain ⟨f, _, hfg⟩ := exists_of_mem_mapM hfs (OrderedSet.mem_of_mem_items_ofList hg)
    exact himage hfg

theorem sound_remap (hn : n.Valid) {initial : Value} {ts : List Transition} {fs : List Value}
    (hinitial : m.get n.initial = .ok initial)
    (hts : n.transitions.items.mapM m.onTransition = .ok ts)
    (hfs : n.finals.items.mapM m.get = .ok fs) :
    Shape.Sound ⟨.ofList m.values, n.alphabet, initial, .ofList ts, .ofList fs⟩ := by
  have himage {a v : Value} (hv : m.get a = .ok v) : v ∈ OrderedSet.ofList m.values :=
    OrderedSet.mem_ofList.mpr ⟨v, Mapping.mem_values_of_get hv, BEq.rfl⟩
  refine ⟨himage hinitial, ?_, hn.sound.epsilon_not_mem, ?_, ?_, ?_⟩
  · rw [Bool.eq_false_iff]
    exact fun hempty =>
      OrderedSet.isEmpty_iff_forall_not_mem.mp hempty initial (himage hinitial)
  · intro x hx
    obtain ⟨t, ht, htx⟩ := hn.sound.symbol_used x hx
    obtain ⟨u, hu, htu⟩ := exists_mem_of_mapM hts ht
    have hmem : u ∈ OrderedSet.ofList ts := OrderedSet.mem_ofList.mpr ⟨u, hu, BEq.rfl⟩
    obtain ⟨u', hu', huu⟩ := OrderedSet.mem_iff_exists.mp hmem
    have hlabel := (Transition.beq_iff.mp huu).2.1
    rw [(Mapping.onTransition_eq_ok htu).2.1] at hlabel
    exact ⟨u', hu', BEq.trans hlabel htx⟩
  · intro g hg
    obtain ⟨g', hg', hgg⟩ := OrderedSet.mem_ofList.mp hg
    obtain ⟨f, _, hfg⟩ := exists_of_mem_mapM hfs hg'
    exact (OrderedSet.mem_congr hgg).mp (himage hfg)
  · intro u hu
    obtain ⟨u', hu', huu⟩ := OrderedSet.mem_ofList.mp hu
    obtain ⟨hsource, hlabel, htarget⟩ := Transition.beq_iff.mp huu
    obtain ⟨t, ht, htu⟩ := exists_of_mem_mapM hts hu'
    obtain ⟨hs, hl, he⟩ := Mapping.onTransition_eq_ok htu
    rw [hl] at hlabel
    refine ⟨(OrderedSet.mem_congr hsource).mp (himage hs),
      (OrderedSet.mem_congr htarget).mp (himage he), ?_⟩
    rw [← Value.isEpsilon_congr hlabel, ← OrderedSet.mem_congr hlabel]
    exact (hn.sound.move_mem t (OrderedSet.mem_of_mem_items ht)).2.2

/-- Renaming goes through if every value that the parts mention has an image and the images can be
members of a set. -/
theorem remap_returns_of_mentions (hn : n.Valid) (hkeys : ∀ a, n.Mentions a → m.Defines a)
    (himages : ∀ v ∈ m.values, v.hashable = true) : ∃ r, n.remap m = .ok r := by
  obtain ⟨initial, hinitial⟩ := Mapping.get_of_key hn.hashable.start (hkeys _ (.start BEq.rfl))
  have hmoves : ∀ t ∈ n.transitions.items, ∃ u, m.onTransition t = .ok u := by
    intro t ht
    have hhash := hn.hashable.transitions t ht
    simp only [Transition.hashable, Bool.and_eq_true] at hhash
    have hmove := OrderedSet.mem_of_mem_items ht
    obtain ⟨source, hs⟩ := Mapping.get_of_key hhash.1.1 (hkeys _ (.source hmove))
    obtain ⟨target, ht⟩ := Mapping.get_of_key hhash.2 (hkeys _ (.target hmove))
    exact ⟨⟨source, t.label, target⟩, by rw [Mapping.onTransition, hs, ht]; rfl⟩
  have hends : ∀ f ∈ n.finals.items, ∃ v, m.get f = .ok v := by
    intro f hf
    exact Mapping.get_of_key (hn.hashable.finals f hf)
      (hkeys f (.final (OrderedSet.mem_of_mem_items hf)))
  obtain ⟨ts, hts⟩ := exists_mapM hmoves
  obtain ⟨fs, hfs⟩ := exists_mapM hends
  refine ⟨.ofShape ⟨.ofList m.values, n.alphabet, initial, .ofList ts, .ofList fs⟩, ?_⟩
  rw [remap, hinitial, ValueSet.ofValues_eq_ok_iff.mpr ⟨himages, rfl⟩, hts, hfs]
  exact make_eq_ok_iff.mpr ⟨sound_remap hn hinitial hts hfs, rfl⟩

theorem remap_returns (hn : n.Valid) (hkeys : ∀ a, a ∈ n.states → m.Defines a)
    (himages : ∀ v ∈ m.values, v.hashable = true) : ∃ r, n.remap m = .ok r :=
  remap_returns_of_mentions hn (fun a ha => hkeys a (ha.mem_states hn.sound)) himages

theorem mem_states_of_remap (h : n.remap m = .ok r) {a : Value} :
    a ∈ r.states ↔ ∃ e ∈ m.entries, (e.2 == a) = true := by
  obtain ⟨initial, ts, fs, -, -, -, -, -, rfl⟩ := remap_eq_ok h
  show a ∈ OrderedSet.ofList (m.entries.map (·.2)) ↔ _
  rw [OrderedSet.mem_ofList]
  constructor
  · rintro ⟨v, hv, hva⟩
    obtain ⟨e, he, rfl⟩ := List.mem_map.mp hv
    exact ⟨e, he, hva⟩
  · rintro ⟨e, he, hea⟩
    exact ⟨e.2, List.mem_map.mpr ⟨e, he, rfl⟩, hea⟩

theorem covers_remap (h : n.remap m = .ok r) : Covers n.toShape r.toShape m.Sends := by
  obtain ⟨initial, ts, fs, hinitial, -, hts, hfs, -, rfl⟩ := remap_eq_ok h
  refine ⟨Mapping.sends_of_get hinitial, ?_, ?_⟩
  · intro a x b hmove
    obtain ⟨t, ht, hta⟩ := OrderedSet.mem_iff_exists.mp hmove
    obtain ⟨ha, hx, hb⟩ := Transition.beq_iff.mp hta
    obtain ⟨u, hu, htu⟩ := exists_mem_of_mapM hts ht
    obtain ⟨hsource, hlabel, htarget⟩ := Mapping.onTransition_eq_ok htu
    refine ⟨u.source, u.target, (Mapping.sends_of_get hsource).congr ha BEq.rfl,
      (Mapping.sends_of_get htarget).congr hb BEq.rfl, ?_⟩
    refine OrderedSet.mem_ofList.mpr ⟨u, hu, Transition.beq_iff.mpr ⟨BEq.rfl, ?_, BEq.rfl⟩⟩
    rw [hlabel]
    exact hx
  · intro f hf
    obtain ⟨f', hf', hff⟩ := OrderedSet.mem_iff_exists.mp hf
    obtain ⟨g, hg, hfg⟩ := exists_mem_of_mapM hfs hf'
    exact ⟨g, (Mapping.sends_of_get hfg).congr hff BEq.rfl,
      OrderedSet.mem_ofList.mpr ⟨g, hg, BEq.rfl⟩⟩

theorem covers_of_remap (h : n.remap m = .ok r) :
    Covers r.toShape n.toShape fun c a => m.Sends a c := by
  obtain ⟨initial, ts, fs, hinitial, -, hts, hfs, -, rfl⟩ := remap_eq_ok h
  refine ⟨Mapping.sends_of_get hinitial, ?_, ?_⟩
  · intro c x d hmove
    obtain ⟨u, hu, huc⟩ := OrderedSet.mem_ofList.mp hmove
    obtain ⟨hc, hx, hd⟩ := Transition.beq_iff.mp huc
    obtain ⟨t, ht, htu⟩ := exists_of_mem_mapM hts hu
    obtain ⟨hsource, hlabel, htarget⟩ := Mapping.onTransition_eq_ok htu
    refine ⟨t.source, t.target, (Mapping.sends_of_get hsource).congr BEq.rfl hc,
      (Mapping.sends_of_get htarget).congr BEq.rfl hd, ?_⟩
    refine OrderedSet.mem_iff_exists.mpr ⟨t, ht, Transition.beq_iff.mpr ⟨BEq.rfl, ?_, BEq.rfl⟩⟩
    rw [← hlabel]
    exact hx
  · intro g hg
    obtain ⟨g', hg', hgg⟩ := OrderedSet.mem_ofList.mp hg
    obtain ⟨f, hf, hfg⟩ := exists_of_mem_mapM hfs hg'
    exact ⟨f, (Mapping.sends_of_get hfg).congr BEq.rfl hgg, OrderedSet.mem_of_mem_items hf⟩

theorem simulation_remap (hkeys : m.entries.Pairwise fun d e => (d.1 == e.1) = false)
    (h : n.remap m = .ok r) : Simulation n.toShape r.toShape m.Sends :=
  (covers_remap h).simulation (fun hab hac => hac.congr hab BEq.rfl) (Mapping.image_unique hkeys)

theorem simulation_of_remap (hm : m.OneToOne) (h : n.remap m = .ok r) :
    Simulation r.toShape n.toShape fun c a => m.Sends a c :=
  (covers_of_remap h).simulation (fun hcd hac => hac.congr BEq.rfl hcd) hm.key_unique

theorem remap_accepts_iff (hm : m.OneToOne) (h : n.remap m = .ok r) (w : Word) :
    r.Accepts w ↔ n.Accepts w :=
  ⟨(simulation_of_remap hm h).accepts, (simulation_remap hm.keys h).accepts⟩

end Automaton

end EpsilonAutomata
