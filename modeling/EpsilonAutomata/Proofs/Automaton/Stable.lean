import EpsilonAutomata.Proofs.Automaton.Document
import EpsilonAutomata.Proofs.Value.Collections

/-!
# Documents of equal automata

Documents are equal when what they hold is (`Value.beq_of_toJson`), so the documents of two equal
automata are equal as far as their lists are in one order. The states of both are: states are ordered by
their values, and equal values compare alike. Labels are ordered by kind first, and a truth value, a
whole number and a double are of three kinds even if they are equal. So the lists of symbols and of
transitions agree exactly when the order of labels puts those of the one automaton as those of the other
(`Automaton.documents_of_equal`), which it does if equal labels are of one kind
(`Shape.SameKinds`), and may fail to do otherwise (`Automaton.documents_of_true_and_one`).
-/

namespace EpsilonAutomata

open Outcome
open Sorting (OrderedAlike)

/-! ## Equal documents -/

theorem Json.asValues_eq_map (js : List Json) : asValues js = js.map asValue := by
  induction js with
  | nil => rfl
  | cons j js ih => rw [asValues, ih, List.map_cons]

namespace Value

variable {a b : Value} {j k : Json} {xs ys : List Value}

theorem scalar?_of_toJson (h : b.toJson = .ok k) : k.asValue.scalar? = b.scalar? :=
  toJson_induction (motive := fun b k => k.asValue.scalar? = b.scalar?) (fun _ => rfl) (fun _ => rfl)
    (fun _ => rfl) (fun _ => rfl) (fun _ _ _ _ => rfl) b k h

theorem beq_asValue_iff_of_scalar {x : Scalar} (ha : a.scalar? = some x) (h : b.toJson = .ok k) :
    (a == k.asValue) = true ↔ (a == b) = true := by
  rw [beq_def, beq_def, same_iff_scalar? ha, same_iff_scalar? ha, scalar?_of_toJson h]

theorem beq_of_toJson (ha : a.toJson = .ok j) (hb : b.toJson = .ok k) :
    (j.asValue == k.asValue) = true ↔ (a == b) = true := by
  refine toJson_induction (motive := fun a j => ∀ b k, b.toJson = .ok k →
    ((j.asValue == k.asValue) = true ↔ (a == b) = true)) (fun _ _ _ => beq_asValue_iff_of_scalar rfl)
    (fun _ _ _ => beq_asValue_iff_of_scalar rfl) (fun _ _ _ => beq_asValue_iff_of_scalar rfl)
    (fun _ _ _ => beq_asValue_iff_of_scalar rfl) (fun xs js hjs ih b k hb => ?_) a j ha b k hb
  have hxs : (tuple xs).toJson = .ok (.array js) := by
    rw [toJson, toJsonAll_eq_mapM, hjs]
    rfl
  cases b with
  | bool _ | int _ | double _ | text _ =>
    obtain rfl := Except.ok.inj hb
    rw [BEq.comm, @BEq.comm _ _ _ (tuple xs)]
    exact beq_asValue_iff_of_scalar rfl hxs
  | tuple ys =>
    obtain ⟨ks, hks, rfl⟩ := toJson_tuple_eq_ok hb
    show (list (Json.asValues js) == list (Json.asValues ks)) = true ↔ _
    rw [Json.asValues_eq_map, Json.asValues_eq_map, list_beq_iff, tuple_beq_iff]
    exact beq_map_of_mapM hjs hks ih
  | _ => simp [toJson] at hb

theorem asValue_eq_null_iff (h : a.labelToJson = .ok j) :
    (null == j.asValue) = true ↔ a.isEpsilon = true := by
  unfold labelToJson at h
  split at h
  · next hepsilon =>
    obtain rfl := Except.ok.inj h
    exact iff_of_true (BEq.rfl : (null == null) = true) hepsilon
  · next hepsilon =>
    refine iff_of_false ?_ hepsilon
    rw [beq_asValue_iff_of_scalar rfl h]
    cases a <;> simp [toJson, beq_def, same, sameScalar, scalar?] at h ⊢

theorem beq_of_labelToJson (ha : a.labelToJson = .ok j) (hb : b.labelToJson = .ok k) :
    (j.asValue == k.asValue) = true ↔ (a == b) = true := by
  cases hepsilon : a.isEpsilon with
  | true =>
    rw [labelToJson, if_pos hepsilon] at ha
    obtain rfl := Except.ok.inj ha
    rw [eq_epsilon_of_isEpsilon hepsilon, @BEq.comm _ _ _ epsilon, beq_epsilon]
    exact asValue_eq_null_iff hb
  | false =>
    cases hepsilon' : b.isEpsilon with
    | true =>
      have hnull := asValue_eq_null_iff ha
      rw [labelToJson, if_pos hepsilon'] at hb
      obtain rfl := Except.ok.inj hb
      rw [BEq.comm, eq_epsilon_of_isEpsilon hepsilon', beq_epsilon]
      exact hnull
    | false =>
      rw [labelToJson, if_neg (by simp [hepsilon])] at ha
      rw [labelToJson, if_neg (by simp [hepsilon'])] at hb
      exact beq_of_toJson ha hb

theorem same_text (s t : String) : same (text s) (text t) = decide (s = t) := by
  rw [Bool.eq_iff_iff, decide_eq_true_eq, same_iff_scalar? rfl]
  simp [scalar?, eq_comm]

end Value

namespace Automaton

variable {t u : Transition} {j k : Json}

theorem beq_of_transitionToJson (ht : transitionToJson t = .ok j) (hu : transitionToJson u = .ok k) :
    (j.asValue == k.asValue) = true ↔ (t == u) = true := by
  obtain ⟨source, label, target, hs, hl, hg, rfl⟩ := transitionToJson_eq_ok ht
  obtain ⟨source', label', target', hs', hl', hg', rfl⟩ := transitionToJson_eq_ok hu
  rw [Transition.beq_iff, ← Value.beq_of_toJson hs hs', ← Value.beq_of_labelToJson hl hl',
    ← Value.beq_of_toJson hg hg']
  show (Value.list _ == Value.list _) = true ↔ _
  rw [Value.list_beq_iff]
  simp [Json.asValues]

variable {states alphabet transitions finals states' alphabet' transitions' finals' : List Json}
  {start start' : Json}

theorem document_beq_iff : ((document states alphabet start transitions finals).asValue ==
      (document states' alphabet' start' transitions' finals').asValue) = true ↔
    (states.map Json.asValue == states'.map Json.asValue) = true ∧
      (alphabet.map Json.asValue == alphabet'.map Json.asValue) = true ∧
      (start.asValue == start'.asValue) = true ∧
      (transitions.map Json.asValue == transitions'.map Json.asValue) = true ∧
      (finals.map Json.asValue == finals'.map Json.asValue) = true := by
  show (Value.mapping _ == Value.mapping _) = true ↔ _
  rw [Value.beq_def, Value.same]
  simp only [fields, Json.asEntries, Json.asValue, Json.asValues_eq_map, ← Value.list_beq_iff,
    Value.beq_def]
  simp [Value.entriesWithin, Value.entryAmong, Value.same_text]

end Automaton

/-! ## Equal automata -/

namespace Shape

/-- Labels of the two shapes that are equal are of one kind. -/
structure SameKinds (s t : Shape) : Prop where
  alphabet : ∀ x ∈ s.alphabet.items, ∀ y ∈ t.alphabet.items, (x == y) = true →
    x.kindRank = y.kindRank
  transitions : ∀ u ∈ s.transitions.items, ∀ v ∈ t.transitions.items, (u.label == v.label) = true →
    u.label.kindRank = v.label.kindRank

variable {s t : Shape} {o o' : Parts}

theorem SameKinds.orderedAlike (h : s.SameKinds t) :
    OrderedAlike Value.labelLt? s.alphabet.items t.alphabet.items ∧
      OrderedAlike Transition.lt? s.transitions.items t.transitions.items := by
  constructor
  · refine Value.labelOrder.orderedAlike fun x hx y hy hxy => ?_
    rw [Value.sameLabel, h.alphabet x hx y hy hxy, hxy, beq_self_eq_true, Bool.and_true]
  · refine Transition.strictOrder.orderedAlike fun u hu v hv huv => ?_
    obtain ⟨hsource, hlabel, htarget⟩ := Transition.beq_iff.mp huv
    rw [Transition.sameInOrder, Value.sameLabel, h.transitions u hu v hv hlabel, hsource, hlabel,
      htarget, beq_self_eq_true, Bool.and_true, Bool.and_true, Bool.and_true]

/-- The parts of two equal shapes, in order: the states are equal item by item, and symbols and
transitions are so exactly if they are put alike. -/
theorem Sorts.beq_iff (h : s.Sorts o) (h' : t.Sorts o') (hs : s.Plain) (ht : t.Plain)
    (hst : (s == t) = true) :
    (o.states == o'.states) = true ∧ (o.initial == o'.initial) = true ∧
      (o.finals == o'.finals) = true ∧
      ((o.alphabet == o'.alphabet) = true ↔
        OrderedAlike Value.labelLt? s.alphabet.items t.alphabet.items) ∧
      ((o.transitions == o'.transitions) = true ↔
        OrderedAlike Transition.lt? s.transitions.items t.transitions.items) := by
  obtain ⟨hstates, halphabet, hinitial, htransitions, hfinals⟩ := Shape.beq_iff.mp hst
  refine ⟨?_, ?_, ?_, ?_, ?_⟩
  · exact (Value.strictOrder.sort?_beq_iff id hs.states ht.states hstates h.states h'.states).mpr
      (Value.strictOrder.orderedAlike fun _ _ _ _ => id)
  · rw [← h.initial, ← h'.initial]
    exact hinitial
  · exact (Value.strictOrder.sort?_beq_iff id hs.finals ht.finals hfinals h.finals h'.finals).mpr
      (Value.strictOrder.orderedAlike fun _ _ _ _ => id)
  · refine Value.labelOrder.sort?_beq_iff (fun hab => ?_) hs.alphabet ht.alphabet halphabet h.alphabet
      h'.alphabet
    exact (Bool.and_eq_true_iff.mp hab).2
  · exact Transition.strictOrder.sort?_beq_iff Transition.beq_of_sameInOrder hs.transitions
      ht.transitions htransitions h.transitions h'.transitions

end Shape

namespace Automaton

variable {n m : Automaton} {d e : Json}

/-- Two equal automata that can be stored have documents with the same states, start and final states.
The documents are equal exactly if the order of labels and that of transitions put the symbols and
transitions of the one automaton as those of the other, and the transitions are listed alike exactly if
the latter does. If equal labels are of one kind, both are so. -/
theorem documents_of_equal (hn : n.Defined) (hm : m.Defined) (h : (n == m) = true)
    (hd : n.toDocument = .ok d) (he : m.toDocument = .ok e) :
    ∃ ts us, n.triples = .ok ts ∧ m.triples = .ok us ∧
      (∀ name ∈ ["states", "start", "final_states"], ∃ j k, d.field? name = some j ∧
        e.field? name = some k ∧ (j.asValue == k.asValue) = true) ∧
      ((d.asValue == e.asValue) = true ↔
        OrderedAlike Value.labelLt? n.alphabet.items m.alphabet.items ∧
          OrderedAlike Transition.lt? n.transitions.items m.transitions.items) ∧
      ((ts == us) = true ↔ OrderedAlike Transition.lt? n.transitions.items m.transitions.items) ∧
      (n.SameKinds m.toShape → (d.asValue == e.asValue) = true ∧ (ts == us) = true) := by
  obtain ⟨o, states, alphabet, start, transitions, finals, hsorts, hstores, rfl⟩ :=
    toDocument_eq_ok_iff.mp hd
  obtain ⟨o', states', alphabet', start', transitions', finals', hsorts', hstores', rfl⟩ :=
    toDocument_eq_ok_iff.mp he
  obtain ⟨hstates, hinitial, hfinals, halphabet, htransitions⟩ :=
    hsorts.beq_iff hsorts' (hsorts.plain hstores hn) (hsorts'.plain hstores' hm) h
  -- each list of the documents is equal to the other exactly if the parts in order are
  have hvalues {xs ys : List Value} {js ks : List Json} (hxs : xs.mapM Value.toJson = .ok js)
      (hys : ys.mapM Value.toJson = .ok ks) :
      (js.map Json.asValue == ks.map Json.asValue) = true ↔ (xs == ys) = true :=
    beq_map_of_mapM hxs hys fun _ _ _ hj _ _ => Value.beq_of_toJson hj
  have hstates' := (hvalues hstores.states hstores'.states).mpr hstates
  have hfinals' := (hvalues hstores.finals hstores'.finals).mpr hfinals
  have hstart := (Value.beq_of_toJson hstores.start hstores'.start).mpr hinitial
  have hmoves : (transitions.map Json.asValue == transitions'.map Json.asValue) = true ↔ _ :=
    (beq_map_of_mapM hstores.transitions hstores'.transitions fun _ _ _ hj _ _ =>
      beq_of_transitionToJson hj).trans htransitions
  have hdocuments : ((document states alphabet start transitions finals).asValue ==
      (document states' alphabet' start' transitions' finals').asValue) = true ↔
        OrderedAlike Value.labelLt? n.alphabet.items m.alphabet.items ∧
          OrderedAlike Transition.lt? n.transitions.items m.transitions.items := by
    rw [document_beq_iff, hvalues hstores.alphabet hstores'.alphabet, halphabet, hmoves]
    exact ⟨fun hall => ⟨hall.2.1, hall.2.2.2.1⟩,
      fun halike => ⟨hstates', halike.1, hstart, halike.2, hfinals'⟩⟩
  refine ⟨o.transitions, o'.transitions, Sorting.sorted_eq_ok_iff.mpr hsorts.transitions,
    Sorting.sorted_eq_ok_iff.mpr hsorts'.transitions, ?_, hdocuments, htransitions, fun hkinds =>
      ⟨hdocuments.mpr hkinds.orderedAlike, htransitions.mpr hkinds.orderedAlike.2⟩⟩
  have hlist {js ks : List Json} (hjs : (js.map Json.asValue == ks.map Json.asValue) = true) :
      ((Json.array js).asValue == (Json.array ks).asValue) = true := by
    rw [Json.asValue, Json.asValue, Json.asValues_eq_map, Json.asValues_eq_map, Value.list_beq_iff]
    exact hjs
  simp only [List.forall_mem_cons]
  exact ⟨⟨_, _, rfl, rfl, hlist hstates'⟩, ⟨_, _, rfl, rfl, hstart⟩,
    ⟨_, _, rfl, rfl, hlist hfinals'⟩, nofun⟩

/-- Two moves side by side, one that reads zero and one that reads the given symbol. -/
def forked (x : Value) : Shape where
  states := .ofList [.int 0, .int 1]
  alphabet := .ofList [.int 0, x]
  initial := .int 0
  transitions := .ofList [⟨.int 0, .int 0, .int 1⟩, ⟨.int 0, x, .int 1⟩]
  finals := .ofList [.int 1]

theorem forked_one_made : (ofShape (forked (.int 1))).Made :=
  made_ofShape (.list [.int 0, .int 1]) (.list [.int 0, .int 1]) (.int 0)
    (.list [.tuple [.int 0, .int 0, .int 1], .tuple [.int 0, .int 1, .int 1]]) (.list [.int 1]) rfl
    (List.isEmpty_iff.mp (by decide +kernel)) rfl

theorem forked_true_made : (ofShape (forked (.bool true))).Made :=
  made_ofShape (.list [.int 0, .int 1]) (.list [.int 0, .bool true]) (.int 0)
    (.list [.tuple [.int 0, .int 0, .int 1], .tuple [.int 0, .bool true, .int 1]]) (.list [.int 1])
    rfl (List.isEmpty_iff.mp (by decide +kernel)) rfl

/-- As a whole number, one comes behind zero. -/
def oneDocument : Json :=
  document [.int 0, .int 1] [.int 0, .int 1] (.int 0)
    [.array [.int 0, .int 0, .int 1], .array [.int 0, .int 1, .int 1]] [.int 1]

/-- As a truth value, one comes before zero. -/
def trueDocument : Json :=
  document [.int 0, .int 1] [.bool true, .int 0] (.int 0)
    [.array [.int 0, .bool true, .int 1], .array [.int 0, .int 0, .int 1]] [.int 1]

theorem toDocument_forked_one : (ofShape (forked (.int 1))).toDocument = .ok oneDocument := by
  with_unfolding_all rfl

theorem toDocument_forked_true : (ofShape (forked (.bool true))).toDocument = .ok trueDocument := by
  with_unfolding_all rfl

theorem forked_defined : (forked (.int 1)).Defined ∧ (forked (.bool true)).Defined :=
  ⟨⟨by decide +kernel, by decide +kernel, by decide +kernel, by decide +kernel, by decide +kernel⟩,
    ⟨by decide +kernel, by decide +kernel, by decide +kernel, by decide +kernel, by decide +kernel⟩⟩

/-- The symbol is a whole number in one automaton and a truth value in the other. -/
theorem documents_of_equal_forked :
    let n := ofShape (forked (.int 1))
    let m := ofShape (forked (.bool true))
    (n.Defined ∧ m.Defined ∧ (n == m) = true ∧ n.toDocument = .ok oneDocument ∧
      m.toDocument = .ok trueDocument) ∧
    ∃ ts us, n.triples = .ok ts ∧ m.triples = .ok us ∧
      (∀ name ∈ ["states", "start", "final_states"], ∃ j k, oneDocument.field? name = some j ∧
        trueDocument.field? name = some k ∧ (j.asValue == k.asValue) = true) ∧
      ((oneDocument.asValue == trueDocument.asValue) = true ↔
        OrderedAlike Value.labelLt? n.alphabet.items m.alphabet.items ∧
          OrderedAlike Transition.lt? n.transitions.items m.transitions.items) ∧
      ((ts == us) = true ↔ OrderedAlike Transition.lt? n.transitions.items m.transitions.items) ∧
      (n.SameKinds m.toShape →
        (oneDocument.asValue == trueDocument.asValue) = true ∧ (ts == us) = true) := by
  intro n m
  have hbeq : (n == m) = true := by decide +kernel
  exact ⟨⟨forked_defined.1, forked_defined.2, hbeq, toDocument_forked_one, toDocument_forked_true⟩,
    documents_of_equal forked_defined.1 forked_defined.2 hbeq toDocument_forked_one
      toDocument_forked_true⟩

/-- These automata are equal, and neither their documents nor the lists of their transitions are. -/
theorem documents_of_true_and_one :
    let n := ofShape (forked (.int 1))
    let m := ofShape (forked (.bool true))
    n.Made ∧ m.Made ∧ n.Defined ∧ m.Defined ∧ (n == m) = true ∧
      (∃ d e, n.toDocument = .ok d ∧ m.toDocument = .ok e ∧ (d.asValue == e.asValue) = false) ∧
      ∃ ts us, n.triples = .ok ts ∧ m.triples = .ok us ∧ (ts == us) = false := by
  intro n m
  refine ⟨forked_one_made, forked_true_made, forked_defined.1, forked_defined.2, by decide +kernel,
    ⟨_, _, toDocument_forked_one, toDocument_forked_true, by decide +kernel⟩,
    [⟨.int 0, .int 0, .int 1⟩, ⟨.int 0, .int 1, .int 1⟩],
    [⟨.int 0, .bool true, .int 1⟩, ⟨.int 0, .int 0, .int 1⟩], ?_, ?_, by decide +kernel⟩
  · with_unfolding_all rfl
  · with_unfolding_all rfl

end Automaton

end EpsilonAutomata
