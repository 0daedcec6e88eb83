import EpsilonAutomata.Automaton.Document
import EpsilonAutomata.Proofs.Automaton.Valid
import EpsilonAutomata.Proofs.Value.Order

/-!
# Documents hold automata without loss

A value that a document can hold reads back as itself (`Value.toValue_of_toJson`), a label too. The
parts of an automaton that is read back are those it was stored with, in the order of the document
(`Automaton.ofDocument_of_stores`). In whatever order the parts are kept, they are sorted in one way
before they are stored; this takes that no undefined number is among them (`Shape.Sorts.of_rearranged`).
So an automaton that is read from a document equals the one that was stored, and has the same document
(`Automaton.ofDocument_toDocument`).
-/

namespace EpsilonAutomata

open Outcome

theorem Json.toValues_eq_map (js : List Json) : toValues js = js.map toValue := by
  induction js with
  | nil => rfl
  | cons j js ih => rw [toValues, ih, List.map_cons]

/-! ## Values -/

namespace Value

mutual

/-- The value holds no undefined number. -/
def isDefined : Value → Bool
  | double (.undefined _) => false
  | tuple xs => allDefined xs
  | list xs => allDefined xs
  | set xs => allDefined xs
  | frozenSet xs => allDefined xs
  | mapping es => entriesDefined es
  | _ => true

def allDefined : List Value → Bool
  | [] => true
  | x :: xs => isDefined x && allDefined xs

def entriesDefined : List (Value × Value) → Bool
  | [] => true
  | (k, v) :: es => isDefined k && isDefined v && entriesDefined es

end

theorem allDefined_eq_all (xs : List Value) : allDefined xs = xs.all isDefined := by
  induction xs with
  | nil => rfl
  | cons x xs ih => rw [allDefined, ih, List.all_cons]

theorem toJsonAll_eq_mapM (xs : List Value) : toJsonAll xs = xs.mapM toJson := by
  induction xs with
  | nil => rfl
  | cons x xs ih => rw [toJsonAll, ih, List.mapM_cons]

theorem toJson_tuple_eq_ok {xs : List Value} {j : Json} (h : (tuple xs).toJson = .ok j) :
    ∃ js, xs.mapM toJson = .ok js ∧ j = .array js := by
  rw [toJson, toJsonAll_eq_mapM] at h
  obtain ⟨js, hjs, hj⟩ := bind_eq_ok_iff.mp h
  exact ⟨js, hjs, (pure_eq_ok_iff.mp hj).symm⟩

/-- Only truth values, numbers, text and tuples can be stored, and a tuple is stored item by item. -/
theorem toJson_induction {motive : Value → Json → Prop} (bool : ∀ b, motive (.bool b) (.bool b))
    (int : ∀ i, motive (.int i) (.int i)) (double : ∀ x, motive (.double x) (.double x))
    (text : ∀ s, motive (.text s) (.text s))
    (tuple : ∀ xs js, xs.mapM toJson = .ok js →
      (∀ x ∈ xs, ∀ j, x.toJson = .ok j → motive x j) → motive (.tuple xs) (.array js))
    (a : Value) (j : Json) (h : a.toJson = .ok j) : motive a j := by
  match a with
  | .bool b =>
    obtain rfl : .bool b = j := by simpa [toJson] using h
    exact bool b
  | .int i =>
    obtain rfl : .int i = j := by simpa [toJson] using h
    exact int i
  | .double x =>
    obtain rfl : .double x = j := by simpa [toJson] using h
    exact double x
  | .text s =>
    obtain rfl : .text s = j := by simpa [toJson] using h
    exact text s
  | .tuple xs =>
    obtain ⟨js, hjs, rfl⟩ := toJson_tuple_eq_ok h
    exact tuple xs js hjs fun x hx k hk => toJson_induction bool int double text tuple x k hk
  | .null | .list _ | .set _ | .frozenSet _ | .mapping _ | .epsilon | .marker _ _ =>
    simp [toJson] at h
termination_by sizeOf a
decreasing_by
  simp_wf
  exact Nat.lt_trans (List.sizeOf_lt_of_mem hx) (by omega)

theorem toJson_ne_null {a : Value} {j : Json} (h : a.toJson = .ok j) : j ≠ .null :=
  toJson_induction (motive := fun _ j => j ≠ .null) nofun nofun nofun nofun (fun _ _ _ _ => nofun) a j h

theorem toValue_of_toJson {a : Value} {j : Json} (h : a.toJson = .ok j) : j.toValue = a := by
  refine toJson_induction (motive := fun a j => j.toValue = a) (fun _ => rfl) (fun _ => rfl)
    (fun _ => rfl) (fun _ => rfl) (fun xs js hjs ih => ?_) a j h
  rw [Json.toValue, Json.toValues_eq_map, map_of_mapM hjs ih]

theorem plain_of_toJson {a : Value} {j : Json} (h : a.toJson = .ok j) (hdefined : a.isDefined = true) :
    a.Plain := by
  refine toJson_induction (motive := fun a _ => a.isDefined = true → a.Plain)
    (fun b _ => .scalar rfl trivial) (fun i _ => .scalar rfl trivial) (fun x hx => ?_)
    (fun s _ => .scalar rfl trivial) (fun xs js hjs ih hxs => ?_) a j h hdefined
  · refine .scalar rfl ?_
    cases x with
    | undefined tag => cases hx
    | _ => trivial
  · rw [isDefined, allDefined_eq_all, List.all_eq_true] at hxs
    refine .tuple fun x hx => ?_
    obtain ⟨k, -, hk⟩ := exists_mem_of_mapM hjs hx
    exact ih x hx k hk (hxs x hx)

/-- A label reads back as itself: only the empty move is stored as null. -/
theorem toLabel_of_labelToJson {a : Value} {j : Json} (h : a.labelToJson = .ok j) : j.toLabel = a := by
  unfold labelToJson at h
  split at h
  · next hepsilon =>
    obtain rfl := Except.ok.inj h
    exact (eq_epsilon_of_isEpsilon hepsilon).symm
  · have hvalue : j.toLabel = j.toValue := by
      cases j with
      | null => exact absurd rfl (toJson_ne_null h)
      | _ => rfl
    rw [hvalue, toValue_of_toJson h]

theorem plain_of_labelToJson {a : Value} {j : Json} (h : a.labelToJson = .ok j)
    (hdefined : a.isDefined = true) : a.Plain := by
  unfold labelToJson at h
  split at h
  · next hepsilon =>
    rw [eq_epsilon_of_isEpsilon hepsilon]
    exact .scalar rfl trivial
  · exact plain_of_toJson h hdefined

end Value

/-! ## The same parts in another order -/

namespace Shape

/-- The two shapes have the same parts, kept in orders of their own. -/
structure Rearranged (s t : Shape) : Prop where
  states : s.states.items.Perm t.states.items
  alphabet : s.alphabet.items.Perm t.alphabet.items
  initial : s.initial = t.initial
  transitions : s.transitions.items.Perm t.transitions.items
  finals : s.finals.items.Perm t.finals.items

variable {s t u : Shape}

theorem Rearranged.trans (hst : s.Rearranged t) (htu : t.Rearranged u) : s.Rearranged u where
  states := hst.states.trans htu.states
  alphabet := hst.alphabet.trans htu.alphabet
  initial := hst.initial.trans htu.initial
  transitions := hst.transitions.trans htu.transitions
  finals := hst.finals.trans htu.finals

theorem mem_perm {α : Type} [BEq α] {s t : OrderedSet α} (h : s.items.Perm t.items) (a : α) :
    a ∈ s ↔ a ∈ t := by
  simp only [OrderedSet.mem_iff_exists, h.mem_iff]

theorem Rearranged.beq (h : s.Rearranged t) : (s == t) = true :=
  Shape.beq_iff.mpr ⟨OrderedSet.beq_iff.mpr (mem_perm h.states),
    OrderedSet.beq_iff.mpr (mem_perm h.alphabet), h.initial ▸ BEq.rfl,
    OrderedSet.beq_iff.mpr (mem_perm h.transitions), OrderedSet.beq_iff.mpr (mem_perm h.finals)⟩

theorem Rearranged.sound (h : s.Rearranged t) (ht : t.Sound) : s.Sound where
  start_mem := by
    rw [h.initial, mem_perm h.states]
    exact ht.start_mem
  has_state := by
    rw [Bool.eq_false_iff]
    intro hempty
    have hnone := OrderedSet.isEmpty_iff_forall_not_mem.mp hempty t.initial
    exact hnone ((mem_perm h.states _).mpr ht.start_mem)
  epsilon_not_mem := by
    rw [mem_perm h.alphabet]
    exact ht.epsilon_not_mem
  symbol_used x hx := by
    simp only [h.transitions.mem_iff]
    exact ht.symbol_used x ((mem_perm h.alphabet x).mp hx)
  final_mem f hf := by
    rw [mem_perm h.states]
    exact ht.final_mem f ((mem_perm h.finals f).mp hf)
  move_mem u hu := by
    rw [mem_perm h.states, mem_perm h.states, mem_perm h.alphabet]
    exact ht.move_mem u ((mem_perm h.transitions u).mp hu)

/-- No part holds an undefined number. -/
structure Defined (s : Shape) : Prop where
  states : ∀ a ∈ s.states.items, a.isDefined = true
  alphabet : ∀ x ∈ s.alphabet.items, x.isDefined = true
  initial : s.initial.isDefined = true
  transitions : ∀ t ∈ s.transitions.items,
    t.source.isDefined = true ∧ t.label.isDefined = true ∧ t.target.isDefined = true
  finals : ∀ f ∈ s.finals.items, f.isDefined = true

end Shape

namespace Sorting

variable {α : Type} {lt : α → α → Option Bool} {xs ys : List α}

theorem stored_of_mem {store : α → Except Fault Json} {js : List Json} (hsort : sort? lt xs = some ys)
    (h : ys.mapM store = .ok js) {x : α} (hx : x ∈ xs) : ∃ j ∈ js, store x = .ok j :=
  exists_mem_of_mapM h ((perm_of_sort? hsort).mem_iff.mpr hx)

theorem mem_of_stored {store : α → Except Fault Json} {js : List Json} (hsort : sort? lt xs = some ys)
    (h : ys.mapM store = .ok js) {j : Json} (hj : j ∈ js) : ∃ x ∈ xs, store x = .ok j := by
  obtain ⟨x, hx, hxj⟩ := exists_of_mem_mapM h hj
  exact ⟨x, (perm_of_sort? hsort).mem_iff.mp hx, hxj⟩

end Sorting

/-! ## Writing documents -/

/-- The parts of an automaton as lists, in the order in which a document holds them. -/
structure Parts where
  states : List Value
  alphabet : List Value
  initial : Value
  transitions : List Transition
  finals : List Value

/-- The shape with the given parts. -/
def Parts.toShape (o : Parts) : Shape :=
  ⟨.ofList o.states, .ofList o.alphabet, o.initial, .ofList o.transitions, .ofList o.finals⟩

/-- The parts of the shape can be sorted, and these are its parts in order. -/
structure Shape.Sorts (s : Shape) (o : Parts) : Prop where
  states : Sorting.sort? Value.lt? s.states.items = some o.states
  alphabet : Sorting.sort? Value.labelLt? s.alphabet.items = some o.alphabet
  initial : s.initial = o.initial
  transitions : Sorting.sort? Transition.lt? s.transitions.items = some o.transitions
  finals : Sorting.sort? Value.lt? s.finals.items = some o.finals

/-- The parts can be stored, and this is what a document holds for them. -/
structure Parts.Stores (o : Parts) (states alphabet : List Json) (start : Json)
    (transitions finals : List Json) : Prop where
  states : o.states.mapM Value.toJson = .ok states
  alphabet : o.alphabet.mapM Value.toJson = .ok alphabet
  start : o.initial.toJson = .ok start
  transitions : o.transitions.mapM Automaton.transitionToJson = .ok transitions
  finals : o.finals.mapM Value.toJson = .ok finals

namespace Automaton

open Sorting (sorted_eq_ok_iff)

variable {n k : Automaton} {d : Json}

/-- The five fields. -/
def fields (states alphabet : List Json) (start : Json) (transitions finals : List Json) :
    List (String × Json) :=
  [("states", .array states), ("alphabet", .array alphabet), ("start", start),
    ("transitions", .array transitions), ("final_states", .array finals)]

/-- The object of the five fields. -/
def document (states alphabet : List Json) (start : Json) (transitions finals : List Json) : Json :=
  .object (fields states alphabet start transitions finals)

theorem toDocument_eq_ok_iff : n.toDocument = .ok d ↔
    ∃ o states alphabet start transitions finals, n.Sorts o ∧
      o.Stores states alphabet start transitions finals ∧
      d = document states alphabet start transitions finals := by
  simp only [toDocument, ValueSet.sorted, Value.sortedLabels, triples, bind_eq_ok_iff,
    pure_eq_ok_iff, sorted_eq_ok_iff]
  constructor
  · rintro ⟨ss, hss, ss', hss', xs, hxs, xs', hxs', start, hstart, ts, hts, ts', hts', fs, hfs, fs',
      hfs', rfl⟩
    exact ⟨⟨ss, xs, n.initial, ts, fs⟩, ss', xs', start, ts', fs', ⟨hss, hxs, rfl, hts, hfs⟩,
      ⟨hss', hxs', hstart, hts', hfs'⟩, rfl⟩
  · rintro ⟨⟨ss, xs, i, ts, fs⟩, ss', xs', start, ts', fs', ⟨hss, hxs, rfl, hts, hfs⟩,
      ⟨hss', hxs', hstart, hts', hfs'⟩, rfl⟩
    exact ⟨ss, hss, ss', hss', xs, hxs, xs', hxs', start, hstart, ts, hts, ts', hts', fs, hfs, fs',
      hfs', rfl⟩

theorem transitionToJson_eq_ok {t : Transition} {j : Json} (h : transitionToJson t = .ok j) :
    ∃ source label target, t.source.toJson = .ok source ∧ t.label.labelToJson = .ok label ∧
      t.target.toJson = .ok target ∧ j = .array [source, label, target] := by
  simp only [transitionToJson, bind_eq_ok_iff, pure_eq_ok_iff] at h
  obtain ⟨source, hs, label, hl, target, ht, rfl⟩ := h
  exact ⟨source, label, target, hs, hl, ht, rfl⟩

end Automaton

/-! ## The order of the parts -/

namespace Shape

variable {s t : Shape} {o : Parts} {states alphabet transitions finals : List Json} {start : Json}

/-- Parts that are stored are plain. -/
structure Plain (s : Shape) : Prop where
  states : ∀ a ∈ s.states.items, a.Plain
  alphabet : ∀ x ∈ s.alphabet.items, x.Plain
  transitions : ∀ t ∈ s.transitions.items, t.Plain
  finals : ∀ f ∈ s.finals.items, f.Plain

theorem Sorts.plain (h : s.Sorts o) (ho : o.Stores states alphabet start transitions finals)
    (hs : s.Defined) : s.Plain where
  states a ha := by
    obtain ⟨j, -, hj⟩ := Sorting.stored_of_mem h.states ho.states ha
    exact Value.plain_of_toJson hj (hs.states a ha)
  alphabet x hx := by
    obtain ⟨j, -, hj⟩ := Sorting.stored_of_mem h.alphabet ho.alphabet hx
    exact Value.plain_of_toJson hj (hs.alphabet x hx)
  transitions t ht := by
    obtain ⟨j, -, hj⟩ := Sorting.stored_of_mem h.transitions ho.transitions ht
    obtain ⟨_, _, _, hsource, hlabel, htarget, -⟩ := Automaton.transitionToJson_eq_ok hj
    obtain ⟨hs₁, hs₂, hs₃⟩ := hs.transitions t ht
    exact ⟨Value.plain_of_toJson hsource hs₁, Value.plain_of_labelToJson hlabel hs₂,
      Value.plain_of_toJson htarget hs₃⟩
  finals f hf := by
    obtain ⟨j, -, hj⟩ := Sorting.stored_of_mem h.finals ho.finals hf
    exact Value.plain_of_toJson hj (hs.finals f hf)

/-- However plain parts are arranged, they are sorted in one way. -/
theorem Sorts.of_rearranged (h : t.Sorts o) (ht : t.Plain) (hst : s.Rearranged t) : s.Sorts o where
  states := Value.strictOrder.sort?_perm ht.states t.states.distinct hst.states h.states
  alphabet := by
    refine Value.labelOrder.sort?_perm ht.alphabet ?_ hst.alphabet h.alphabet
    exact t.alphabet.distinct.imp fun hne => by rw [Value.sameLabel, hne, Bool.and_false]
  initial := hst.initial.trans h.initial
  transitions := by
    refine Transition.strictOrder.sort?_perm ht.transitions ?_ hst.transitions h.transitions
    refine t.transitions.distinct.imp fun {a b} hne => Bool.eq_false_iff.mpr fun hsame => ?_
    rw [Transition.beq_of_sameInOrder hsame] at hne
    cases hne
  finals := Value.strictOrder.sort?_perm ht.finals t.finals.distinct hst.finals h.finals

theorem Sorts.rearranged (h : s.Sorts o) : o.toShape.Rearranged s := by
  have hkept {α : Type} [BEq α] [EquivBEq α] {lt : α → α → Option Bool} {s : OrderedSet α}
      {xs : List α} (hsort : Sorting.sort? lt s.items = some xs) :
      (OrderedSet.ofList xs).items.Perm s.items := by
    have hperm := Sorting.perm_of_sort? hsort
    have hdistinct : xs.Pairwise fun a b => (a == b) = false :=
      (hperm.pairwise_iff fun hab => by rw [BEq.comm, hab]).mpr s.distinct
    rw [OrderedSet.items_ofList_of_distinct hdistinct]
    exact hperm
  exact ⟨hkept h.states, hkept h.alphabet, h.initial.symm, hkept h.transitions, hkept h.finals⟩

end Shape

/-! ## Reading documents -/

namespace Automaton

open Json (tripleParts toValue)

variable {n : Automaton} {j : Json}

theorem tripleParts_of_transitionToJson {t : Transition} (h : transitionToJson t = .ok j) :
    tripleParts j = .ok [t.source, t.label, t.target] := by
  obtain ⟨source, label, target, hs, hl, ht, rfl⟩ := transitionToJson_eq_ok h
  show Except.ok [source.toValue, label.toLabel, target.toValue] = _
  rw [Value.toValue_of_toJson hs, Value.toLabel_of_labelToJson hl, Value.toValue_of_toJson ht]

/-- The object holds the five fields, in whatever order. -/
structure HasFields (j : Json) (states alphabet : List Json) (start : Json)
    (transitions finals : List Json) : Prop where
  states : j.field? "states" = some (.array states)
  alphabet : j.field? "alphabet" = some (.array alphabet)
  start : j.field? "start" = some start
  transitions : j.field? "transitions" = some (.array transitions)
  finals : j.field? "final_states" = some (.array finals)

theorem hasField_of_field? {name : String} {value : Json} (h : j.field? name = some value) :
    j.hasField name = .ok true := by
  cases j with
  | object fields =>
    obtain ⟨f, hf, -⟩ := Option.map_eq_some_iff.mp h
    have hname := List.find?_some hf
    exact congrArg Except.ok (List.any_eq_true.mpr ⟨f, List.mem_of_find?_eq_some hf, hname⟩)
  | _ => cases h

theorem field_of_field? {name : String} {value : Json} (h : j.field? name = some value) :
    j.field name = .ok value := by
  rw [Json.field, h]

variable {states alphabet transitions finals : List Json} {start : Json} {o : Parts}

theorem HasFields.missingFields_eq (h : HasFields j states alphabet start transitions finals) :
    missingFields j = .ok [] := by
  have hpresent : fieldNames.mapM (fun name => j.hasField name) =
      .ok (fieldNames.map fun _ => true) := by
    refine mapM_eq_ok_map fun name hname => ?_
    simp only [fieldNames, List.mem_cons, List.not_mem_nil, or_false] at hname
    rcases hname with rfl | rfl | rfl | rfl | rfl
    · exact hasField_of_field? h.states
    · exact hasField_of_field? h.alphabet
    · exact hasField_of_field? h.start
    · exact hasField_of_field? h.transitions
    · exact hasField_of_field? h.finals
  rw [missingFields, hpresent]
  rfl

theorem ofParts_eq_ok (hstates : ∀ a ∈ o.states, a.hashable = true)
    (halphabet : ∀ x ∈ o.alphabet, x.hashable = true) (hinitial : o.initial.isSeekable = true)
    (htransitions : ∀ t ∈ o.transitions, t.hashable = true)
    (hfinals : ∀ f ∈ o.finals, f.hashable = true) :
    Shape.ofParts o.states o.alphabet o.initial
      (o.transitions.map fun t => [t.source, t.label, t.target]) o.finals = .ok o.toShape := by
  have htriples : (o.transitions.map fun t => [t.source, t.label, t.target]).mapM Transition.ofList =
      .ok o.transitions := by
    rw [List.mapM_map]
    exact (mapM_eq_ok_map (g := id) fun t _ => rfl).trans (congrArg Except.ok (List.map_id _))
  refine Shape.ofParts_eq_ok_iff.mpr
    ⟨hstates, halphabet, fun xs hxs => ?_, hfinals, hinitial, _, htriples, rfl⟩
  obtain ⟨t, ht, rfl⟩ := List.mem_map.mp hxs
  simpa [Transition.hashable, and_assoc] using htransitions t ht

/-- A document that holds the parts of a shape is read as the automaton with these parts. -/
theorem ofDocument_of_stores {s : Shape} (hsound : s.Sound) (hhash : s.Hashable) (hsorts : s.Sorts o)
    (ho : o.Stores states alphabet start transitions finals)
    (hj : HasFields j states alphabet start transitions finals) :
    ofDocument j = .ok (ofShape o.toShape) := by
  have hparts : Shape.ofParts o.states o.alphabet o.initial
      (o.transitions.map fun t => [t.source, t.label, t.target]) o.finals = .ok o.toShape := by
    apply ofParts_eq_ok
    · exact fun a ha => hhash.states a ((Sorting.perm_of_sort? hsorts.states).mem_iff.mp ha)
    · exact fun x hx => hhash.alphabet x ((Sorting.perm_of_sort? hsorts.alphabet).mem_iff.mp hx)
    · rw [← hsorts.initial]
      exact Value.isSeekable_of_hashable hhash.start
    · exact fun t ht =>
        hhash.transitions t ((Sorting.perm_of_sort? hsorts.transitions).mem_iff.mp ht)
    · exact fun f hf => hhash.finals f ((Sorting.perm_of_sort? hsorts.finals).mem_iff.mp hf)
  have hvalues {xs : List Value} {js : List Json} (h : xs.mapM Value.toJson = .ok js) :
      js.map toValue = xs := map_of_mapM h fun x _ k => Value.toValue_of_toJson
  have htriples : transitions.mapM tripleParts =
      .ok (o.transitions.map fun t => [t.source, t.label, t.target]) :=
    mapM_of_mapM ho.transitions fun t _ k => tripleParts_of_transitionToJson
  have hmake : make o.toShape = .ok (ofShape o.toShape) :=
    make_eq_ok_iff.mpr ⟨hsorts.rearranged.sound hsound, rfl⟩
  have hread : ofDocument j = (do
      let triples ← transitions.mapM tripleParts
      make (← Shape.ofParts (states.map toValue) (alphabet.map toValue) start.toValue triples
        (finals.map toValue))) := by
    rw [ofDocument, hj.missingFields_eq, field_of_field? hj.states, field_of_field? hj.alphabet,
      field_of_field? hj.start, field_of_field? hj.transitions, field_of_field? hj.finals]
    rfl
  rw [hread, htriples, hvalues ho.states, hvalues ho.alphabet, hvalues ho.finals,
    Value.toValue_of_toJson ho.start]
  show (Shape.ofParts _ _ _ _ _ >>= make) = _
  rw [hparts]
  exact hmake

theorem hasFields_document :
    HasFields (document states alphabet start transitions finals) states alphabet start transitions
      finals :=
  ⟨rfl, rfl, rfl, rfl, rfl⟩

/-- What an automaton is stored as is read as an automaton that equals it, and this is stored as the
same document, as is every automaton with the same parts, in whatever order it keeps them. -/
theorem ofDocument_toDocument {n : Automaton} {d : Json} (hn : n.Valid) (hdefined : n.Defined)
    (h : n.toDocument = .ok d) :
    ∃ m, ofDocument d = .ok m ∧ (m == n) = true ∧ m.toDocument = .ok d ∧
      ∀ k : Automaton, k.Rearranged m.toShape → k.toDocument = .ok d := by
  obtain ⟨o, states, alphabet, start, transitions, finals, hsorts, hstores, rfl⟩ :=
    toDocument_eq_ok_iff.mp h
  have hplain := hsorts.plain hstores hdefined
  have hsame (k : Automaton) (hk : k.Rearranged n.toShape) :
      k.toDocument = .ok (document states alphabet start transitions finals) :=
    toDocument_eq_ok_iff.mpr ⟨o, states, alphabet, start, transitions, finals,
      hsorts.of_rearranged hplain hk, hstores, rfl⟩
  have hm : (ofShape o.toShape).Rearranged n.toShape := hsorts.rearranged
  exact ⟨ofShape o.toShape, ofDocument_of_stores hn.sound hn.hashable hsorts hstores
    hasFields_document, hm.beq, hsame _ hm, fun k hk => hsame k (hk.trans hm)⟩

/-- Tuples as states, a state and symbols that are held in different forms, and an empty move. -/
def mixed : Shape where
  states := .ofList [.tuple [.int 2, .text "x"], .tuple [.bool true, .tuple []]]
  alphabet := .ofList [.text "b", .int 1, .double .negativeZero]
  initial := .tuple [.int 1, .tuple []]
  transitions := .ofList
    [⟨.tuple [.double (.finite 1), .tuple []], .text "b", .tuple [.int 2, .text "x"]⟩,
      ⟨.tuple [.int 2, .text "x"], .int 0, .tuple [.int 2, .text "x"]⟩,
      ⟨.tuple [.int 2, .text "x"], .bool true, .tuple [.int 2, .text "x"]⟩,
      ⟨.tuple [.int 2, .text "x"], .epsilon, .tuple [.int 1, .tuple []]⟩]
  finals := .ofList [.tuple [.int 2, .text "x"]]

theorem mixed_made : (ofShape mixed).Made :=
  made_ofShape (.list [.tuple [.int 2, .text "x"], .tuple [.bool true, .tuple []]])
    (.list [.text "b", .int 1, .double .negativeZero]) (.tuple [.int 1, .tuple []])
    (.list [.tuple [.tuple [.double (.finite 1), .tuple []], .text "b", .tuple [.int 2, .text "x"]],
      .tuple [.tuple [.int 2, .text "x"], .int 0, .tuple [.int 2, .text "x"]],
      .tuple [.tuple [.int 2, .text "x"], .bool true, .tuple [.int 2, .text "x"]],
      .tuple [.tuple [.int 2, .text "x"], .epsilon, .tuple [.int 1, .tuple []]]])
    (.list [.tuple [.int 2, .text "x"]]) rfl (List.isEmpty_iff.mp (by decide +kernel)) rfl

/-- The document of `mixed`, in which the forms stay apart. -/
def mixedDocument : Json :=
  document [.array [.bool true, .array []], .array [.int 2, .text "x"]]
    [.double .negativeZero, .int 1, .text "b"] (.array [.int 1, .array []])
    [.array [.array [.double (.finite 1), .array []], .text "b", .array [.int 2, .text "x"]],
      .array [.array [.int 2, .text "x"], .null, .array [.int 1, .array []]],
      .array [.array [.int 2, .text "x"], .bool true, .array [.int 2, .text "x"]],
      .array [.array [.int 2, .text "x"], .int 0, .array [.int 2, .text "x"]]]
    [.array [.int 2, .text "x"]]

theorem ofDocument_toDocument_mixed :
    let n := ofShape mixed
    (n.Made ∧ n.Valid ∧ n.Defined ∧ n.toDocument = .ok mixedDocument) ∧
      ∃ m, ofDocument mixedDocument = .ok m ∧ (m == n) = true ∧ m.toDocument = .ok mixedDocument ∧
        ∀ k : Automaton, k.Rearranged m.toShape → k.toDocument = .ok mixedDocument := by
  intro n
  have hn : n.Valid := mixed_made.valid
  have hdefined : n.Defined :=
    ⟨by decide +kernel, by decide +kernel, by decide +kernel, by decide +kernel, by decide +kernel⟩
  have hdocument : n.toDocument = .ok mixedDocument := by with_unfolding_all rfl
  exact ⟨⟨mixed_made, hn, hdefined, hdocument⟩, ofDocument_toDocument hn hdefined hdocument⟩

end Automaton

end EpsilonAutomata
