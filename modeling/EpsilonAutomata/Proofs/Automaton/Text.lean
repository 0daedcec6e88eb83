import EpsilonAutomata.Proofs.Automaton.Document
import EpsilonAutomata.Proofs.Json.RoundTrip

/-!
# Text holds automata without loss

Text, whole numbers, truth values and tuples of them are written in a document so that they read back
exactly (`Value.isExact`). So does the whole document of an automaton of such values, on one line or
indented, with its fields in order or not, with or without escapes (`Automaton.ofText_toText`).
-/

namespace EpsilonAutomata

open Outcome

/-! ## Values -/

namespace Value

mutual

/-- Text, a whole number, a truth value, or a tuple of such values. -/
def isExact : Value → Bool
  | bool _ => true
  | int _ => true
  | text _ => true
  | tuple xs => allExact xs
  | _ => false

def allExact : List Value → Bool
  | [] => true
  | x :: xs => isExact x && allExact xs

end

theorem allExact_eq_all (xs : List Value) : allExact xs = xs.all isExact := by
  induction xs with
  | nil => rfl
  | cons x xs ih => rw [allExact, ih, List.all_cons]

end Value

namespace Json

theorem allExact_eq_all (js : List Json) : allExact js = js.all exact := by
  induction js with
  | nil => rfl
  | cons j js ih => rw [allExact, ih, List.all_cons]

theorem sortKeysAll_eq_map (js : List Json) : sortKeysAll js = js.map sortKeys := by
  induction js with
  | nil => rfl
  | cons j js ih => rw [sortKeysAll, ih, List.map_cons]

/-- The document is exact, and has no names to put in order. -/
structure Nameless (j : Json) : Prop where
  exact : j.exact = true
  sortKeys : j.sortKeys = j

theorem nameless_null : Nameless null := ⟨rfl, rfl⟩

theorem nameless_array {js : List Json} (h : ∀ j ∈ js, j.Nameless) : Nameless (array js) where
  exact := by
    rw [Json.exact, allExact_eq_all, List.all_eq_true]
    exact fun j hj => (h j hj).exact
  sortKeys := by
    rw [Json.sortKeys, sortKeysAll_eq_map, List.map_congr_left fun j hj => (h j hj).sortKeys,
      List.map_id']

/-! ## Fields in another order -/

theorem exactFields_iff {fields : List (String × Json)} : exactFields fields = true ↔
    (∀ f ∈ fields, f.2.exact = true) ∧ fields.Pairwise fun f g => f.1 ≠ g.1 := by
  induction fields with
  | nil => simp [exactFields]
  | cons f fields ih =>
    obtain ⟨k, j⟩ := f
    rw [exactFields, Bool.and_eq_true, Bool.and_eq_true, List.all_eq_true, ih, List.forall_mem_cons,
      List.pairwise_cons]
    simp only [bne_iff_ne, ne_comm (b := k)]
    tauto

variable {fields sorted : List (String × Json)}

theorem field?_of_mem (hdistinct : fields.Pairwise fun f g => f.1 ≠ g.1) {f : String × Json}
    (hf : f ∈ fields) : (object fields).field? f.1 = some f.2 := by
  have hfind : fields.find? (fun g => g.1 = f.1) = some f := by
    induction fields with
    | nil => cases hf
    | cons g fields ih =>
      obtain ⟨hg, hfields⟩ := List.pairwise_cons.mp hdistinct
      rcases List.mem_cons.mp hf with rfl | hf
      · exact List.find?_cons_of_pos (by simp)
      · rw [List.find?_cons_of_neg (by simpa using hg f hf), ih hfields hf]
  rw [field?, hfind]
  rfl

theorem sortKeysIn_eq_self (h : ∀ f ∈ fields, f.2.sortKeys = f.2) : sortKeysIn fields = fields := by
  induction fields with
  | nil => rfl
  | cons f fields ih =>
    obtain ⟨k, j⟩ := f
    obtain ⟨hj, hfields⟩ := List.forall_mem_cons.mp h
    rw [sortKeysIn, hj, ih hfields]

theorem exists_sortKeys_perm (h : ∀ f ∈ fields, f.2.sortKeys = f.2) :
    ∃ sorted, (object fields).sortKeys = object sorted ∧ sorted.Perm fields := by
  refine ⟨_, ?_, Sorting.sortBy_perm (fun a b => decide (a.1 < b.1)) fields⟩
  rw [Json.sortKeys, sortKeysIn_eq_self h]

end Json

namespace Value

theorem nameless_of_toJson {a : Value} {j : Json} (h : a.toJson = .ok j) (ha : a.isExact = true) :
    j.Nameless := by
  refine toJson_induction (motive := fun a j => a.isExact = true → j.Nameless)
    (fun b _ => ⟨rfl, rfl⟩) (fun i _ => ⟨rfl, rfl⟩) (fun x hx => by cases hx) (fun s _ => ⟨rfl, rfl⟩)
    (fun xs js hjs ih hxs => ?_) a j h ha
  rw [isExact, allExact_eq_all, List.all_eq_true] at hxs
  refine Json.nameless_array fun k hk => ?_
  obtain ⟨x, hx, hxk⟩ := exists_of_mem_mapM hjs hk
  exact ih x hx k hxk (hxs x hx)

theorem nameless_of_labelToJson {a : Value} {j : Json} (h : a.labelToJson = .ok j)
    (ha : a.isEpsilon = true ∨ a.isExact = true) : j.Nameless := by
  unfold labelToJson at h
  split at h
  · obtain rfl := Except.ok.inj h
    exact Json.nameless_null
  · next hepsilon => exact nameless_of_toJson h (ha.resolve_left hepsilon)

end Value

/-! ## Documents -/

/-- All values in the parts are text, whole numbers, truth values and tuples of them. -/
structure Shape.Exact (s : Shape) : Prop where
  states : ∀ a ∈ s.states.items, a.isExact = true
  alphabet : ∀ x ∈ s.alphabet.items, x.isExact = true
  initial : s.initial.isExact = true
  transitions : ∀ t ∈ s.transitions.items, t.source.isExact = true ∧
    (t.label.isEpsilon = true ∨ t.label.isExact = true) ∧ t.target.isExact = true
  finals : ∀ f ∈ s.finals.items, f.isExact = true

namespace Automaton

variable {states alphabet transitions finals : List Json} {start : Json}

theorem exact_document (hstates : (Json.array states).Nameless)
    (halphabet : (Json.array alphabet).Nameless) (hstart : start.Nameless)
    (htransitions : (Json.array transitions).Nameless) (hfinals : (Json.array finals).Nameless)
    (sortKeys : Bool) :
    let d := document states alphabet start transitions finals
    let j := if sortKeys then d.sortKeys else d
    j.exact = true ∧ HasFields j states alphabet start transitions finals := by
  intro d j
  have hnameless : ∀ f ∈ fields states alphabet start transitions finals, f.2.Nameless := by
    simp [fields, hstates, halphabet, hstart, htransitions, hfinals]
  have hnames : (fields states alphabet start transitions finals).Pairwise fun f g => f.1 ≠ g.1 := by
    simp [fields]
  obtain ⟨sorted, hj, hperm⟩ : ∃ sorted, j = .object sorted ∧
      sorted.Perm (fields states alphabet start transitions finals) := by
    cases sortKeys with
    | true => exact Json.exists_sortKeys_perm fun f hf => (hnameless f hf).sortKeys
    | false => exact ⟨_, rfl, .refl _⟩
  have hdistinct : sorted.Pairwise fun f g => f.1 ≠ g.1 :=
    (hperm.pairwise_iff fun h => h.symm).mpr hnames
  have hfield {name : String} {value : Json}
      (h : (name, value) ∈ fields states alphabet start transitions finals) :
      (Json.object sorted).field? name = some value :=
    Json.field?_of_mem hdistinct (hperm.mem_iff.mpr h)
  rw [hj]
  refine ⟨?_, hfield ?_, hfield ?_, hfield ?_, hfield ?_, hfield ?_⟩
  · rw [Json.exact, Json.exactFields_iff]
    exact ⟨fun f hf => (hnameless f (hperm.mem_iff.mp hf)).exact, hdistinct⟩
  all_goals simp [fields]

theorem nameless_of_stores {lt : Value → Value → Option Bool} {xs ys : List Value} {js : List Json}
    (hsort : Sorting.sort? lt xs = some ys) (h : ys.mapM Value.toJson = .ok js)
    (hxs : ∀ x ∈ xs, x.isExact = true) : (Json.array js).Nameless := by
  refine Json.nameless_array fun j hj => ?_
  obtain ⟨x, hx, hxj⟩ := Sorting.mem_of_stored hsort h hj
  exact Value.nameless_of_toJson hxj (hxs x hx)

theorem exact_of_stores {s : Shape} {o : Parts} (hs : s.Exact) (hsorts : s.Sorts o)
    (ho : o.Stores states alphabet start transitions finals) (sortKeys : Bool) :
    let d := document states alphabet start transitions finals
    let j := if sortKeys then d.sortKeys else d
    j.exact = true ∧ HasFields j states alphabet start transitions finals := by
  apply exact_document
  · exact nameless_of_stores hsorts.states ho.states hs.states
  · exact nameless_of_stores hsorts.alphabet ho.alphabet hs.alphabet
  · exact Value.nameless_of_toJson ho.start (hsorts.initial ▸ hs.initial)
  · refine Json.nameless_array fun j hj => ?_
    obtain ⟨t, ht, htj⟩ := Sorting.mem_of_stored hsorts.transitions ho.transitions hj
    obtain ⟨source, label, target, hsource, hlabel, htarget, rfl⟩ := transitionToJson_eq_ok htj
    obtain ⟨hs₁, hs₂, hs₃⟩ := hs.transitions t ht
    refine Json.nameless_array ?_
    simp [Value.nameless_of_toJson hsource hs₁, Value.nameless_of_labelToJson hlabel hs₂,
      Value.nameless_of_toJson htarget hs₃]
  · exact nameless_of_stores hsorts.finals ho.finals hs.finals

/-- An automaton of exact values that can be stored is written as text, on one line or indented, with
its fields in order or not, with or without escapes, and what is read from the text equals it. -/
theorem ofText_toText {n : Automaton} {d : Json} (hn : n.Valid) (hexact : n.Exact)
    (h : n.toDocument = .ok d) (indent : Option (List Char))
    (hindent : ∀ unit ∈ indent, ∀ c ∈ unit, Json.isBlank c = true) (sortKeys asciiOnly : Bool) :
    ∃ text m, n.toText (.make indent none sortKeys asciiOnly) = .ok text ∧ ofText text = .ok m ∧
      (m == n) = true := by
  obtain ⟨o, states, alphabet, start, transitions, finals, hsorts, hstores, rfl⟩ :=
    toDocument_eq_ok_iff.mp h
  obtain ⟨hdocument, hfields⟩ := exact_of_stores hexact hsorts hstores sortKeys
  have hstyle := Json.Style.readable_make hindent sortKeys asciiOnly
  refine ⟨_, ofShape o.toShape, by rw [toText, h]; rfl, ?_, hsorts.rearranged.beq⟩
  rw [ofText, Json.parse?_render hstyle hdocument]
  exact ofDocument_of_stores hn.sound hn.hashable hsorts hstores hfields

/-- Text that needs every kind of escape. -/
def escapedText : String := "\"\\\n\x01é😀"

def longNumber : Int := -1000000000000000000000000000000

/-- Nested tuples as states, and symbols of each form. -/
def escaped : Shape where
  states := .ofList [.tuple [.tuple [], .int longNumber], .tuple []]
  alphabet := .ofList [.text escapedText, .int (-7), .bool true]
  initial := .tuple []
  transitions := .ofList
    [⟨.tuple [], .text escapedText, .tuple [.tuple [], .int longNumber]⟩,
      ⟨.tuple [], .epsilon, .tuple []⟩, ⟨.tuple [], .int (-7), .tuple []⟩,
      ⟨.tuple [.tuple [], .int longNumber], .int 1, .tuple []⟩]
  finals := .ofList [.tuple [.tuple [], .int longNumber]]

theorem escaped_made : (ofShape escaped).Made :=
  made_ofShape (.list [.tuple [.tuple [], .int longNumber], .tuple []])
    (.list [.text escapedText, .int (-7), .bool true]) (.tuple [])
    (.list [.tuple [.tuple [], .text escapedText, .tuple [.tuple [], .int longNumber]],
      .tuple [.tuple [], .epsilon, .tuple []], .tuple [.tuple [], .int (-7), .tuple []],
      .tuple [.tuple [.tuple [], .int longNumber], .int 1, .tuple []]])
    (.list [.tuple [.tuple [], .int longNumber]]) rfl (List.isEmpty_iff.mp (by decide +kernel)) rfl

/-- The document of `escaped`. -/
def escapedDocument : Json :=
  document [.array [], .array [.array [], .int longNumber]]
    [.bool true, .int (-7), .text escapedText] (.array [])
    [.array [.array [], .null, .array []], .array [.array [], .int (-7), .array []],
      .array [.array [], .text escapedText, .array [.array [], .int longNumber]],
      .array [.array [.array [], .int longNumber], .int 1, .array []]]
    [.array [.array [], .int longNumber]]

theorem ofText_toText_escaped :
    let n := ofShape escaped
    (n.Made ∧ n.Valid ∧ n.Exact ∧ n.toDocument = .ok escapedDocument ∧
      ∀ unit ∈ some [' ', ' '], ∀ c ∈ unit, Json.isBlank c = true) ∧
      ∃ text m, n.toText (.make (some [' ', ' ']) none true true) = .ok text ∧ ofText text = .ok m ∧
        (m == n) = true := by
  intro n
  have hn : n.Valid := escaped_made.valid
  have hexact : n.Exact :=
    ⟨by decide +kernel, by decide +kernel, by decide +kernel, by decide +kernel, by decide +kernel⟩
  have hdocument : n.toDocument = .ok escapedDocument := by with_unfolding_all rfl
  have hindent : ∀ unit ∈ some [' ', ' '], ∀ c ∈ unit, Json.isBlank c = true := by
    intro unit hunit c hc
    obtain rfl := Option.some.inj hunit
    exact Json.isBlank_of_mem_replicate 2 hc
  exact ⟨⟨escaped_made, hn, hexact, hdocument, hindent⟩,
    ofText_toText hn hexact hdocument _ hindent true true⟩

end Automaton

end EpsilonAutomata
