import EpsilonAutomata.Proofs.Automaton.Document

/-!
# Documents that hold no automaton

An object that lacks fields is refused with the names of all of them. Of the transitions only the number
of parts is asked, and any document with parts can be asked for it: an array, but also a text or an
object (`Json.length?`). The first item that has not three parts decides: if it has parts at all it is
refused as no transition, and a null, a truth value or a number is refused as something that has no
parts, which is a fault of another class. A text of three characters and an object of three names pass
for transitions (`Automaton.ofDocument_refuses`, `Automaton.ofDocument_misled`).
-/

namespace EpsilonAutomata

open Outcome

/-! ## Transitions -/

namespace Json

/-- The number of parts of a document that has parts: the items of an array, the characters of text, the
names of an object. -/
def length? : Json → Option Nat
  | array items => some items.length
  | text s => some s.toList.length
  | object fields => some fields.length
  | _ => none

/-- The document has three parts. -/
def isTriple (j : Json) : Bool :=
  j.length? == some 3

variable {j : Json}

theorem items_eq_ok_iff {n : Nat} : j.length? = some n ↔ ∃ parts, j.items = .ok parts ∧ parts.length = n := by
  cases j <;> simp [length?, items]

theorem items_eq_error (h : j.length? = none) : j.items = .error .notIterable := by
  cases j <;> simp_all [length?, items]

/-- The parts of the document are those of the transition. -/
def ReadsAs (j : Json) (t : Transition) : Prop :=
  j.tripleParts = .ok [t.source, t.label, t.target]

theorem tripleParts_of_isTriple (h : j.isTriple = true) : ∃ source label target,
    j.items = .ok [source, label, target] ∧
      tripleParts j = .ok [source.toValue, label.toLabel, target.toValue] := by
  obtain ⟨parts, hparts, hlength⟩ := items_eq_ok_iff.mp (beq_iff_eq.mp h)
  obtain ⟨source, label, target, rfl⟩ := List.length_eq_three.mp hlength
  exact ⟨source, label, target, hparts, by rw [tripleParts, hparts]; rfl⟩

theorem tripleParts_of_length {n : Nat} (h : j.length? = some n) (hthree : n ≠ 3) :
    tripleParts j = .error (.notTriple j.asValue) := by
  obtain ⟨parts, hparts, rfl⟩ := items_eq_ok_iff.mp h
  rw [tripleParts, hparts]
  match parts, hthree with
  | [], _ | [_], _ | [_, _], _ => rfl
  | [_, _, _], hthree => exact absurd rfl hthree
  | _ :: _ :: _ :: _ :: _, _ => rfl

theorem tripleParts_of_no_length (h : j.length? = none) : tripleParts j = .error .notIterable := by
  rw [tripleParts, items_eq_error h]
  rfl

end Json

/-! ## Fields -/

namespace Automaton

variable {j : Json} {fields : List (String × Json)} {items : List Json}

theorem hasField_object (name : String) :
    (Json.object fields).hasField name = .ok ((Json.object fields).field? name).isSome := by
  rw [Json.hasField, Json.field?, Option.isSome_map]
  refine congrArg Except.ok (Bool.eq_iff_iff.mpr ?_)
  rw [List.find?_isSome, List.any_eq_true]

theorem filterMap_zip_map (names : List String) (here : String → Bool) :
    (names.zip (names.map here)).filterMap (fun (name, here) => if here then none else some name) =
      names.filter fun name => !here name := by
  induction names with
  | nil => rfl
  | cons name names ih =>
    rw [List.map_cons, List.zip_cons_cons, List.filterMap_cons, List.filter_cons, ih]
    cases here name <;> rfl

/-- The names of the fields that an object lacks. -/
def lackedFields (j : Json) : List String :=
  fieldNames.filter fun name => (j.field? name).isNone

theorem missingFields_object :
    missingFields (.object fields) = .ok (lackedFields (.object fields)) := by
  rw [missingFields, mapM_eq_ok_map fun name _ => hasField_object name]
  refine congrArg Except.ok ?_
  rw [filterMap_zip_map, lackedFields]
  simp only [Option.not_isSome]

theorem ofDocument_of_lacked (h : lackedFields (.object fields) ≠ []) :
    ofDocument (.object fields) = .error (.missingFields (lackedFields (.object fields))) := by
  have hempty : (!(lackedFields (.object fields)).isEmpty) = true := by simpa using h
  rw [ofDocument, missingFields_object]
  show (if _ then _ else _) = _
  rw [if_pos hempty]
  rfl

/-- What is done with an object that has all fields, once its transitions are read. -/
def ofTriples (j : Json) (triples : List (List Value)) : Except Fault Automaton := do
  let states ← (← j.field "states").items
  let alphabet ← (← j.field "alphabet").items
  let start ← j.field "start"
  let finals ← (← j.field "final_states").items
  make (← Shape.ofParts (states.map Json.toValue) (alphabet.map Json.toValue) start.toValue
    triples (finals.map Json.toValue))

variable (h : lackedFields (.object fields) = [])
  (htransitions : (Json.object fields).field? "transitions" = some (.array items))

include h htransitions

theorem ofDocument_of_transitions :
    ofDocument (.object fields) = items.mapM Json.tripleParts >>= ofTriples (.object fields) := by
  rw [ofDocument, missingFields_object, h, field_of_field? htransitions]
  rfl

theorem ofDocument_of_find? {item : Json} {e : Fault}
    (hfirst : items.find? (fun i => !i.isTriple) = some item) (he : item.tripleParts = .error e) :
    ofDocument (.object fields) = .error e := by
  have hread : items.mapM Json.tripleParts = .error e := by
    refine mapM_eq_error_of_find? (fun i _ hi => ?_) hfirst he
    obtain ⟨source, label, target, -, htriple⟩ := Json.tripleParts_of_isTriple (j := i) (by simpa using hi)
    exact ⟨_, htriple⟩
  rw [ofDocument_of_transitions h htransitions, hread]
  rfl

omit h htransitions

theorem avoids_ofList (xs : List Value) : Avoids .automaton (Transition.ofList xs) := by
  unfold Transition.ofList
  split
  · exact .ok _
  · exact .error (by decide)

theorem avoids_ofParts (states alphabet : List Value) (initial : Value) (triples : List (List Value))
    (finals : List Value) : Avoids .automaton (Shape.ofParts states alphabet initial triples finals) := by
  have hset (xs : List Value) : Avoids .automaton (ValueSet.ofValues xs) := by
    unfold ValueSet.ofValues
    split
    · exact .ok _
    · exact .error (by decide)
  have hrefused : Avoids .automaton (.error .unhashable : Except Fault Shape) := .error (by decide)
  refine (hset states).bind fun _ => (hset alphabet).bind fun _ => ?_
  dsimp only
  split
  · exact hrefused
  refine (hset finals).bind fun _ => ?_
  split
  · exact hrefused
  exact (Avoids.mapM avoids_ofList triples).bind fun _ => .ok _

theorem avoids_ofTriples (j : Json) (triples : List (List Value)) :
    Avoids .automaton (ofTriples j triples) := by
  have hfield (name : String) : Avoids .automaton (j.field name) := by
    unfold Json.field
    split
    · exact .ok _
    · exact .error (by decide)
  have hitems (k : Json) : Avoids .automaton k.items := by
    unfold Json.items
    split
    · exact .ok _
    · exact .ok _
    · exact .ok _
    · exact .error (by decide)
  have hmake (s : Shape) : Avoids .automaton (make s) := by
    unfold make
    split
    · exact .ok _
    · exact .error nofun
  exact (hfield _).bind fun _ => (hitems _).bind fun _ => (hfield _).bind fun _ => (hitems _).bind fun _ =>
    (hfield _).bind fun _ => (hfield _).bind fun _ => (hitems _).bind fun _ =>
      (avoids_ofParts _ _ _ _ _).bind hmake

theorem transitions_of_ofTriples {triples : List (List Value)} {n : Automaton}
    (h : ofTriples j triples = .ok n) :
    ∃ ts, triples.mapM Transition.ofList = .ok ts ∧ n.transitions = .ofList ts := by
  simp only [ofTriples, bind_eq_ok_iff] at h
  obtain ⟨_, -, _, -, _, -, _, -, _, -, _, -, _, -, s, hs, hmake⟩ := h
  obtain ⟨-, -, -, -, -, ts, hts, rfl⟩ := Shape.ofParts_eq_ok_iff.mp hs
  obtain ⟨-, rfl⟩ := make_eq_ok_iff.mp hmake
  exact ⟨ts, hts, rfl⟩

theorem forall₂_readsAs {triples : List (List Value)} {ts : List Transition}
    (hread : List.Forall₂ (fun item parts => item.tripleParts = .ok parts) items triples)
    (hts : List.Forall₂ (fun parts t => Transition.ofList parts = .ok t) triples ts) :
    List.Forall₂ Json.ReadsAs items ts := by
  induction hread generalizing ts with
  | nil =>
    cases hts
    exact .nil
  | cons hparts _ ih =>
    cases hts with
    | cons ht hrest =>
      rw [Transition.ofList_eq_ok_iff.mp ht] at hparts
      exact .cons hparts (ih hrest)

theorem mem_lackedFields {name : String} :
    name ∈ lackedFields j ↔ name ∈ fieldNames ∧ j.field? name = none := by
  rw [lackedFields, List.mem_filter, Option.isNone_iff_eq_none]

/-- An object that lacks a field is refused with the names of all fields that it lacks. Otherwise, if the
transitions are an array, its first item that has not three parts is refused, as no transition if it has
parts and as something without parts if it has none. If all items have three parts, no refusal of this
class follows, and what comes out has the transitions that the items stand for. -/
theorem ofDocument_refuses (fields : List (String × Json)) :
    let j := Json.object fields
    (∀ name ∈ fieldNames, j.field? name = none → name ∈ lackedFields j ∧
      ofDocument j = .error (.missingFields (lackedFields j))) ∧
    ∀ items, (∀ name ∈ fieldNames, j.field? name ≠ none) →
      j.field? "transitions" = some (.array items) →
      (∀ item, items.find? (fun i => !i.isTriple) = some item →
        (item.length? ≠ none → ofDocument j = .error (.notTriple item.asValue)) ∧
        (item.length? = none → ofDocument j = .error .notIterable)) ∧
      ((∀ item ∈ items, item.isTriple = true) → Avoids .automaton (ofDocument j) ∧
        ∀ n, ofDocument j = .ok n → ∃ ts, List.Forall₂ Json.ReadsAs items ts ∧
          n.transitions = .ofList ts) := by
  intro j
  constructor
  · intro name hname hnone
    have hmem : name ∈ lackedFields j := mem_lackedFields.mpr ⟨hname, hnone⟩
    exact ⟨hmem, ofDocument_of_lacked (List.ne_nil_of_mem hmem)⟩
  intro items hpresent htransitions
  have hall : lackedFields j = [] := List.eq_nil_iff_forall_not_mem.mpr fun name hname =>
    hpresent name (mem_lackedFields.mp hname).1 (mem_lackedFields.mp hname).2
  refine ⟨fun item hfirst => ⟨fun hparts => ?_, fun hnone => ?_⟩, fun htriples => ⟨?_, fun n hn => ?_⟩⟩
  · obtain ⟨k, hk⟩ := Option.ne_none_iff_exists'.mp hparts
    refine ofDocument_of_find? hall htransitions hfirst (Json.tripleParts_of_length hk fun hthree => ?_)
    have hno := List.find?_some hfirst
    simp [Json.isTriple, hk, hthree] at hno
  · exact ofDocument_of_find? hall htransitions hfirst (Json.tripleParts_of_no_length hnone)
  · rw [ofDocument_of_transitions hall htransitions]
    obtain ⟨triples, hread⟩ : ∃ triples, items.mapM Json.tripleParts = .ok triples :=
      exists_mapM fun item hitem =>
        have ⟨_, _, _, _, hparts⟩ := Json.tripleParts_of_isTriple (htriples item hitem)
        ⟨_, hparts⟩
    rw [hread]
    exact avoids_ofTriples j triples
  · rw [ofDocument_of_transitions hall htransitions] at hn
    obtain ⟨triples, hread, hn⟩ := bind_eq_ok_iff.mp hn
    obtain ⟨ts, hts, htransitions⟩ := transitions_of_ofTriples hn
    exact ⟨ts, forall₂_readsAs (mapM_eq_ok_iff.mp hread) (mapM_eq_ok_iff.mp hts), htransitions⟩

/-- The five fields of an automaton whose states and symbol are letters, with the given transitions. -/
def lettered (items : List Json) : List (String × Json) :=
  Automaton.fields [.text "a", .text "c"] [.text "b"] (.text "a") items [.text "c"]

/-- One move between two letters, which reads a letter. -/
def letters : Shape where
  states := .ofList [.text "a", .text "c"]
  alphabet := .ofList [.text "b"]
  initial := .text "a"
  transitions := .ofList [⟨.text "a", .text "b", .text "c"⟩]
  finals := .ofList [.text "c"]

theorem ofDocument_text : ofDocument (.object (lettered [.text "abc"])) = .ok (ofShape letters) := by
  with_unfolding_all rfl

/-- A field is missing; behind a transition stand an array of two items and a null, in either order; and
a text spells the only transition. -/
theorem ofDocument_refuses_lettered :
    let good := Json.array [.text "a", .text "b", .text "c"]
    let short := Json.array [.text "a", .text "b"]
    let lacking := Json.object ((lettered [good]).eraseIdx 1)
    (lacking.field? "alphabet" = none ∧
      ofDocument lacking = .error (.missingFields ["alphabet"])) ∧
    (∀ items ∈ [[good, short, .null], [good, .null, short], [.text "abc"]],
      (∀ name ∈ fieldNames, (Json.object (lettered items)).field? name ≠ none) ∧
        (Json.object (lettered items)).field? "transitions" = some (.array items)) ∧
    ofDocument (.object (lettered [good, short, .null])) =
      .error (.notTriple (.list [.text "a", .text "b"])) ∧
    ofDocument (.object (lettered [good, .null, short])) = .error .notIterable ∧
    ∃ ts, List.Forall₂ Json.ReadsAs [.text "abc"] ts ∧ letters.transitions = .ofList ts := by
  intro good short lacking
  have hlacking : lacking.field? "alphabet" = none := rfl
  have hpresent (items : List Json) : ∀ name ∈ fieldNames,
      (Json.object (lettered items)).field? name ≠ none := by
    simp [fieldNames, lettered, fields, Json.field?]
  have htransitions (items : List Json) :
      (Json.object (lettered items)).field? "transitions" = some (.array items) := rfl
  refine ⟨⟨hlacking, ?_⟩, fun items _ => ⟨hpresent items, htransitions items⟩, ?_, ?_, ?_⟩
  · exact ((ofDocument_refuses ((lettered [good]).eraseIdx 1)).1 "alphabet" (by simp [fieldNames])
      hlacking).2
  · exact (((ofDocument_refuses (lettered [good, short, .null])).2 _ (hpresent _)
      (htransitions _)).1 short rfl).1 (by simp [short, Json.length?])
  · exact (((ofDocument_refuses (lettered [good, .null, short])).2 _ (hpresent _)
      (htransitions _)).1 .null rfl).2 rfl
  · exact (((ofDocument_refuses (lettered [.text "abc"])).2 _ (hpresent _)
      (htransitions _)).2 (by simp [Json.isTriple, Json.length?])).2 _ ofDocument_text

/-- With all fields there, a text in the place of a transition is taken for one, and a number is refused,
but not as a document that holds no automaton. -/
theorem ofDocument_misled :
    (∀ items, ∀ name ∈ fieldNames, (Json.object (lettered items)).field? name ≠ none) ∧
      (∃ n, ofDocument (.object (lettered [.text "abc"])) = .ok n ∧
        (⟨.text "a", .text "b", .text "c"⟩ : Transition) ∈ n.transitions) ∧
      ofDocument (.object (lettered [.int 5])) = .error .notIterable ∧
      Fault.notIterable.family ≠ .automaton := by
  refine ⟨?_, ⟨_, ofDocument_text, by decide +kernel⟩, ?_, by decide⟩
  · intro items
    simp [fieldNames, lettered, fields, Json.field?]
  · with_unfolding_all rfl

end Automaton

end EpsilonAutomata
