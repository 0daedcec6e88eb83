import EpsilonAutomata.Proofs.Automaton.Image
import EpsilonAutomata.Proofs.Automaton.Search
import EpsilonAutomata.Proofs.Build.Primitive
import EpsilonAutomata.Proofs.Build.Separate

/-!
# Where the states go

`separate` moves an automaton that shares states with another one. The numbers it draws are the first
free ones after the counter (`FirstFree`): ascending, neither taken nor left out, whatever taken numbers
lie between them. Each number drawn is taken for the next one, so the numbers for the rest of the states
are the first free ones after it (`FirstFree.cons`). The states go onto them in order, and what comes
out is the image of the automaton under this mapping (`separate_relocates`).
-/

namespace EpsilonAutomata.Build

open Automaton (ofShape)

variable {m n : Automaton} {ws : Workshop} {c k : Int} {taken : ValueSet} {ks : List Int}
  {xs : List Value}

/-! ## The first free numbers -/

/-- The list goes up from above a number, has no taken number, and skips none that is free. -/
structure FirstFree (taken : ValueSet) (c : Int) (ks : List Int) : Prop where
  ascending : ks.Pairwise (· < ·)
  free : ∀ k ∈ ks, c < k ∧ Value.int k ∉ taken
  none_skipped : ∀ k ∈ ks, ∀ i, c < i → i < k → Value.int i ∉ taken → i ∈ ks

namespace FirstFree

theorem nil : FirstFree taken c [] := ⟨.nil, by simp, by simp⟩

theorem cons (hk : c < k) (hfree : Value.int k ∉ taken)
    (hbetween : ∀ i, c < i → i < k → Value.int i ∈ taken)
    (h : FirstFree (taken.insert (.int k)) k ks) : FirstFree taken c (k :: ks) where
  ascending := List.pairwise_cons.mpr ⟨fun i hi => (h.free i hi).1, h.ascending⟩
  free := by
    intro i hi
    rcases List.mem_cons.mp hi with rfl | hi
    · exact ⟨hk, hfree⟩
    · obtain ⟨hlater, hnot⟩ := h.free i hi
      exact ⟨by omega, fun hmem => hnot (OrderedSet.mem_insert.mpr (.inl hmem))⟩
  none_skipped := by
    intro j hj i hi hij hfree'
    obtain hik | rfl | hki := lt_trichotomy i k
    · exact absurd (hbetween i hi hik) hfree'
    · exact List.mem_cons_self
    · rcases List.mem_cons.mp hj with rfl | hj
      · omega
      · refine List.mem_cons_of_mem k (h.none_skipped j hj i hki hij fun hmem => ?_)
        rcases OrderedSet.mem_insert.mp hmem with hmem | hsame
        · exact hfree' hmem
        · rw [Value.int_beq_int, decide_eq_true_iff] at hsame
          omega

theorem pairwise_int (h : FirstFree taken c ks) :
    (ks.map Value.int).Pairwise fun a b => (a == b) = false := by
  refine List.pairwise_map.mpr (h.ascending.imp fun {i j} hij => ?_)
  rw [Value.int_beq_int, decide_eq_false_iff_not]
  omega

end FirstFree

/-- The mapping of values, in the given order, onto numbers. -/
def placement (xs : List Value) (ks : List Int) : Mapping :=
  ⟨xs.zip (ks.map .int)⟩

theorem keys_placement (h : ks.length = xs.length) : (placement xs ks).entries.map (·.1) = xs :=
  List.map_fst_zip (by simp [h])

theorem values_placement (h : ks.length = xs.length) :
    (placement xs ks).entries.map (·.2) = ks.map .int :=
  List.map_snd_zip (by simp [h])

theorem hashable_of_mem_values_placement (h : ks.length = xs.length) {v : Value}
    (hv : v ∈ (placement xs ks).values) : v.hashable = true := by
  rw [Mapping.values, values_placement h] at hv
  obtain ⟨i, -, rfl⟩ := List.mem_map.mp hv
  rfl

theorem defines_placement {s : ValueSet} {a : Value} (hsorted : s.sorted = .ok xs)
    (hlength : ks.length = xs.length) : (placement xs ks).Defines a ↔ a ∈ s := by
  rw [ValueSet.mem_iff_of_sorted hsorted, Mapping.defines_iff_of_keys (keys_placement hlength)]

theorem oneToOne_placement {s : ValueSet} (hsorted : s.sorted = .ok xs)
    (hlength : ks.length = xs.length) (hfirst : FirstFree taken c ks) :
    (placement xs ks).OneToOne := by
  refine oneToOne_of_entries (Sorting.perm_of_sorted hsorted) (keys_placement hlength) ?_
  have hdistinct := hfirst.pairwise_int
  rw [← values_placement hlength] at hdistinct
  exact List.pairwise_map.mp hdistinct

/-! ## Drawing them -/

theorem freshState_first (taken : ValueSet) (hc : ws.counter.value? = some c) :
    ∃ k, c < k ∧ Value.int k ∉ taken ∧ (∀ i, c < i → i < k → Value.int i ∈ taken) ∧
      (freshState taken).runWith ws = (.ok (.int k), { ws with counter := ⟨.int k⟩ }) := by
  obtain ⟨k, hk, hrun⟩ := freshState_returns taken hc
  obtain ⟨k', -, hsame, -, hbetween⟩ := freshState_eq_ok hc hrun
  obtain rfl : k = k' := Value.int.inj hsame
  exact ⟨k, hk, freshState_not_taken hrun, hbetween, hrun⟩

theorem freshStates_first (taken : ValueSet) (xs : List Value) (hc : ws.counter.value? = some c) :
    ∃ ks k after, ks.length = xs.length ∧ FirstFree taken c ks ∧
      (k ∈ c :: ks ∧ ∀ i ∈ ks, i ≤ k) ∧ after.counter.value? = some k ∧ after.log = ws.log ∧
      (freshStates taken xs).runWith ws = (.ok (placement xs ks).entries, after) := by
  induction xs generalizing taken ws c with
  | nil => exact ⟨[], c, ws, rfl, .nil, ⟨List.mem_cons_self, by simp⟩, hc, rfl, rfl⟩
  | cons s xs ih =>
    obtain ⟨k, hk, hfree, hbetween, hnumber⟩ := freshState_first taken hc
    obtain ⟨ks, d, after, hlength, hfirst, ⟨hd, hlargest⟩, hafter, hlog, hothers⟩ :=
      @ih { ws with counter := ⟨.int k⟩ } k (taken.insert (.int k)) rfl
    have hkd : k ≤ d := by
      rcases List.mem_cons.mp hd with rfl | hd
      · exact le_refl d
      · exact le_of_lt (hfirst.free d hd).1
    refine ⟨k :: ks, d, after, by rw [List.length_cons, hlength, List.length_cons],
      .cons hk hfree hbetween hfirst,
      ⟨List.mem_cons_of_mem c hd, List.forall_mem_cons.mpr ⟨hkd, hlargest⟩⟩, hafter, hlog, ?_⟩
    rw [freshStates, runWith_bind_ok hnumber, runWith_bind_ok hothers]
    rfl

/-! ## Moving -/

theorem exists_remap_placement (hn : n.Valid) (hsorted : n.states.sorted = .ok xs)
    (hlength : ks.length = xs.length) : ∃ r, n.remap (placement xs ks) = .ok r :=
  Automaton.remap_returns hn
    (fun _ ha => (defines_placement hsorted hlength).mpr ha)
    fun _ => hashable_of_mem_values_placement hlength

/-- Where states are shared, keeping apart is renaming by the first free numbers, be the log on or
off. -/
theorem separate_eq_remap (hn : n.Valid) (hsorted : n.states.sorted = .ok xs)
    (hc : ws.counter.value? = some c) (hshared : m.states.disjoint n.states = false) :
    ∃ ks k after, ks.length = xs.length ∧ FirstFree (m.states ∪ n.states) c ks ∧
      (k ∈ ks ∧ ∀ i ∈ ks, i ≤ k) ∧ after.counter.value? = some k ∧
      (ws.log.enabled = false → after.log = ws.log) ∧
      (separate m n).runWith ws = (n.remap (placement xs ks), after) := by
  obtain ⟨ks, k, mid, hlength, hfirst, ⟨hk, hlargest⟩, hmid, hlog, hentries⟩ :=
    freshStates_first (m.states ∪ n.states) xs hc
  have hmem : k ∈ ks := by
    -- there is a state, so there is a number, and the counter has moved on
    obtain ⟨a, ha, -⟩ := (ValueSet.mem_iff_of_sorted hsorted).mp hn.sound.start_mem
    obtain ⟨i, hi⟩ := List.exists_mem_of_length_pos (hlength ▸ List.length_pos_of_mem ha)
    refine (List.mem_cons.mp hk).resolve_left ?_
    rintro rfl
    exact absurd (hlargest i hi) (not_le.mpr (hfirst.free i hi).1)
  obtain ⟨after, hrun, hafter, hoff⟩ := separate_of_drawn hshared hsorted hentries
  rw [Mapping.ofList_of_distinct (oneToOne_placement hsorted hlength hfirst).keys] at hrun
  refine ⟨ks, k, after, hlength, hfirst, ⟨hmem, hlargest⟩, by rw [hafter, hmid], fun h => ?_, hrun⟩
  rw [hoff (by rw [hlog, h]), hlog]

/-- From a counter that stands at a whole number, an automaton whose states can be put in order is
always kept apart. If it shares no state nothing is done. Otherwise the states go, in order, onto the
first numbers after the counter that are states of neither automaton, one number for each, and the
counter stands at the largest of them; what comes out is the image of the automaton. -/
theorem separate_relocates (hn : n.Valid) (hsorted : n.states.sorted = .ok xs)
    (hc : ws.counter.value? = some c) :
    (m.states.disjoint n.states = true → (separate m n).runWith ws = (.ok n, ws)) ∧
    (m.states.disjoint n.states = false → ∃ ks k r after,
      ks.length = n.size ∧ FirstFree (m.states ∪ n.states) c ks ∧
      (k ∈ ks ∧ ∀ i ∈ ks, i ≤ k) ∧ after.counter.value? = some k ∧
      (placement xs ks).OneToOne ∧ (separate m n).runWith ws = (.ok r, after) ∧
      Shape.Image (placement xs ks).Sends n.toShape r.toShape) := by
  refine ⟨separate_of_disjoint, fun hshared => ?_⟩
  obtain ⟨ks, k, after, hlength, hfirst, hlargest, hafter, -, hrun⟩ :=
    separate_eq_remap hn hsorted hc hshared
  have hone := oneToOne_placement hsorted hlength hfirst
  obtain ⟨r, hr⟩ := exists_remap_placement hn hsorted hlength
  exact ⟨ks, k, r, after, hlength.trans (Sorting.perm_of_sorted hsorted).length_eq, hfirst, hlargest,
    hafter, hone, by rw [hrun, hr],
    Automaton.image_remap hone.keys (fun _ => (defines_placement hsorted hlength).symm) hr⟩

/-- States that equal whole numbers without being written as such, and one far ahead. -/
def scattered : Shape where
  states := .ofList [.int 5, .double (.finite 2), .bool true]
  alphabet := .ofList [.text "a"]
  initial := .bool true
  transitions := .ofList [⟨.int 1, .text "a", .int 2⟩, ⟨.int 2, .epsilon, .int 5⟩]
  finals := .ofList [.int 5]

theorem scattered_made : (ofShape scattered).Made :=
  Automaton.made_ofShape (.list [.int 5, .double (.finite 2), .bool true]) (.list [.text "a"])
    (.bool true)
    (.list [.tuple [.int 1, .text "a", .int 2], .tuple [.int 2, .epsilon, .int 5]])
    (.list [.int 5]) rfl (List.isEmpty_iff.mp (by decide +kernel)) rfl

/-- A state is shared with an automaton that has a set among its states, and the counter stands at a
truth value; from an automaton that shares none nothing is moved. -/
theorem separate_relocates_scattered :
    let m := ofShape Automaton.looping
    let n := ofShape scattered
    let far := ofShape (.lone (.int 7))
    let xs : List Value := [.bool true, .double (.finite 2), .int 5]
    let ws : Workshop := ⟨⟨.bool false⟩, ⟨true, []⟩⟩
    (n.Valid ∧ n.states.sorted = .ok xs ∧ ws.counter.value? = some 0 ∧
      m.states.disjoint n.states = false ∧ far.states.disjoint n.states = true) ∧
    (separate far n).runWith ws = (.ok n, ws) ∧
    ∃ ks k r after, ks.length = n.size ∧ FirstFree (m.states ∪ n.states) 0 ks ∧
      (k ∈ ks ∧ ∀ i ∈ ks, i ≤ k) ∧ after.counter.value? = some k ∧
      (placement xs ks).OneToOne ∧ (separate m n).runWith ws = (.ok r, after) ∧
      Shape.Image (placement xs ks).Sends n.toShape r.toShape := by
  intro m n far xs ws
  have hn : n.Valid := scattered_made.valid
  have hsorted : n.states.sorted = .ok xs := by with_unfolding_all rfl
  have hshared : m.states.disjoint n.states = false := by decide +kernel
  have hapart : far.states.disjoint n.states = true := by decide +kernel
  exact ⟨⟨hn, hsorted, rfl, hshared, hapart⟩, (separate_relocates hn hsorted rfl).1 hapart,
    (separate_relocates hn hsorted rfl).2 hshared⟩

end EpsilonAutomata.Build
