import EpsilonAutomata.Proofs.Automaton.Alike
import EpsilonAutomata.Proofs.Automaton.Image
import EpsilonAutomata.Proofs.Build.Counter

/-!
# Renumbering twice

Renumbering sends the states, in order, to consecutive numbers, all of them at once: a number may be
an old name and a new one. The new names, taken in order, come as the old ones did
(`Automaton.sorted_renumber`), so numbering them again sends a state where numbering it once would have
(`Mapping.sends_numbered_twice`). What is renumbered twice is therefore what is renumbered once, by the
last base (`Automaton.renumber_renumber`).
-/

namespace EpsilonAutomata

/-! ## Numbers that are numbered again -/

namespace Mapping

variable {base c : Int} {xs : List Value} {a v : Value}

theorem values_numbered (base : Int) (xs : List Value) :
    (numbered base xs).values = (following (base - 1) xs.length).map .int := by
  refine List.ext_getElem? fun i => ?_
  simp only [values, numbered, List.getElem?_map, List.getElem?_zipIdx, Option.map_map]
  by_cases hi : i < xs.length
  · rw [List.getElem?_eq_getElem hi, getElem?_following hi]
    simp
    omega
  · rw [List.getElem?_eq_none (by omega), List.getElem?_eq_none (by rw [length_following]; omega)]
    rfl

theorem sends_numbered_iff : (numbered base xs).Sends a v ↔
    ∃ (i : Nat) (x : Value), xs[i]? = some x ∧ (x == a) = true ∧ (.int (base + i) == v) = true := by
  constructor
  · rintro ⟨e, he, hkey, himage⟩
    obtain ⟨⟨x, i⟩, hplace, rfl⟩ := List.mem_map.mp he
    exact ⟨i, x, List.mem_zipIdx_iff_getElem?.mp hplace, hkey, himage⟩
  · rintro ⟨i, x, hplace, hkey, himage⟩
    exact (sends_numbered base hplace).congr hkey himage

/-- To number the numbers of some values is to number the values. -/
theorem sends_numbered_twice :
    (∃ u, (numbered base xs).Sends a u ∧
      (numbered c ((following (base - 1) xs.length).map .int)).Sends u v) ↔
      (numbered c xs).Sends a v := by
  have hplace {i : Nat} (h : i < xs.length) :
      ((following (base - 1) xs.length).map Value.int)[i]? = some (.int (base + i)) := by
    rw [List.getElem?_map, getElem?_following h, Option.map_some]
    congr 2
    omega
  simp only [sends_numbered_iff]
  constructor
  · rintro ⟨u, ⟨i, x, hx, hxa, hiu⟩, j, y, hy, hyu, hjv⟩
    have hj : j < xs.length := by
      simpa [length_following] using (List.getElem?_eq_some_iff.mp hy).1
    obtain rfl := Option.some.inj ((hplace hj).symm.trans hy)
    -- both numbers equal `u`, so they are the number of one place
    have hij := BEq.trans hiu (BEq.symm hyu)
    rw [Value.int_beq_int, decide_eq_true_eq] at hij
    obtain rfl : i = j := by omega
    exact ⟨i, x, hx, hxa, hjv⟩
  · rintro ⟨i, x, hx, hxa, hiv⟩
    have hi : i < xs.length := (List.getElem?_eq_some_iff.mp hx).1
    exact ⟨.int (base + i), ⟨i, x, hx, hxa, BEq.rfl⟩, i, _, hplace hi, BEq.rfl, hiv⟩

end Mapping

/-! ## Renumbering -/

namespace Automaton

variable {n r k : Automaton} {base c : Int} {xs : List Value} {log : Log}

theorem sorted_of_renumber {base : Value} (h : ((n.renumber base).runWith log).1 = .ok k) :
    ∃ xs, n.states.sorted = .ok xs := by
  rw [renumber_result] at h
  obtain ⟨xs, hsorted, -⟩ := Outcome.bind_eq_ok_iff.mp h
  exact ⟨xs, hsorted⟩

theorem size_eq_of_sorted (h : n.states.sorted = .ok xs) : n.size = xs.length :=
  (Sorting.perm_of_sort? (Sorting.sorted_eq_ok_iff.mp h)).length_eq.symm

theorem states_renumber (h : n.remap (.numbered base xs) = .ok r) :
    r.states.items = (following (base - 1) xs.length).map .int := by
  obtain ⟨initial, ts, fs, -, -, -, -, -, rfl⟩ := remap_eq_ok h
  show (OrderedSet.ofList (Mapping.numbered base xs).values).items = _
  rw [Mapping.values_numbered]
  exact OrderedSet.items_ofList_of_distinct pairwise_map_following

theorem sorted_renumber (h : n.remap (.numbered base xs) = .ok r) :
    r.states.sorted = .ok ((following (base - 1) xs.length).map .int) :=
  ValueSet.sorted_of_ascending (.of_eq (states_renumber h)) pairwise_following

/-- Where renumbering returns, it does so from every whole number. It gives as many numbers, from there
on, the image under the mapping of the states in order onto them, and afterwards renumbering from another
number gives what it gives at first. -/
theorem renumber_renumber (hn : n.Valid) {base : Value}
    (h : ((n.renumber base).runWith log).1 = .ok k) (b c : Int) (log' : Log) :
    ∃ xs r s t, n.states.sorted = .ok xs ∧
      ((n.renumber (.int b)).runWith log').1 = .ok r ∧
      r.states.items = (following (b - 1) n.size).map .int ∧
      Shape.Image (Mapping.numbered b xs).Sends n.toShape r.toShape ∧
      ((n.renumber (.int c)).runWith log').1 = .ok s ∧
      ((r.renumber (.int c)).runWith log').1 = .ok t ∧ (t == s) = true := by
  obtain ⟨xs, hsorted⟩ := sorted_of_renumber h
  obtain ⟨r, hr⟩ := exists_renumber hn hsorted b
  obtain ⟨s, hs⟩ := exists_renumber hn hsorted c
  have hsorted' := sorted_renumber hr
  have hr' := valid_of_remap hn hr
  obtain ⟨t, ht⟩ := exists_renumber hr' hsorted' c
  refine ⟨xs, r, s, t, hsorted, ?_, ?_, image_renumber hsorted hr, ?_, ?_, ?_⟩
  · rw [renumber_int hsorted, hr]
  · rw [size_eq_of_sorted hsorted, states_renumber hr]
  · rw [renumber_int hsorted, hs]
  · rw [renumber_int hsorted', ht]
  · -- both are the image of the first automaton under its numbering by the last base
    have htwice := ((image_renumber hsorted hr).comp (image_renumber hsorted' ht)).congr fun _ _ =>
      Mapping.sends_numbered_twice
    have hkeys := Mapping.distinct_keys_numbered c (ValueSet.distinct_of_sorted hsorted)
    exact htwice.unique (Mapping.renaming_sends hkeys) (image_renumber hsorted hs)

/-- Truth values, whole numbers and others are renumbered onto numbers that are names already. -/
theorem renumber_renumber_retied :
    let n := ofShape retied
    (n.Valid ∧ ∃ k, ((n.renumber (.int 0)).runWith .on).1 = .ok k) ∧
      ∃ xs r s t, n.states.sorted = .ok xs ∧
        ((n.renumber (.int (-1))).runWith .off).1 = .ok r ∧
        r.states.items = (following (-1 - 1) n.size).map .int ∧
        Shape.Image (Mapping.numbered (-1) xs).Sends n.toShape r.toShape ∧
        ((n.renumber (.int 1)).runWith .off).1 = .ok s ∧
        ((r.renumber (.int 1)).runWith .off).1 = .ok t ∧ (t == s) = true := by
  intro n
  have hn := retied_made.valid
  have horder : n.Sortable := by
    show List.Pairwise _ _
    decide +kernel
  obtain ⟨xs, hsorted⟩ := horder.sorted_eq_ok fun _ ha => ha
  obtain ⟨k, hk⟩ := exists_renumber hn hsorted 0
  have hrenumber : ((n.renumber (.int 0)).runWith .on).1 = .ok k := by
    rw [renumber_int hsorted, hk]
  exact ⟨⟨hn, k, hrenumber⟩, renumber_renumber hn hrenumber (-1) 1 .off⟩

end Automaton

end EpsilonAutomata
