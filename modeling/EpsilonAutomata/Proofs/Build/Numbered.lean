import EpsilonAutomata.Build.Compile
import EpsilonAutomata.Proofs.Automaton.Reading
import EpsilonAutomata.Proofs.Build.Concat
import EpsilonAutomata.Proofs.Build.Primitive
import EpsilonAutomata.Proofs.Build.Union

/-!
# Automata of numbers from one counter

What building makes from nothing has the numbers as states that the counter issued meanwhile
(`OwnNumbers`). Joining two automata adds numbers that are issued meanwhile to the ones they have, if
it has to move one of them or to put a new start in front (`Numbered.concat_ok`,
`Numbered.union_ok`). So the states stay between the number at which the counter stood at first and
the one at which it stands in the end, however often automata are joined.
-/

namespace EpsilonAutomata.Build

open Automaton (ofShape valid_ofShape)

/-- The automaton is valid, and its states are whole numbers above the one bound and up to the
other. -/
structure Numbered (lo hi : Int) (n : Automaton) : Prop where
  valid : n.Valid
  numbered : ∀ a ∈ n.states.items, ∃ i, a = .int i ∧ lo < i ∧ i ≤ hi

namespace Numbered

variable {lo mid hi : Int} {m n : Automaton}

theorem exists_int (h : Numbered lo hi n) {a : Value} (ha : a ∈ n.states) :
    ∃ i, (Value.int i == a) = true ∧ lo < i ∧ i ≤ hi := by
  obtain ⟨b, hb, hba⟩ := OrderedSet.mem_iff_exists.mp ha
  obtain ⟨i, rfl, hlo, hhi⟩ := h.numbered b hb
  exact ⟨i, hba, hlo, hhi⟩

theorem bounds_of_mem (h : Numbered lo hi n) {i : Int} (hi' : Value.int i ∈ n.states) :
    lo < i ∧ i ≤ hi := by
  obtain ⟨j, hj, hlo, hhi⟩ := h.exists_int hi'
  rw [Value.int_beq_int, decide_eq_true_eq] at hj
  subst hj
  exact ⟨hlo, hhi⟩

theorem lt (h : Numbered lo hi n) : lo < hi := by
  obtain ⟨i, -, hlo, hhi⟩ := h.exists_int h.valid.sound.start_mem
  omega

theorem mono {lo' hi' : Int} (h : Numbered lo hi n) (hlo : lo' ≤ lo) (hhi : hi ≤ hi') :
    Numbered lo' hi' n where
  valid := h.valid
  numbered a ha := by
    obtain ⟨i, rfl, hl, hh⟩ := h.numbered a ha
    exact ⟨i, rfl, by omega, by omega⟩

theorem flatStates (h : Numbered lo hi n) : n.FlatStates := by
  intro xs hxs
  obtain ⟨i, hi, -⟩ := h.numbered _ hxs
  cases hi

theorem sortable (h : Numbered lo hi n) : n.Sortable := by
  apply List.pairwise_of_forall_mem_list
  intro a ha b hb
  obtain ⟨i, rfl, -⟩ := h.numbered a ha
  obtain ⟨j, rfl, -⟩ := h.numbered b hb
  rfl

theorem disjoint (hm : Numbered lo mid m) (hn : Numbered mid hi n) :
    m.states.disjoint n.states = true := by
  rw [OrderedSet.disjoint_iff]
  intro a ham han
  obtain ⟨i, hia, -, hle⟩ := hm.exists_int ham
  have hin : Value.int i ∈ n.states := (OrderedSet.mem_congr hia).mpr han
  have hlt := (hn.bounds_of_mem hin).1
  omega

theorem lone (c : Int) : Numbered c (c + 1) (ofShape (.lone (.int (c + 1)))) where
  valid := valid_ofShape (Shape.sound_lone _) (Shape.hashable_lone rfl)
  numbered a ha := by
    obtain rfl := OrderedSet.eq_of_mem_items_singleton ha
    exact ⟨c + 1, rfl, by omega, by omega⟩

theorem edge (c : Int) {x : Value} (hx : x.hashable = true) :
    Numbered c (c + 1 + 1) (ofShape (.edge (.int (c + 1)) x (.int (c + 1 + 1)))) where
  valid := valid_ofShape (Shape.sound_edge ..) (Shape.hashable_edge rfl hx rfl)
  numbered a ha := by
    rcases List.mem_pair.mp (OrderedSet.mem_of_mem_items_ofList ha) with rfl | rfl
    · exact ⟨c + 1, rfl, by omega, by omega⟩
    · exact ⟨c + 1 + 1, rfl, by omega, by omega⟩

theorem ofShape_concat (hm : Numbered lo hi m) (hn : Numbered lo hi n) :
    Numbered lo hi (ofShape (m.toShape.concat n.toShape)) where
  valid := valid_ofShape (Shape.sound_concat hm.valid.sound hn.valid.sound)
    (Shape.hashable_concat hm.valid.hashable hn.valid.hashable)
  numbered a ha := by
    rcases OrderedSet.mem_items_of_mem_items_insertAll ha with ha | ha
    · exact hm.numbered a ha
    · exact hn.numbered a ha

theorem ofShape_union {k : Int} (hm : Numbered lo hi m) (hn : Numbered lo hi n) (hk : hi < k) :
    Numbered lo k (ofShape (m.toShape.union n.toShape (.int k))) where
  valid := valid_ofShape (Shape.sound_union hm.valid.sound hn.valid.sound)
    (Shape.hashable_union hm.valid.hashable hn.valid.hashable rfl)
  numbered a ha := by
    have hlo := hm.lt
    have hle := Int.le_of_lt hk
    rcases OrderedSet.mem_items_of_mem_items_insert ha with ha | rfl
    · rcases OrderedSet.mem_items_of_mem_items_insertAll ha with ha | ha
      · exact (hm.mono (Int.le_refl lo) hle).numbered a ha
      · exact (hn.mono (Int.le_refl lo) hle).numbered a ha
    · exact ⟨k, rfl, by omega, Int.le_refl k⟩

theorem not_mem_union {k : Int} (hm : Numbered lo hi m) (hn : Numbered lo hi n) (hk : hi < k) :
    Value.int k ∉ m.states ∪ n.states := by
  intro h
  rcases OrderedSet.mem_union.mp h with h | h
  · have := (hm.bounds_of_mem h).2
    omega
  · have := (hn.bounds_of_mem h).2
    omega

end Numbered

variable {lo hi c : Int} {m n r j : Automaton} {ws mid after : Workshop}

/-! ## Joining -/

theorem concat_counter (hseparate : (separate m n).runWith ws = (.ok r, mid))
    (h : (concat m n).runWith ws = (.ok j, after)) : after.counter = mid.counter := by
  rw [concat, runWith_bind_ok hseparate] at h
  simp only [bind_eq_ok_iff, quiet_eq_ok_iff] at h
  obtain ⟨_, _, ⟨-, rfl⟩, _, _, ⟨-, rfl⟩, _, reported, hreport, h⟩ := h
  obtain ⟨-, rfl⟩ := pure_eq_ok_iff.mp h
  exact counter_of_report hreport

theorem union_counter {drawn : Workshop} {start : Value}
    (hseparate : (separate m n).runWith ws = (.ok r, mid))
    (hstart : (freshState (m.states ∪ r.states)).runWith mid = (.ok start, drawn))
    (h : (union m n).runWith ws = (.ok j, after)) : after.counter = drawn.counter := by
  rw [union, runWith_bind_ok hseparate, runWith_bind_ok hstart] at h
  simp only [bind_eq_ok_iff, quiet_eq_ok_iff] at h
  obtain ⟨_, _, ⟨-, rfl⟩, _, _, ⟨-, rfl⟩, _, reported, hreport, h⟩ := h
  obtain ⟨-, rfl⟩ := pure_eq_ok_iff.mp h
  exact counter_of_report hreport

theorem Numbered.separate_ok (hn : Numbered lo hi n) (hc : ws.counter.value? = some c)
    (hle : hi ≤ c) (h : (separate m n).runWith ws = (.ok r, after)) :
    ∃ d, c ≤ d ∧ after.counter.value? = some d ∧ Numbered lo d r := by
  have hvalid := (separate_spec hn.valid h).valid
  unfold separate at h
  split at h
  · obtain ⟨rfl, rfl⟩ := pure_eq_ok_iff.mp h
    exact ⟨c, Int.le_refl c, hc, hn.mono (Int.le_refl lo) hle⟩
  · simp only [bind_eq_ok_iff, quiet_eq_ok_iff] at h
    obtain ⟨inOrder, _, ⟨hsorted, rfl⟩, entries, mid, hentries, _, reported, hreport, hremap, rfl⟩ := h
    obtain ⟨d, hd, hmid, hrange⟩ := freshStates_counter hc hentries
    refine ⟨d, hd, by rw [counter_of_report hreport, hmid], hvalid, fun a ha => ?_⟩
    obtain ⟨hkeys, -, himages⟩ := freshStates_spec hentries
    have hone := oneToOne_of_entries (Sorting.perm_of_sorted hsorted) hkeys himages
    rw [Mapping.ofList_of_distinct hone.keys] at hremap
    obtain ⟨_, _, _, -, -, -, -, -, rfl⟩ := Automaton.remap_eq_ok hremap
    obtain ⟨e, he, rfl⟩ := List.mem_map.mp (OrderedSet.mem_of_mem_items_ofList ha)
    obtain ⟨i, hi', hlo, hhi⟩ := hrange e he
    have := hn.lt
    exact ⟨i, hi', by omega, hhi⟩

/-- A concatenation has the states of the first automaton, and those of the second or numbers issued
meanwhile. -/
theorem Numbered.concat_ok (hm : Numbered lo hi m) (hn : Numbered lo hi n)
    (hc : ws.counter.value? = some c) (hle : hi ≤ c)
    (h : (concat m n).runWith ws = (.ok j, after)) :
    ∃ d, c ≤ d ∧ after.counter.value? = some d ∧ Numbered lo d j := by
  obtain ⟨r, mid, hseparate, rfl⟩ := concat_eq_ok h
  obtain ⟨d, hd, hmid, hr⟩ := hn.separate_ok hc hle hseparate
  exact ⟨d, hd, by rw [concat_counter hseparate h, hmid],
    (hm.mono (Int.le_refl lo) (Int.le_trans hle hd)).ofShape_concat hr⟩

/-- A union has the states of the first automaton, those of the second or numbers issued meanwhile, and
a number issued meanwhile as its start. -/
theorem Numbered.union_ok (hm : Numbered lo hi m) (hn : Numbered lo hi n)
    (hc : ws.counter.value? = some c) (hle : hi ≤ c)
    (h : (union m n).runWith ws = (.ok j, after)) :
    ∃ d, c ≤ d ∧ after.counter.value? = some d ∧ Numbered lo d j := by
  obtain ⟨r, mid, start, drawn, hseparate, hstart, -, rfl⟩ := union_eq_ok h
  obtain ⟨d, hd, hmid, hr⟩ := hn.separate_ok hc hle hseparate
  obtain ⟨k, hk, rfl, hdrawn, -⟩ := freshState_eq_ok hmid hstart
  exact ⟨k, by omega, by rw [union_counter hseparate hstart h, hdrawn]; rfl,
    (hm.mono (Int.le_refl lo) (Int.le_trans hle hd)).ofShape_union hr hk⟩

/-! ## Making automata from nothing -/

/-- An automaton that the work returns has numbers as states that the counter issued meanwhile. -/
def OwnNumbers (work : Build Automaton) : Prop :=
  ∀ ⦃ws after c n⦄, ws.counter.value? = some c → work.runWith ws = (.ok n, after) →
    ∃ d, after.counter.value? = some d ∧ Numbered c d n

theorem ownNumbers_empty : OwnNumbers empty := by
  intro ws after c n hc h
  rw [runWith_empty hc] at h
  obtain ⟨hn, rfl⟩ := Prod.mk.inj h
  obtain rfl := Except.ok.inj hn
  exact ⟨c + 1, rfl, .lone c⟩

theorem ownNumbers_epsilon : OwnNumbers epsilon := by
  intro ws after c n hc h
  rw [runWith_epsilon hc] at h
  obtain ⟨hn, rfl⟩ := Prod.mk.inj h
  obtain rfl := Except.ok.inj hn
  exact ⟨c + 1 + 1, rfl, .edge c rfl⟩

theorem symbol_eq_ok {x : Value} (h : (symbol x).runWith ws = (.ok n, after)) :
    x.hashable = true ∧ x.isEpsilon = false := by
  unfold symbol at h
  split at h
  · cases h
  · next hx =>
    simp only [bind_eq_ok_iff, quiet_eq_ok_iff] at h
    obtain ⟨_, _, -, _, _, -, y, _, ⟨hy, -⟩, -⟩ := h
    refine ⟨?_, by simpa using hx⟩
    unfold Value.asMember at hy
    split at hy
    · assumption
    · cases hy

theorem ownNumbers_symbol (x : Value) : OwnNumbers (symbol x) := by
  intro ws after c n hc h
  obtain ⟨hx, hread⟩ := symbol_eq_ok h
  rw [runWith_symbol hc hx hread] at h
  obtain ⟨hn, rfl⟩ := Prod.mk.inj h
  obtain rfl := Except.ok.inj hn
  exact ⟨c + 1 + 1, rfl, .edge c hx⟩

theorem Numbered.concat_next {d : Int} (hm : Numbered lo c m) (hn : Numbered c d n)
    (hc : ws.counter.value? = some d) (h : (concat m n).runWith ws = (.ok j, after)) :
    ∃ e, after.counter.value? = some e ∧ Numbered lo e j := by
  obtain ⟨e, -, he, hj⟩ := (hm.mono (Int.le_refl lo) (Int.le_of_lt hn.lt)).concat_ok
    (hn.mono (Int.le_of_lt hm.lt) (Int.le_refl d)) hc (Int.le_refl d) h
  exact ⟨e, he, hj⟩

theorem Numbered.union_next {d : Int} (hm : Numbered lo c m) (hn : Numbered c d n)
    (hc : ws.counter.value? = some d) (h : (union m n).runWith ws = (.ok j, after)) :
    ∃ e, after.counter.value? = some e ∧ Numbered lo e j := by
  obtain ⟨e, -, he, hj⟩ := (hm.mono (Int.le_refl lo) (Int.le_of_lt hn.lt)).union_ok
    (hn.mono (Int.le_of_lt hm.lt) (Int.le_refl d)) hc (Int.le_refl d) h
  exact ⟨e, he, hj⟩

theorem appendSymbols_numbered {w : Word} (hn : Numbered lo c n) (hc : ws.counter.value? = some c)
    (h : (appendSymbols n w).runWith ws = (.ok j, after)) :
    ∃ d, after.counter.value? = some d ∧ Numbered lo d j := by
  induction w generalizing n ws c with
  | nil =>
    obtain ⟨rfl, rfl⟩ := pure_eq_ok_iff.mp h
    exact ⟨c, hc, hn⟩
  | cons x w ih =>
    simp only [appendSymbols, bind_eq_ok_iff] at h
    obtain ⟨part, _, hpart, joined, _, hjoined, h⟩ := h
    obtain ⟨d, hd, hnumbers⟩ := ownNumbers_symbol x hc hpart
    obtain ⟨e, he, hj⟩ := hn.concat_next hnumbers hd hjoined
    exact ih hj he h

theorem ownNumbers_string (word : Value) : OwnNumbers (string word) := by
  intro ws after c n hc h
  simp only [string, bind_eq_ok_iff, quiet_eq_ok_iff] at h
  obtain ⟨w, _, ⟨-, rfl⟩, h⟩ := h
  split at h
  · exact ownNumbers_epsilon hc h
  · next x rest =>
    obtain ⟨part, _, hpart, h⟩ := bind_eq_ok_iff.mp h
    obtain ⟨d, hd, hnumbers⟩ := ownNumbers_symbol x hc hpart
    exact appendSymbols_numbered hnumbers hd h

theorem ownNumbers_regex (r : Regex) : OwnNumbers (regex r) := by
  induction r with
  | empty => exact ownNumbers_empty
  | eps => exact ownNumbers_epsilon
  | symb x => exact ownNumbers_symbol x
  | seq a b iha ihb =>
    intro ws after c j hc h
    simp only [regex, bind_eq_ok_iff] at h
    obtain ⟨m, _, hm, n, _, hn, h⟩ := h
    obtain ⟨d, hd, hmc⟩ := iha hc hm
    obtain ⟨e, he, hnc⟩ := ihb hd hn
    exact hmc.concat_next hnc he h
  | alt a b iha ihb =>
    intro ws after c j hc h
    simp only [regex, bind_eq_ok_iff] at h
    obtain ⟨m, _, hm, n, _, hn, h⟩ := h
    obtain ⟨d, hd, hmc⟩ := iha hc hm
    obtain ⟨e, he, hnc⟩ := ihb hd hn
    exact hmc.union_next hnc he h
  | bare =>
    intro ws after c j hc h
    cases h

theorem ownNumbers_operand (o : Operand) : OwnNumbers (operand o) := by
  cases o with
  | node r => exact ownNumbers_regex r
  | value | automaton =>
    intro ws after c n hc h
    simp only [operand, bind_eq_ok_iff, quiet_eq_ok_iff] at h
    obtain ⟨_, _, -, h⟩ := h
    cases h

theorem ownNumbers_compile (o : Operand) : OwnNumbers (compile o) := by
  intro ws after c n hc h
  simp only [compile, bind_eq_ok_iff] at h
  obtain ⟨m, mid, hm, _, reported, hreport, h⟩ := h
  obtain ⟨rfl, rfl⟩ := pure_eq_ok_iff.mp h
  obtain ⟨d, hd, hnumbers⟩ := ownNumbers_operand o hc hm
  exact ⟨d, by rw [counter_of_report hreport, hd], hnumbers⟩

end EpsilonAutomata.Build
