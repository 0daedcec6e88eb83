import EpsilonAutomata.Build.Combinators
import EpsilonAutomata.Proofs.Automaton.Remap
import EpsilonAutomata.Proofs.Build.Counter

/-!
# Keeping states apart

Before two automata are joined the second one is separated from the first. What comes of it shares
no state with the first automaton and accepts what the second accepts (`separate_spec`), whichever
numbers the counter gave and whatever states the two had in common.
-/

namespace EpsilonAutomata

namespace Build

variable {m n r : Automaton} {ws after : Workshop}

/-- The third automaton is the second one kept apart from the first. -/
structure Separated (m n r : Automaton) : Prop where
  valid : r.Valid
  apart : ∀ a, a ∈ m.states → a ∉ r.states
  accepts_iff : ∀ w, r.Accepts w ↔ n.Accepts w

theorem separate_of_disjoint (h : m.states.disjoint n.states = true) :
    (separate m n).runWith ws = (.ok n, ws) := by
  rw [separate, if_pos h, runWith_pure]

theorem separate_of_drawn {inOrder : List Value} {entries : List (Value × Value)} {mid : Workshop}
    (hshared : m.states.disjoint n.states = false) (hsorted : n.states.sorted = .ok inOrder)
    (hentries : (freshStates (m.states ∪ n.states) inOrder).runWith ws = (.ok entries, mid)) :
    ∃ after, (separate m n).runWith ws = (n.remap (.ofList entries), after) ∧
      after.counter = mid.counter ∧ (mid.log.enabled = false → after = mid) := by
  obtain ⟨after, hreport, hcounter⟩ := runWith_report (fun _ => .ok
    ("Moving " ++ Value.writtenInt entries.length ++ " shared states onto fresh ones")) rfl mid
  refine ⟨after, ?_, hcounter, fun hoff => ?_⟩
  · rw [separate, if_neg (by simp [hshared])]
    refine (runWith_bind_ok (quiet_eq_ok_iff.mpr ⟨hsorted, rfl⟩)).trans ?_
    refine (runWith_bind_ok hentries).trans ?_
    rw [runWith_bind_ok hreport, runWith_quiet]
  · rw [runWith_report_off _ hoff] at hreport
    exact (congrArg Prod.snd hreport).symm

theorem oneToOne_of_entries {s : ValueSet} {xs : List Value} {entries : List (Value × Value)}
    (hperm : xs.Perm s.items) (hkeys : entries.map (·.1) = xs)
    (himages : entries.Pairwise fun d e => (d.2 == e.2) = false) :
    Mapping.OneToOne ⟨entries⟩ where
  keys := by
    have hdistinct : xs.Pairwise fun a b => (a == b) = false :=
      (hperm.pairwise_iff fun h => by rw [BEq.comm, h]).mpr s.distinct
    rw [← hkeys] at hdistinct
    exact List.pairwise_map.mp hdistinct
  images := himages

theorem separate_spec (hn : n.Valid) (h : (separate m n).runWith ws = (.ok r, after)) :
    Separated m n r := by
  unfold separate at h
  split at h
  · next hdisjoint =>
    obtain ⟨rfl, -⟩ := pure_eq_ok_iff.mp h
    exact ⟨hn, OrderedSet.disjoint_iff.mp hdisjoint, fun _ => Iff.rfl⟩
  · simp only [bind_eq_ok_iff, quiet_eq_ok_iff] at h
    obtain ⟨inOrder, _, ⟨hsorted, rfl⟩, entries, _, hentries, _, _, _, hremap, -⟩ := h
    obtain ⟨hkeys, hfree, himages⟩ := freshStates_spec hentries
    have hone := oneToOne_of_entries (Sorting.perm_of_sorted hsorted) hkeys himages
    rw [Mapping.ofList_of_distinct hone.keys] at hremap
    refine ⟨Automaton.valid_of_remap hn hremap, ?_, Automaton.remap_accepts_iff hone hremap⟩
    intro a ha har
    obtain ⟨e, he, hea⟩ := (Automaton.mem_states_of_remap hremap).mp har
    have htaken : a ∈ m.states ∪ n.states := OrderedSet.mem_union.mpr (.inl ha)
    exact hfree e he ((OrderedSet.mem_congr hea).mpr htaken)

theorem separate_counter {c : Int} (hc : ws.counter.value? = some c)
    (h : (separate m n).runWith ws = (.ok r, after)) :
    ∃ d, c ≤ d ∧ after.counter.value? = some d := by
  unfold separate at h
  split at h
  · obtain ⟨-, rfl⟩ := pure_eq_ok_iff.mp h
    exact ⟨c, Int.le_refl c, hc⟩
  · simp only [bind_eq_ok_iff, quiet_eq_ok_iff] at h
    obtain ⟨inOrder, _, ⟨-, rfl⟩, entries, mid, hentries, _, reported, hreport, -, rfl⟩ := h
    obtain ⟨d, hd, hmid, -⟩ := freshStates_counter hc hentries
    exact ⟨d, hd, by rw [counter_of_report hreport, hmid]⟩

/-! ## Links -/

theorem hashable_link {a b : Value} (ha : a.hashable = true) (hb : b.hashable = true) :
    (link a b).hashable = true := by
  simp [Transition.hashable, link, Value.hashable, ha, hb]

theorem addLinks_eq_ok_iff {ts us : OrderedSet Transition} {links : List Transition} :
    addLinks ts links = .ok us ↔
      (∀ l ∈ links, l.hashable = true) ∧ us = ts.insertAll links := by
  rw [addLinks, ← List.all_eq_true]
  split
  · next hall => simp [hall, eq_comm]
  · next hall => simp [hall]

theorem addLinks_eq_ok (ts : OrderedSet Transition) {links : List Transition}
    (h : ∀ l ∈ links, l.hashable = true) : addLinks ts links = .ok (ts.insertAll links) :=
  addLinks_eq_ok_iff.mpr ⟨h, rfl⟩

end Build

end EpsilonAutomata
