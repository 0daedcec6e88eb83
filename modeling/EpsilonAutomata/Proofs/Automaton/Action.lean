import EpsilonAutomata.Proofs.Automaton.Stepping
import EpsilonAutomata.Proofs.Value.Collections

/-!
# Words act on sets of states

Reading a word takes a set of states to a set of states (`OfStates.readSymbols`), so what one query
answers can be the argument of the next. The sets are those that runs on the word reach
(`ReachesFrom`), and runs can be put together and cut. So to read two words one after the other is to
read them as one word, though the set between them is closed once more; and what is read from the
union of two sets is the union of what is read from each (`deltaExt_acts`).
-/

namespace EpsilonAutomata

open Outcome

namespace Automaton

variable {n : Automaton}

/-! ## Answers are sets of states -/

namespace OfStates

variable {s r found : ValueSet}

theorem insert (h : n.OfStates s) {a : Value} (ha : n.IsState a) : n.OfStates (s.insert a) := by
  intro b hb
  rcases OrderedSet.mem_items_of_mem_items_insert hb with hb | rfl
  · exact h b hb
  · exact ha

theorem of_named {a : Value} (ha : ∀ b ∈ a.named, n.IsState b) : n.OfStates (.ofList a.named) :=
  fun b hb => ha b (OrderedSet.mem_of_mem_items_ofList hb)

theorem visitFrames (made : n.Made) {stack : List Frame} (hfound : n.OfStates found)
    (hstack : ∀ f ∈ stack, n.IsState f.state) (h : n.visitFrames found stack = .ok r) :
    n.OfStates r := by
  fun_induction n.visitFrames found stack with
  | case1 found =>
    obtain rfl := Except.ok.inj h
    exact hfound
  | case2 found f stack _ ih =>
    exact ih hfound (fun g hg => hstack g (List.mem_cons_of_mem f hg)) h
  | case3 found f stack _ _ ih =>
    refine ih (hfound.insert (hstack f List.mem_cons_self)) (fun g hg => ?_) h
    rcases List.mem_append.mp hg with hg | hg
    · obtain ⟨s, hs, -, -, rfl⟩ := mem_nextFrames.mp hg
      exact made.isState_of_target (.inl (mem_epsilonGoals hs))
    · exact hstack g (List.mem_cons_of_mem f hg)
  | case4 => cases h

theorem visitOrigins (made : n.Made) {origins : List Value} (hfound : n.OfStates found)
    (horigins : ∀ a ∈ origins, n.IsState a) (h : n.visitOrigins found origins = .ok r) :
    n.OfStates r := by
  induction origins generalizing found with
  | nil =>
    obtain rfl := Except.ok.inj h
    exact hfound
  | cons a origins ih =>
    have hlater : ∀ b ∈ origins, n.IsState b := fun b hb => horigins b (List.mem_cons_of_mem a hb)
    rw [Automaton.visitOrigins] at h
    split at h
    · exact ih hfound hlater h
    · obtain ⟨found', hvisit, h⟩ := bind_eq_ok_iff.mp h
      refine ih (hfound.visitFrames made (fun f hf => ?_) hvisit) hlater h
      rw [List.mem_singleton.mp hf]
      exact horigins a List.mem_cons_self

theorem close (made : n.Made) {method : ClosureMethod} (hs : n.OfStates s)
    (h : n.close method s = .ok r) : n.OfStates r := by
  cases method with
  | rounds =>
    obtain rfl := Except.ok.inj h
    exact hs.closure made
  | depth => exact visitOrigins made (fun b hb => absurd hb List.not_mem_nil) hs h

theorem move (made : n.Made) {x : Value} (h : n.move s x = .ok r) : n.OfStates r := by
  unfold Automaton.move at h
  split at h
  · obtain rfl := Except.ok.inj h
    exact moved made x
  · cases h

theorem readSymbols (made : n.Made) {method : ClosureMethod} {w : Word} (hs : n.OfStates s)
    (h : n.readSymbols method s w = .ok r) : n.OfStates r := by
  induction w generalizing s with
  | nil =>
    obtain rfl := Except.ok.inj h
    exact hs
  | cons x w ih =>
    rw [Automaton.readSymbols] at h
    split at h
    · exact ih hs h
    split at h
    · obtain rfl := Except.ok.inj h
      exact hs
    · obtain ⟨moved, hmove, h⟩ := bind_eq_ok_iff.mp h
      obtain ⟨closed, hclose, h⟩ := bind_eq_ok_iff.mp h
      exact ih ((move made hmove).close made hclose) h

theorem of_deltaExt (made : n.Made) {a word : Value} (ha : ∀ b ∈ a.named, n.IsState b)
    {method : ClosureMethod} {log : Log} (h : ((n.deltaExt a word method).runWith log).1 = .ok r) :
    n.OfStates r := by
  rw [deltaExt_result] at h
  obtain ⟨closed, hbegin, h⟩ := bind_eq_ok_iff.mp h
  obtain ⟨w, -, h⟩ := bind_eq_ok_iff.mp h
  obtain ⟨reached, hread, h⟩ := bind_eq_ok_iff.mp h
  obtain ⟨-, -, h⟩ := bind_eq_ok_iff.mp h
  obtain rfl := Except.ok.inj h
  rw [Automaton.statesOf_eq_ok ha] at hbegin
  exact ((of_named ha).close made hbegin).readSymbols made hread

end OfStates

/-! ## What runs reach -/

namespace ReachesFrom

variable {xs ys : List Value} {u v w : Word} {r s t : ValueSet}

theorem unique (hs : n.ReachesFrom xs w s) (ht : n.ReachesFrom xs w t) : (s == t) = true := by
  rw [OrderedSet.beq_iff]
  intro b
  rw [hs, ht]

theorem congr (h : SameMembers xs ys) (hs : n.ReachesFrom xs w s) : n.ReachesFrom ys w s := by
  -- runs from equal values reach the same
  have hsub {xs ys : List Value} (h : SameMembers xs ys) {b : Value} :
      (∃ a ∈ xs, Run n.toShape a w b) → ∃ a ∈ ys, Run n.toShape a w b := by
    rintro ⟨a, ha, run⟩
    obtain ⟨c, hc, hac⟩ := h.exists_of_mem ha
    exact ⟨c, hc, run.congr_left (BEq.symm hac)⟩
  exact fun b => (hs b).trans ⟨hsub h, hsub h.symm⟩

theorem union (hs : n.ReachesFrom xs w s) (ht : n.ReachesFrom ys w t) :
    n.ReachesFrom (xs ++ ys) w (s ∪ t) := by
  intro b
  simp only [OrderedSet.mem_union, hs b, ht b, List.mem_append, or_and_right, exists_or]

theorem append (hs : n.ReachesFrom xs u s) (hr : n.ReachesFrom s.items v r) :
    n.ReachesFrom xs (u ++ v) r := by
  intro c
  rw [hr]
  constructor
  · rintro ⟨b, hb, rest⟩
    obtain ⟨a, ha, run⟩ := (hs b).mp (OrderedSet.mem_of_mem_items hb)
    exact ⟨a, ha, run.append rest⟩
  · rintro ⟨a, ha, run⟩
    obtain ⟨b, first, rest⟩ := run.exists_of_append
    obtain ⟨b', hb', hbb⟩ := OrderedSet.mem_iff_exists.mp ((hs b).mpr ⟨a, ha, first⟩)
    exact ⟨b', hb', rest.congr_left hbb⟩

end ReachesFrom

/-- Words act on sets of states, by either way of closing. From the states that an argument names,
reading two words as one leads where the second one leads from the states that the first one leads
to; and from the states that two arguments name together, a word leads to the union of the sets that
it leads to from each. -/
theorem deltaExt_acts (made : n.Made) (horder : n.Sortable) {a b both first second joined : Value}
    {u v : Word} (ha : ∀ s ∈ a.named, n.IsState s) (hb : ∀ s ∈ b.named, n.IsState s)
    (hboth : ∀ s ∈ both.named, n.IsState s) (hunion : SameMembers both.named (a.named ++ b.named))
    (hfirst : first.items = .ok u) (hsecond : second.items = .ok v)
    (hjoined : joined.items = .ok (u ++ v)) (hu : ∀ x ∈ u, x.hashable = true)
    (hv : ∀ x ∈ v, x.hashable = true) (method : ClosureMethod) (log : Log) :
    ∃ s t, ((n.deltaExt a first method).runWith log).1 = .ok s ∧
      ((n.deltaExt b first method).runWith log).1 = .ok t ∧
      (∃ r r', ((n.deltaExt a joined method).runWith log).1 = .ok r ∧
        ((n.deltaExt (.frozenSet s.items) second method).runWith log).1 = .ok r' ∧
        (r == r') = true) ∧
      ∃ r, ((n.deltaExt both first method).runWith log).1 = .ok r ∧ (r == s ∪ t) = true := by
  have hn := made.valid
  have hread {a word : Value} {w : Word} (ha : ∀ s ∈ a.named, n.IsState s)
      (hitems : word.items = .ok w) (hw : ∀ x ∈ w, x.hashable = true) :
      ∃ r, ((n.deltaExt a word method).runWith log).1 = .ok r ∧
        n.ReachesFrom a.named w.visible r := by
    obtain ⟨r, after, hdelta, hreach⟩ := deltaExt_named hn horder ha hitems hw method log
    exact ⟨r, by rw [hdelta], hreach⟩
  obtain ⟨s, hs, hreach⟩ := hread ha hfirst hu
  obtain ⟨t, ht, hreach'⟩ := hread hb hfirst hu
  refine ⟨s, t, hs, ht, ?_, ?_⟩
  · obtain ⟨r, hr, htogether⟩ := hread ha hjoined fun x hx => (List.mem_append.mp hx).elim (hu x) (hv x)
    have hagain : ∀ c ∈ (Value.frozenSet s.items).named, n.IsState c := OfStates.of_deltaExt made ha hs
    obtain ⟨r', hr', hthen⟩ := hread hagain hsecond hv
    rw [Word.visible_append] at htogether
    exact ⟨r, r', hr, hr', htogether.unique (hreach.append hthen)⟩
  · obtain ⟨r, hr, htogether⟩ := hread hboth hfirst hu
    exact ⟨r, hr, (htogether.congr hunion).unique (hreach.union hreach')⟩

/-- Around the knot: from the cycle and from beyond it by words that begin and end with empty moves,
where the union is a set and its parts are a list and a frozen set that share a state. -/
theorem deltaExt_acts_knotted :
    let n := ofShape knotted
    let a := Value.list [.int 0, .bool true]
    let b := Value.frozenSet [.int 7, .int 1]
    let both := Value.set [.int 0, .int 1, .double (.finite 7)]
    let u := [Value.epsilon, .text "a"]
    let v := [Value.text "a", .epsilon, .tuple [.text "b"]]
    (n.Made ∧ n.Sortable ∧ (∀ s ∈ a.named, n.IsState s) ∧ (∀ s ∈ b.named, n.IsState s) ∧
      (∀ s ∈ both.named, n.IsState s) ∧ SameMembers both.named (a.named ++ b.named) ∧
      ∀ x ∈ u ++ v, x.hashable = true) ∧
    ∀ method, ∃ s t, ((n.deltaExt a (.list u) method).runWith .on).1 = .ok s ∧
      ((n.deltaExt b (.list u) method).runWith .on).1 = .ok t ∧
      (∃ r r', ((n.deltaExt a (.tuple (u ++ v)) method).runWith .on).1 = .ok r ∧
        ((n.deltaExt (.frozenSet s.items) (.tuple v) method).runWith .on).1 = .ok r' ∧
        (r == r') = true) ∧
      ∃ r, ((n.deltaExt both (.list u) method).runWith .on).1 = .ok r ∧ (r == s ∪ t) = true := by
  intro n a b both u v
  have hstate {s : Value} (hhash : s.hashable = true) (hmem : n.states.contains s = true) :
      n.IsState s := ⟨hhash, hmem⟩
  have ha : ∀ s ∈ a.named, n.IsState s := by
    simpa [a, Value.named] using ⟨hstate rfl (by decide +kernel), hstate rfl (by decide +kernel)⟩
  have hb : ∀ s ∈ b.named, n.IsState s := by
    simpa [b, Value.named] using ⟨hstate rfl (by decide +kernel), hstate rfl (by decide +kernel)⟩
  have hboth : ∀ s ∈ both.named, n.IsState s := by
    simpa [both, Value.named] using ⟨hstate rfl (by decide +kernel), hstate rfl (by decide +kernel),
      hstate rfl (by decide +kernel)⟩
  have hunion : SameMembers both.named (a.named ++ b.named) :=
    .of_within (by decide +kernel) (by decide +kernel)
  have hu : ∀ x ∈ u, x.hashable = true := by simp [u, Value.hashable]
  have hv : ∀ x ∈ v, x.hashable = true := by simp [v, Value.hashable, Value.allHashable]
  refine ⟨⟨knotted_made, knotted_sortable, ha, hb, hboth, hunion, ?_⟩, fun method => ?_⟩
  · exact fun x hx => (List.mem_append.mp hx).elim (hu x) (hv x)
  · exact deltaExt_acts knotted_made knotted_sortable ha hb hboth hunion rfl rfl rfl hu hv method .on

end Automaton

end EpsilonAutomata
