import EpsilonAutomata.Build.Counter
import EpsilonAutomata.Proofs.Outcome

/-!
# Drawing numbers

How building runs part by part, and what the numbers drawn are: none of the values to avoid
(`freshState_not_taken`), and of several drawn for a list of states no two equal
(`freshStates_spec`). From a counter that stands at a whole number the next number is one more
(`runWith_newState`), and a fresh one is the first later number that is not taken
(`freshState_eq_ok`).
-/

namespace EpsilonAutomata

/-- The whole number at which a counter stands. A truth value counts as zero or one. -/
def Counter.value? (k : Counter) : Option Int :=
  match k.last with
  | .int i => some i
  | .bool b => some (if b then 1 else 0)
  | _ => none

theorem Value.int_beq_int (i j : Int) : (Value.int i == Value.int j) = decide (i = j) := by
  rw [Value.beq_def, Value.same]

/-! ## Numbers after one another -/

/-- The whole numbers after the given one, in order. -/
def following (c : Int) : (count : Nat) → List Int
  | 0 => []
  | count + 1 => (c + 1) :: following (c + 1) count

theorem length_following (c : Int) (count : Nat) : (following c count).length = count := by
  induction count generalizing c with
  | zero => rfl
  | succ count ih => rw [following, List.length_cons, ih]

theorem mem_following {c i : Int} {count : Nat} : i ∈ following c count ↔ c < i ∧ i ≤ c + count := by
  induction count generalizing c with
  | zero =>
    simp only [following, List.not_mem_nil, false_iff]
    omega
  | succ count ih =>
    rw [following, List.mem_cons, ih]
    omega

theorem pairwise_following {c : Int} {count : Nat} : (following c count).Pairwise (· < ·) := by
  induction count generalizing c with
  | zero => exact .nil
  | succ count ih => exact List.pairwise_cons.mpr ⟨fun i hi => (mem_following.mp hi).1, ih⟩

theorem pairwise_map_following {c : Int} {count : Nat} :
    ((following c count).map Value.int).Pairwise fun a b => (a == b) = false := by
  refine List.pairwise_map.mpr (pairwise_following.imp fun {i j} hij => ?_)
  rw [Value.int_beq_int, decide_eq_false_iff_not]
  omega

theorem following_append (c : Int) (first second : Nat) :
    following c first ++ following (c + first) second = following c (first + second) := by
  induction first generalizing c with
  | zero => simp [following]
  | succ first ih =>
    rw [following, List.cons_append, Nat.add_right_comm, following, ← ih (c + 1)]
    congr 3
    omega

theorem getLastD_following (c : Int) (count : Nat) : (following c count).getLastD c = c + count := by
  induction count generalizing c with
  | zero => simp [following]
  | succ count ih =>
    rw [following, List.getLastD_cons, ih]
    omega

theorem getElem?_following {c : Int} {count i : Nat} (h : i < count) :
    (following c count)[i]? = some (c + i + 1) := by
  induction count generalizing c i with
  | zero => omega
  | succ count ih =>
    rw [following]
    cases i with
    | zero => simp
    | succ i =>
      rw [List.getElem?_cons_succ, ih (by omega), Option.some.injEq]
      omega

namespace Build

variable {α β : Type}

/-! ## Running part by part -/

@[simp] theorem runWith_pure (a : α) (ws : Workshop) :
    (pure a : Build α).runWith ws = (.ok a, ws) := rfl

@[simp] theorem runWith_quiet (r : Except Fault α) (ws : Workshop) :
    (quiet r).runWith ws = (r, ws) := rfl

@[simp] theorem runWith_get (ws : Workshop) : (get : Build Workshop).runWith ws = (.ok ws, ws) := rfl

theorem runWith_bind (x : Build α) (f : α → Build β) (ws : Workshop) :
    (x >>= f).runWith ws = match x.runWith ws with
      | (.ok a, mid) => (f a).runWith mid
      | (.error e, mid) => (.error e, mid) := by
  simp only [runWith, ExceptT.run, StateT.run, bind, ExceptT.bind, ExceptT.mk, StateT.bind]
  cases x ws with
  | mk result mid => cases result <;> rfl

theorem runWith_bind_ok {x : Build α} {f : α → Build β} {ws mid : Workshop} {a : α}
    (h : x.runWith ws = (.ok a, mid)) : (x >>= f).runWith ws = (f a).runWith mid := by
  rw [runWith_bind, h]

theorem runWith_bind_error {x : Build α} {f : α → Build β} {ws mid : Workshop} {e : Fault}
    (h : x.runWith ws = (.error e, mid)) : (x >>= f).runWith ws = (.error e, mid) := by
  rw [runWith_bind, h]

theorem bind_eq_ok_iff {x : Build α} {f : α → Build β} {ws after : Workshop} {b : β} :
    (x >>= f).runWith ws = (.ok b, after) ↔
      ∃ a mid, x.runWith ws = (.ok a, mid) ∧ (f a).runWith mid = (.ok b, after) := by
  rw [runWith_bind]
  constructor
  · intro h
    cases hx : x.runWith ws with
    | mk result mid =>
      rw [hx] at h
      cases result with
      | ok a => exact ⟨a, mid, rfl, h⟩
      | error e => cases h
  · rintro ⟨a, mid, hx, h⟩
    rw [hx]
    exact h

theorem quiet_eq_ok_iff {r : Except Fault α} {ws after : Workshop} {a : α} :
    (quiet r).runWith ws = (.ok a, after) ↔ r = .ok a ∧ after = ws := by
  rw [runWith_quiet, Prod.mk.injEq, @eq_comm _ ws]

theorem pure_eq_ok_iff {ws after : Workshop} {a b : α} :
    (pure a : Build α).runWith ws = (.ok b, after) ↔ a = b ∧ after = ws := by
  rw [runWith_pure, Prod.mk.injEq, Except.ok.injEq, @eq_comm _ ws]

theorem exists_of_outcome {work : Build α} {ws : Workshop} {test : α → Bool}
    (h : (work.runWith ws).1.toOption.any test = true) :
    ∃ a after, work.runWith ws = (.ok a, after) ∧ test a = true := by
  cases hrun : work.runWith ws with
  | mk result after =>
    rw [hrun] at h
    cases result with
    | error e => cases h
    | ok a => exact ⟨a, after, rfl, h⟩

theorem runWith_report (message : Unit → Except Fault String) {text : String}
    (h : message () = .ok text) (ws : Workshop) :
    ∃ after, (report message).runWith ws = (.ok (), after) ∧ after.counter = ws.counter := by
  obtain ⟨log, hlog⟩ := Logged.runWith_report message h ws.log
  have hrun : (report message).runWith ws = (((Logged.report message).runWith ws.log).1,
      { ws with log := ((Logged.report message).runWith ws.log).2 }) := rfl
  exact ⟨{ ws with log := log }, by rw [hrun, hlog], rfl⟩

theorem runWith_report_off (message : Unit → Except Fault String) {ws : Workshop}
    (h : ws.log.enabled = false) : (report message).runWith ws = (.ok (), ws) := by
  obtain ⟨counter, enabled, messages⟩ := ws
  obtain rfl : enabled = false := h
  rfl

theorem runWith_report_on (message : Unit → Except Fault String) (c : Counter)
    (messages : List String) :
    (report message).runWith ⟨c, true, messages⟩ = match message () with
      | .ok text => (.ok (), ⟨c, true, messages ++ [text]⟩)
      | .error e => (.error e, ⟨c, true, messages⟩) := by
  have hrun : (report message).runWith ⟨c, true, messages⟩ =
      (((Logged.report message).runWith ⟨true, messages⟩).1,
        ⟨c, ((Logged.report message).runWith ⟨true, messages⟩).2⟩) := rfl
  rw [hrun, Logged.runWith_report_on]
  cases message () <;> rfl

theorem counter_of_report {message : Unit → Except Fault String} {result : Except Fault Unit}
    {ws after : Workshop} (h : (report message).runWith ws = (result, after)) :
    after.counter = ws.counter := by
  obtain rfl : _ = after := congrArg Prod.snd h
  rfl

/-! ## The next number -/

theorem plus_of_value? {k : Counter} {c : Int} (h : k.value? = some c) (i : Int) :
    k.last.plus i = .ok (.int (c + i)) := by
  unfold Counter.value? at h
  split at h <;> simp_all [Value.plus]

theorem runWith_newState {ws : Workshop} {c : Int} (h : ws.counter.value? = some c) :
    newState.runWith ws = (.ok (.int (c + 1)), { ws with counter := ⟨.int (c + 1)⟩ }) := by
  rw [newState, runWith_bind_ok (runWith_get ws), plus_of_value? h]
  rfl

/-! ## Fresh numbers -/

theorem freshWithin_not_taken {taken : ValueSet} {bound : Nat} {ws after : Workshop} {v : Value}
    (h : (freshWithin taken bound).runWith ws = (.ok v, after)) : v ∉ taken := by
  induction bound generalizing ws with
  | zero => cases h
  | succ bound ih =>
    rw [freshWithin, bind_eq_ok_iff] at h
    obtain ⟨number, mid, -, h⟩ := h
    split at h
    · exact ih h
    · next hfree =>
      obtain ⟨rfl, -⟩ := pure_eq_ok_iff.mp h
      exact hfree

theorem freshState_not_taken {taken : ValueSet} {ws after : Workshop} {v : Value}
    (h : (freshState taken).runWith ws = (.ok v, after)) : v ∉ taken :=
  freshWithin_not_taken h

theorem freshWithin_eq_ok {taken : ValueSet} {bound : Nat} {ws after : Workshop} {v : Value} {c : Int}
    (hc : ws.counter.value? = some c)
    (h : (freshWithin taken bound).runWith ws = (.ok v, after)) :
    ∃ k, c < k ∧ v = .int k ∧ after.counter = ⟨.int k⟩ ∧
      ∀ i, c < i → i < k → Value.int i ∈ taken := by
  induction bound generalizing ws c with
  | zero => cases h
  | succ bound ih =>
    rw [freshWithin, runWith_bind_ok (runWith_newState hc)] at h
    split at h
    · next htaken =>
      obtain ⟨k, hk, rfl, hafter, hbetween⟩ := ih rfl h
      refine ⟨k, by omega, rfl, hafter, fun i hi hik => ?_⟩
      obtain rfl | hlater : i = c + 1 ∨ c + 1 < i := by omega
      · exact htaken
      · exact hbetween i hlater hik
    · obtain ⟨rfl, rfl⟩ := pure_eq_ok_iff.mp h
      exact ⟨c + 1, by omega, rfl, rfl, fun i hi hik => by omega⟩

theorem freshState_eq_ok {taken : ValueSet} {ws after : Workshop} {v : Value} {c : Int}
    (hc : ws.counter.value? = some c) (h : (freshState taken).runWith ws = (.ok v, after)) :
    ∃ k, c < k ∧ v = .int k ∧ after.counter = ⟨.int k⟩ ∧
      ∀ i, c < i → i < k → Value.int i ∈ taken :=
  freshWithin_eq_ok hc h

theorem freshWithin_cases {taken : ValueSet} {bound : Nat} {ws : Workshop} {c : Int}
    (hc : ws.counter.value? = some c) :
    (∃ k, c < k ∧
      (freshWithin taken bound).runWith ws = (.ok (.int k), { ws with counter := ⟨.int k⟩ })) ∨
      ∀ i, c < i → i ≤ c + bound → Value.int i ∈ taken := by
  induction bound generalizing ws c with
  | zero => exact .inr fun i hi hle => by omega
  | succ bound ih =>
    rw [freshWithin, runWith_bind_ok (runWith_newState hc)]
    split
    · next htaken =>
      rcases @ih { ws with counter := ⟨.int (c + 1)⟩ } (c + 1) rfl with ⟨k, hk, hrun⟩ | hall
      · exact .inl ⟨k, by omega, hrun⟩
      · refine .inr fun i hi hle => ?_
        obtain rfl | hlater : i = c + 1 ∨ c + 1 < i := by omega
        · exact htaken
        · exact hall i hlater (by omega)
    · exact .inl ⟨c + 1, by omega, rfl⟩

/-- The counter always comes to a number that is not taken: there are more numbers than taken
values. -/
theorem freshState_returns {ws : Workshop} {c : Int} (taken : ValueSet)
    (hc : ws.counter.value? = some c) :
    ∃ k, c < k ∧
      (freshState taken).runWith ws = (.ok (.int k), { ws with counter := ⟨.int k⟩ }) := by
  rcases @freshWithin_cases taken (taken.size + 1) ws c hc with hfresh | hall
  · exact hfresh
  · have htaken : ∀ a ∈ (following c (taken.size + 1)).map Value.int, a ∈ taken := by
      intro a ha
      obtain ⟨i, hi, rfl⟩ := List.mem_map.mp ha
      obtain ⟨hlo, hhi⟩ := mem_following.mp hi
      exact hall i hlo hhi
    have hlength := OrderedSet.length_le_size pairwise_map_following htaken
    rw [List.length_map, length_following] at hlength
    omega

theorem runWith_freshState {taken : ValueSet} {ws : Workshop} {c : Int}
    (h : ws.counter.value? = some c) (hfree : Value.int (c + 1) ∉ taken) :
    (freshState taken).runWith ws = (.ok (.int (c + 1)), { ws with counter := ⟨.int (c + 1)⟩ }) := by
  rw [freshState, freshWithin, runWith_bind_ok (runWith_newState h),
    if_neg (mt OrderedSet.mem_def.mpr hfree)]
  rfl

/-- Each state gets a number, in order; no number is taken and no two are equal. -/
theorem freshStates_spec {taken : ValueSet} {states : List Value} {ws after : Workshop}
    {entries : List (Value × Value)}
    (h : (freshStates taken states).runWith ws = (.ok entries, after)) :
    entries.map (·.1) = states ∧ (∀ e ∈ entries, e.2 ∉ taken) ∧
      entries.Pairwise fun d e => (d.2 == e.2) = false := by
  induction states generalizing taken ws entries with
  | nil =>
    obtain ⟨rfl, rfl⟩ := pure_eq_ok_iff.mp h
    exact ⟨rfl, by simp, .nil⟩
  | cons s states ih =>
    simp only [freshStates, bind_eq_ok_iff, pure_eq_ok_iff] at h
    obtain ⟨number, mid, hnumber, others, mid', hothers, rfl, rfl⟩ := h
    obtain ⟨hkeys, hfree, hdistinct⟩ := ih hothers
    -- for the other states the number just drawn is taken as well
    have hother : ∀ e ∈ others, e.2 ∉ taken ∧ (number == e.2) = false := by
      intro e he
      have hnot := hfree e he
      rw [OrderedSet.mem_insert, not_or, Bool.not_eq_true] at hnot
      exact hnot
    refine ⟨by rw [List.map_cons, hkeys], ?_, ?_⟩
    · intro e he
      rcases List.mem_cons.mp he with rfl | he
      · exact freshState_not_taken hnumber
      · exact (hother e he).1
    · exact List.pairwise_cons.mpr ⟨fun e he => (hother e he).2, hdistinct⟩

theorem freshStates_counter {taken : ValueSet} {states : List Value} {ws after : Workshop}
    {entries : List (Value × Value)} {c : Int} (hc : ws.counter.value? = some c)
    (h : (freshStates taken states).runWith ws = (.ok entries, after)) :
    ∃ d, c ≤ d ∧ after.counter.value? = some d ∧
      ∀ e ∈ entries, ∃ i, e.2 = .int i ∧ c < i ∧ i ≤ d := by
  induction states generalizing taken ws entries c with
  | nil =>
    obtain ⟨rfl, rfl⟩ := pure_eq_ok_iff.mp h
    exact ⟨c, Int.le_refl c, hc, by simp⟩
  | cons s states ih =>
    simp only [freshStates, bind_eq_ok_iff, pure_eq_ok_iff] at h
    obtain ⟨number, mid, hnumber, others, mid', hothers, rfl, rfl⟩ := h
    obtain ⟨k, hk, rfl, hmid, -⟩ := freshState_eq_ok hc hnumber
    obtain ⟨d, hd, hafter, hrange⟩ := ih (c := k) (by rw [hmid]; rfl) hothers
    refine ⟨d, by omega, hafter, fun e he => ?_⟩
    rcases List.mem_cons.mp he with rfl | he
    · exact ⟨k, rfl, hk, hd⟩
    · obtain ⟨i, hi, hlo, hhi⟩ := hrange e he
      exact ⟨i, hi, by omega, hhi⟩

end Build

end EpsilonAutomata
