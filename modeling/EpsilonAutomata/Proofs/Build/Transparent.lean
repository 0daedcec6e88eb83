import EpsilonAutomata.Proofs.Automaton.Reading
import EpsilonAutomata.Proofs.Automaton.Refusal
import EpsilonAutomata.Proofs.Build.History

/-!
# What the log changes

`Transparent p work` says that work gives the same and leaves the counter the same whatever the log
is, and that what it gives satisfies `p`; such work goes on to such work (`Transparent.bind`). All
that is made from nothing is transparent, because its final states are drawn from the counter and so
are numbers, which can be listed in order in a report (`HasNumbers`). Concatenation and union report
an automaton whose final states were given. With the log on they fail if these cannot be compared,
and that is the only difference the log makes (`log_shows_in_joins_only`).
-/

namespace EpsilonAutomata

open Outcome

/-! ## Numbers -/

/-- The value stands for a number, defined or not. -/
def Value.IsNumber (a : Value) : Prop :=
  ∃ q, a.scalar? = some (.number q)

theorem Value.isNumber_of_plus {a v : Value} {i : Int} (h : a.plus i = .ok v) : v.IsNumber := by
  unfold Value.plus at h
  split at h
  · obtain rfl := Except.ok.inj h
    exact ⟨_, rfl⟩
  · obtain rfl := Except.ok.inj h
    exact ⟨_, rfl⟩
  · obtain rfl := Except.ok.inj h
    exact ⟨_, rfl⟩
  · cases h

theorem ValueSet.comparable_of_numbers {s : ValueSet} (h : ∀ a ∈ s.items, a.IsNumber) :
    Comparable s := by
  apply s.distinct.imp_of_mem
  intro a b ha hb _
  obtain ⟨p, hp⟩ := h a ha
  obtain ⟨q, hq⟩ := h b hb
  rw [Value.lt?_of_scalar hp hq]
  rfl

namespace Build

variable {α β : Type} {p : α → Prop} {q : β → Prop} {m n : Automaton}

/-! ## Work that the log does not change -/

/-- Whatever the log, the work gives the same, leaves the counter at the same value, and leaves the
log on or off. What it gives satisfies a condition. -/
def Transparent (p : α → Prop) (work : Build α) : Prop :=
  ∀ c, ∃ result after, (∀ a, result = .ok a → p a) ∧ ∀ log, ∃ messages,
    work.runWith ⟨c, log⟩ = (result, ⟨after, ⟨log.enabled, messages⟩⟩)

theorem Transparent.bind {x : Build α} {f : α → Build β} (hx : Transparent p x)
    (hf : ∀ a, p a → Transparent q (f a)) : Transparent q (x >>= f) := by
  intro c
  obtain ⟨first, mid, hp, hfirst⟩ := hx c
  cases first with
  | error e =>
    refine ⟨.error e, mid, fun b hb => (nomatch hb), fun log => ?_⟩
    obtain ⟨messages, hrun⟩ := hfirst log
    exact ⟨messages, runWith_bind_error hrun⟩
  | ok a =>
    obtain ⟨result, after, hq, hrest⟩ := hf a (hp a rfl) mid
    refine ⟨result, after, hq, fun log => ?_⟩
    obtain ⟨messages, hrun⟩ := hfirst log
    obtain ⟨messages', hrun'⟩ := hrest ⟨log.enabled, messages⟩
    exact ⟨messages', by rw [runWith_bind_ok hrun, hrun']⟩

theorem Transparent.mono {p' : α → Prop} {x : Build α} (hx : Transparent p x)
    (h : ∀ a, p a → p' a) : Transparent p' x := by
  intro c
  obtain ⟨result, after, hp, hrun⟩ := hx c
  exact ⟨result, after, fun a ha => h a (hp a ha), hrun⟩

theorem transparent_quiet (result : Except Fault α) :
    Transparent (fun a => result = .ok a) (quiet result) :=
  fun c => ⟨result, c, fun _ h => h, fun log => ⟨log.messages, rfl⟩⟩

theorem transparent_pure {a : α} (h : p a) : Transparent p (pure a : Build α) :=
  (transparent_quiet (.ok a)).mono fun _ hb => Except.ok.inj hb ▸ h

theorem transparent_throw (e : Fault) : Transparent p (throw e : Build α) :=
  (transparent_quiet (.error e)).mono fun _ h => nomatch h

theorem transparent_report {message : Unit → Except Fault String} {text : String}
    (h : message () = .ok text) : Transparent (fun _ => True) (report message) := by
  intro c
  refine ⟨.ok (), c, fun _ _ => trivial, fun log => ?_⟩
  obtain ⟨enabled, messages⟩ := log
  cases enabled with
  | false => exact ⟨messages, rfl⟩
  | true => exact ⟨messages ++ [text], by rw [runWith_report_on, h]⟩

theorem transparent_newState : Transparent Value.IsNumber newState := by
  intro c
  cases hnext : c.last.plus 1 with
  | error e =>
    refine ⟨.error e, c, fun a ha => (nomatch ha), fun log => ⟨log.messages, ?_⟩⟩
    rw [newState, runWith_bind_ok (runWith_get _), hnext]
    rfl
  | ok v =>
    refine ⟨.ok v, ⟨v⟩, fun a ha => ?_, fun log => ⟨log.messages, ?_⟩⟩
    · obtain rfl := Except.ok.inj ha
      exact Value.isNumber_of_plus hnext
    · rw [newState, runWith_bind_ok (runWith_get _), hnext]
      rfl

theorem transparent_newStates (count : Nat) : Transparent (fun _ => True) (newStates count) := by
  induction count with
  | zero => exact transparent_pure trivial
  | succ count ih =>
    exact transparent_newState.bind fun _ _ => ih.bind fun _ _ => transparent_pure trivial

theorem transparent_freshWithin (taken : ValueSet) (bound : Nat) :
    Transparent Value.IsNumber (freshWithin taken bound) := by
  induction bound with
  | zero => exact transparent_throw .stuckCounter
  | succ bound ih =>
    apply transparent_newState.bind
    intro number hnumber
    split
    · exact ih
    · exact transparent_pure hnumber

theorem transparent_freshStates (taken : ValueSet) (states : List Value) :
    Transparent (fun entries => ∀ e ∈ entries, e.2.IsNumber) (freshStates taken states) := by
  induction states generalizing taken with
  | nil => exact transparent_pure fun e he => absurd he List.not_mem_nil
  | cons s states ih =>
    apply (transparent_freshWithin taken _).bind
    intro number hnumber
    apply (ih (taken.insert number)).bind
    intro others hothers
    apply transparent_pure
    intro e he
    rcases List.mem_cons.mp he with rfl | he
    · exact hnumber
    · exact hothers e he

/-! ## Automata whose final states are numbers -/

/-- Every final state is a number. -/
def HasNumbers (n : Automaton) : Prop :=
  ∀ f ∈ n.finals.items, f.IsNumber

theorem hasNumbers_of_make {s : Shape} (h : Automaton.make s = .ok n)
    (hs : ∀ f ∈ s.finals.items, f.IsNumber) : HasNumbers n := by
  obtain ⟨-, rfl⟩ := Automaton.make_eq_ok_iff.mp h
  exact hs

theorem hasNumbers_of_remap {entries : List (Value × Value)} {r : Automaton}
    (hentries : ∀ e ∈ entries, e.2.IsNumber) (h : n.remap (.ofList entries) = .ok r) :
    HasNumbers r := by
  obtain ⟨initial, ts, fs, -, -, -, hfs, -, rfl⟩ := Automaton.remap_eq_ok h
  intro f hf
  obtain ⟨g, -, hg⟩ := exists_of_mem_mapM hfs (OrderedSet.mem_of_mem_items_ofList hf)
  obtain ⟨e, he, rfl⟩ := Mapping.exists_of_mem_values_ofList (Mapping.mem_values_of_get hg)
  exact hentries e he

theorem transparent_separate (m n : Automaton) :
    Transparent (fun r => HasNumbers n → HasNumbers r) (separate m n) := by
  unfold separate
  split
  · exact transparent_pure id
  · apply (transparent_quiet _).bind
    intro inOrder _
    apply (transparent_freshStates _ inOrder).bind
    intro entries hentries
    apply (transparent_report rfl).bind
    intro _ _
    exact (transparent_quiet _).mono fun r hr _ => hasNumbers_of_remap hentries hr

/-! ## Joining two automata -/

/-- The outcome, if the final states of what was joined can be listed in order. -/
def listed (result : Except Fault Automaton) : Except Fault Automaton := do
  let joined ← result
  if ValueSet.Comparable joined.finals then return joined else throw .incomparable

theorem listed_eq_self {result : Except Fault Automaton}
    (h : ∀ j, result = .ok j → ValueSet.Comparable j.finals) : listed result = result := by
  cases result with
  | error e => rfl
  | ok j => exact if_pos (h j rfl)

/-- Work that is transparent but for a report of what it gives at its end. With the log on it fails
if the final states cannot be listed in this report. -/
def Reporting (p : Automaton → Prop) (work : Build Automaton) : Prop :=
  ∀ c, ∃ result after, (∀ j, result = .ok j → p j) ∧ ∀ log, ∃ messages,
    work.runWith ⟨c, log⟩ =
      (if log.enabled then listed result else result, ⟨after, ⟨log.enabled, messages⟩⟩)

theorem Transparent.reporting {p' : Automaton → Prop} {x : Build α} {f : α → Build Automaton}
    (hx : Transparent p x) (hf : ∀ a, p a → Reporting p' (f a)) : Reporting p' (x >>= f) := by
  intro c
  obtain ⟨first, mid, hp, hfirst⟩ := hx c
  cases first with
  | error e =>
    refine ⟨.error e, mid, fun j hj => (nomatch hj), fun log => ?_⟩
    obtain ⟨messages, hrun⟩ := hfirst log
    refine ⟨messages, ?_⟩
    rw [runWith_bind_error hrun, show listed (.error e) = .error e from rfl, ite_self]
  | ok a =>
    obtain ⟨result, after, hp', hrest⟩ := hf a (hp a rfl) mid
    refine ⟨result, after, hp', fun log => ?_⟩
    obtain ⟨messages, hrun⟩ := hfirst log
    obtain ⟨messages', hrun'⟩ := hrest ⟨log.enabled, messages⟩
    exact ⟨messages', by rw [runWith_bind_ok hrun, hrun']⟩

theorem reporting_report {p : Automaton → Prop} {j : Automaton} (text : String) (h : p j) :
    Reporting p (do
      report fun _ => do return text ++ (← j.summary)
      return j) := by
  intro c
  refine ⟨.ok j, c, fun k hk => Except.ok.inj hk ▸ h, fun log => ?_⟩
  obtain ⟨enabled, messages⟩ := log
  cases enabled with
  | false => exact ⟨messages, rfl⟩
  | true =>
    rw [if_pos rfl, runWith_bind, runWith_report_on]
    by_cases hfinals : ValueSet.Comparable j.finals
    · obtain ⟨line, hline⟩ := Shape.summary_eq_ok hfinals.sorted_eq_ok
      rw [hline, listed_eq_self fun k hk => Except.ok.inj hk ▸ hfinals]
      exact ⟨_, rfl⟩
    · rw [Shape.summary_eq_error hfinals, show listed (.ok j) = .error .incomparable from
        if_neg hfinals]
      exact ⟨messages, rfl⟩

theorem Reporting.transparent {p : Automaton → Prop} {work : Build Automaton}
    (h : Reporting p work) (hp : ∀ j, p j → HasNumbers j) : Transparent HasNumbers work := by
  intro c
  obtain ⟨result, after, hresult, hrun⟩ := h c
  have hnumbers : ∀ j, result = .ok j → HasNumbers j := fun j hj => hp j (hresult j hj)
  refine ⟨result, after, hnumbers, fun log => ?_⟩
  obtain ⟨messages, hrun⟩ := hrun log
  refine ⟨messages, ?_⟩
  rw [hrun, listed_eq_self fun j hj => ValueSet.comparable_of_numbers (hnumbers j hj), ite_self]

theorem reporting_concat (m n : Automaton) :
    Reporting (fun j => HasNumbers n → HasNumbers j) (concat m n) := by
  apply (transparent_separate m n).reporting
  intro r hr
  apply (transparent_quiet _).reporting
  intro transitions _
  apply (transparent_quiet _).reporting
  intro j hj
  apply reporting_report
  exact fun hn => hasNumbers_of_make hj (hr hn)

theorem reporting_union (m n : Automaton) :
    Reporting (fun j => HasNumbers m → HasNumbers n → HasNumbers j) (union m n) := by
  apply (transparent_separate m n).reporting
  intro r hr
  apply (transparent_freshWithin _ _).reporting
  intro start _
  apply (transparent_quiet _).reporting
  intro transitions _
  apply (transparent_quiet _).reporting
  intro j hj
  apply reporting_report
  intro hm hn
  apply hasNumbers_of_make hj
  intro f hf
  rcases OrderedSet.mem_items_of_mem_items_insertAll hf with hf | hf
  · exact hm f hf
  · exact hr hn f hf

/-! ## Automata made from nothing -/

theorem transparent_empty : Transparent HasNumbers empty := by
  apply transparent_newState.bind
  intro s _
  apply (transparent_quiet _).mono
  exact fun n hn => hasNumbers_of_make hn fun f hf => absurd hf List.not_mem_nil

theorem transparent_epsilon : Transparent HasNumbers epsilon := by
  apply transparent_newState.bind
  intro s _
  apply transparent_newState.bind
  intro e he
  apply (transparent_quiet _).mono
  exact fun n hn => hasNumbers_of_make hn fun f hf => OrderedSet.eq_of_mem_items_singleton hf ▸ he

theorem transparent_symbol (x : Value) : Transparent HasNumbers (symbol x) := by
  unfold symbol
  split
  · exact transparent_throw .epsilonAutomaton
  · apply transparent_newState.bind
    intro s _
    apply transparent_newState.bind
    intro e he
    apply (transparent_quiet _).bind
    intro y _
    apply (transparent_quiet _).mono
    exact fun n hn => hasNumbers_of_make hn fun f hf => OrderedSet.eq_of_mem_items_singleton hf ▸ he

theorem transparent_concat (m : Automaton) (hn : HasNumbers n) :
    Transparent HasNumbers (concat m n) :=
  (reporting_concat m n).transparent fun _ hj => hj hn

theorem transparent_union (hm : HasNumbers m) (hn : HasNumbers n) :
    Transparent HasNumbers (union m n) :=
  (reporting_union m n).transparent fun _ hj => hj hm hn

theorem transparent_appendSymbols (hn : HasNumbers n) (w : Word) :
    Transparent HasNumbers (appendSymbols n w) := by
  induction w generalizing n with
  | nil => exact transparent_pure hn
  | cons x w ih =>
    apply (transparent_symbol x).bind
    intro part hpart
    apply (transparent_concat n hpart).bind
    exact fun joined hjoined => ih hjoined

theorem transparent_string (word : Value) : Transparent HasNumbers (string word) := by
  apply (transparent_quiet _).bind
  intro w _
  cases w with
  | nil => exact transparent_epsilon
  | cons x rest =>
    apply (transparent_symbol x).bind
    exact fun n hn => transparent_appendSymbols hn rest

theorem transparent_regex (r : Regex) : Transparent HasNumbers (regex r) := by
  induction r with
  | empty => exact transparent_empty
  | eps => exact transparent_epsilon
  | symb x => exact transparent_symbol x
  | seq a b iha ihb =>
    apply iha.bind
    intro m _
    apply ihb.bind
    exact fun n hn => transparent_concat m hn
  | alt a b iha ihb =>
    apply iha.bind
    intro m hm
    apply ihb.bind
    exact fun n hn => transparent_union hm hn
  | bare => exact transparent_throw (.notCompilable none)

theorem transparent_refusal {o : Operand} (h : ∀ r, o ≠ .node r) :
    Transparent (fun _ => False) (operand o) := by
  cases o with
  | node r => exact absurd rfl (h r)
  | value | automaton =>
    apply (transparent_quiet _).bind
    exact fun _ _ => transparent_throw _

theorem transparent_operand (o : Operand) : Transparent HasNumbers (operand o) := by
  cases o with
  | node r => exact transparent_regex r
  | value | automaton => exact (transparent_refusal (by simp)).mono fun _ h => h.elim

theorem transparent_compile (o : Operand) : Transparent HasNumbers (compile o) := by
  cases o with
  | node r =>
    apply (transparent_regex r).bind
    intro n hn
    apply (transparent_report rfl).bind
    exact fun _ _ => transparent_pure hn
  | value | automaton => exact (transparent_refusal (by simp)).bind fun _ h => h.elim

theorem transparent_origin (origin : Origin) : Transparent HasNumbers origin.work := by
  cases origin with
  | empty => exact transparent_empty
  | epsilon => exact transparent_epsilon
  | symbol x => exact transparent_symbol x
  | string word => exact transparent_string word
  | build o => exact transparent_operand o
  | compile o => exact transparent_compile o

/-! ## With the log on and off -/

/-- What a caller sees of the work: its outcome, and where it left the counter. -/
def seen (work : Build α) (c : Counter) (log : Log) : Except Fault α × Counter :=
  ((work.runWith ⟨c, log⟩).1, (work.runWith ⟨c, log⟩).2.counter)

theorem Transparent.seen_eq {work : Build α} (h : Transparent p work) (c : Counter) (log : Log) :
    seen work c log = seen work c .off := by
  obtain ⟨result, after, -, hrun⟩ := h c
  obtain ⟨messages, hon⟩ := hrun log
  obtain ⟨messages', hoff⟩ := hrun .off
  rw [seen, seen, hon, hoff]

theorem Reporting.seen_eq {p : Automaton → Prop} {work : Build Automaton} (h : Reporting p work)
    (c : Counter) (log : Log) : seen work c log =
      if log.enabled then (listed (seen work c .off).1, (seen work c .off).2)
      else seen work c .off := by
  obtain ⟨result, after, -, hrun⟩ := h c
  obtain ⟨messages, hon⟩ := hrun log
  obtain ⟨messages', hoff⟩ := hrun .off
  rw [seen, seen, hon, hoff]
  cases log.enabled <;> rfl

/-- Whatever the log, it changes nothing that a caller sees of drawing numbers, of automata made
from nothing, of separating states, of renumbering and of reading words. A concatenation or a union
is the same with the log on, except that it fails if two final states of its result cannot be
compared. -/
theorem log_shows_in_joins_only (log : Log) (c : Counter) (m n : Automaton) :
    seen newState c log = seen newState c .off ∧
    (∀ count, seen (newStates count) c log = seen (newStates count) c .off) ∧
    (∀ origin : Origin, seen origin.work c log = seen origin.work c .off) ∧
    seen (separate m n) c log = seen (separate m n) c .off ∧
    (seen (concat m n) c log =
      if log.enabled then (listed (seen (concat m n) c .off).1, (seen (concat m n) c .off).2)
      else seen (concat m n) c .off) ∧
    (seen (union m n) c log =
      if log.enabled then (listed (seen (union m n) c .off).1, (seen (union m n) c .off).2)
      else seen (union m n) c .off) ∧
    (∀ base, ((n.renumber base).runWith log).1 = (n.renumber base).outcome) ∧
    (∀ a word method,
      ((n.deltaExt a word method).runWith log).1 = (n.deltaExt a word method).outcome) ∧
    ∀ word, ((n.accepts word).runWith log).1 = (n.accepts word).outcome := by
  refine ⟨transparent_newState.seen_eq c log, ?_, ?_, (transparent_separate m n).seen_eq c log,
    (reporting_concat m n).seen_eq c log, (reporting_union m n).seen_eq c log, ?_, ?_, ?_⟩
  · exact fun count => (transparent_newStates count).seen_eq c log
  · exact fun origin => (transparent_origin origin).seen_eq c log
  · intro base
    rw [Logged.outcome, Automaton.renumber_result, Automaton.renumber_result]
  · intro a word method
    rw [Logged.outcome, Automaton.deltaExt_result, Automaton.deltaExt_result]
  · intro word
    rw [Logged.outcome, Automaton.accepts_result, Automaton.accepts_result,
      Automaton.deltaExt_result, Automaton.deltaExt_result]

/-- A word of one symbol before an automaton in which a number and a text are final: the two are
joined as long as no one listens. -/
theorem concat_unordered :
    let m := Automaton.ofShape (.edge (.int 2) (.text "x") (.int 3))
    let n := Automaton.ofShape Automaton.unordered
    m.Made ∧ n.Made ∧ (∃ j, (seen (concat m n) .fresh .off).1 = .ok j) ∧
      (seen (concat m n) .fresh .on).1 = .error .incomparable := by
  intro m n
  have hm : m.Made :=
    Automaton.made_ofShape (.list [.int 2, .int 3]) (.list [.text "x"]) (.int 2)
      (.list [.tuple [.int 2, .text "x", .int 3]]) (.list [.int 3]) rfl
      (List.isEmpty_iff.mp (by decide +kernel)) rfl
  have hoff : ((concat m n).runWith ⟨.fresh, .off⟩).1.toOption.any
      (fun j => !decide (ValueSet.Comparable j.finals)) = true := by decide +kernel
  obtain ⟨j, after, hrun, hfinals⟩ := exists_of_outcome hoff
  have hseen : seen (concat m n) .fresh .off = (.ok j, after.counter) := by
    rw [seen, hrun]
  refine ⟨hm, Automaton.unordered_made, ⟨j, congrArg Prod.fst hseen⟩, ?_⟩
  rw [(reporting_concat m n).seen_eq, if_pos (show Log.on.enabled = true from rfl), hseen]
  exact if_neg (by simpa using hfinals)

end Build

end EpsilonAutomata
