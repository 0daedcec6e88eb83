import EpsilonAutomata.Proofs.Build.Numbered

/-!
# Runs of builders that share a counter

`Draws` says which numbers the counter issues while some work is done, the work of a failed operation
included. `History` is a run of operations, one after the other, on one counter; which builder does
which does not matter, since a builder is its counter. From a whole number on the numbers issued are
those that follow it (`Draws.numbers`), so none is issued twice. What is made from nothing in one step
has the numbers of that step as states, and combining automata adds numbers issued meanwhile; so
automata made in different steps share no state, and no state lies outside what the counter issued
(`History.issues_increasing`).
-/

namespace EpsilonAutomata.Build

open Automaton (ofShape)

variable {α β : Type} {ws after : Workshop} {c : Int}

/-! ## The numbers that work draws -/

/-- The numbers that the counter issues while the work is done, in order. A part that fails ends the
work, and what was issued before stays issued. -/
inductive Draws : {α : Type} → Build α → Workshop → List Value → Prop
  | quiet {α : Type} (result : Except Fault α) (ws : Workshop) : Draws (quiet result) ws []
  | report (message : Unit → Except Fault String) (ws : Workshop) : Draws (report message) ws []
  | next {ws after : Workshop} {v : Value} (run : newState.runWith ws = (.ok v, after)) :
    Draws newState ws [v]
  | stuck {ws after : Workshop} {e : Fault} (run : newState.runWith ws = (.error e, after)) :
    Draws newState ws []
  | bind {α β : Type} {x : Build α} {f : α → Build β} {ws mid : Workshop} {a : α}
    {first second : List Value} (run : x.runWith ws = (.ok a, mid)) (part : Draws x ws first)
    (rest : Draws (f a) mid second) : Draws (x >>= f) ws (first ++ second)
  | halt {α β : Type} {x : Build α} {f : α → Build β} {ws mid : Workshop} {e : Fault}
    {first : List Value} (run : x.runWith ws = (.error e, mid)) (part : Draws x ws first) :
    Draws (x >>= f) ws first

/-- From a whole number on, what is issued are the numbers after it, and the counter stands at the
last of them. -/
theorem Draws.numbers {work : Build α} {issued : List Value} (h : Draws work ws issued)
    (hc : ws.counter.value? = some c) :
    issued = (following c issued.length).map .int ∧
      (work.runWith ws).2.counter.value? = some (c + issued.length) := by
  induction h generalizing c with
  | quiet result ws => exact ⟨rfl, by simpa using hc⟩
  | report message ws =>
    have hcounter : ((Build.report message).runWith ws).2.counter = ws.counter := counter_of_report rfl
    exact ⟨rfl, by simpa [hcounter] using hc⟩
  | next run =>
    rw [runWith_newState hc] at run ⊢
    obtain ⟨hv, -⟩ := Prod.mk.inj run
    obtain rfl := Except.ok.inj hv
    exact ⟨rfl, rfl⟩
  | stuck run =>
    rw [runWith_newState hc] at run
    cases run
  | @bind α β x f ws mid a first second run part rest ihpart ihrest =>
    obtain ⟨hfirst, hmid⟩ := ihpart hc
    rw [run] at hmid
    obtain ⟨hsecond, hafter⟩ := ihrest hmid
    constructor
    · rw [List.length_append, ← following_append, List.map_append, ← hfirst, ← hsecond]
    · rw [runWith_bind_ok run, hafter, List.length_append, Int.natCast_add, Int.add_assoc]
  | @halt α β x f ws mid e first run part ih =>
    obtain ⟨hfirst, hmid⟩ := ih hc
    refine ⟨hfirst, ?_⟩
    rw [runWith_bind_error run, ← hmid, run]

/-- Work that draws numbers from the counter and touches it in no other way. -/
def Traced (work : Build α) : Prop :=
  ∀ ws, ∃ issued, Draws work ws issued

theorem traced_quiet (result : Except Fault α) : Traced (quiet result) :=
  fun ws => ⟨[], .quiet result ws⟩

theorem traced_pure (a : α) : Traced (pure a : Build α) :=
  traced_quiet (.ok a)

theorem traced_throw (e : Fault) : Traced (throw e : Build α) :=
  traced_quiet (.error e)

theorem traced_report (message : Unit → Except Fault String) : Traced (report message) :=
  fun ws => ⟨[], .report message ws⟩

theorem traced_newState : Traced newState := by
  intro ws
  cases hrun : newState.runWith ws with
  | mk result after =>
    cases result with
    | ok v => exact ⟨[v], .next hrun⟩
    | error e => exact ⟨[], .stuck hrun⟩

theorem Traced.bind {x : Build α} {f : α → Build β} (hx : Traced x) (hf : ∀ a, Traced (f a)) :
    Traced (x >>= f) := by
  intro ws
  obtain ⟨first, hfirst⟩ := hx ws
  cases hrun : x.runWith ws with
  | mk result mid =>
    cases result with
    | ok a =>
      obtain ⟨second, hsecond⟩ := hf a mid
      exact ⟨first ++ second, .bind hrun hfirst hsecond⟩
    | error e => exact ⟨first, .halt hrun hfirst⟩

theorem traced_freshWithin (taken : ValueSet) (bound : Nat) : Traced (freshWithin taken bound) := by
  induction bound with
  | zero => exact traced_throw .stuckCounter
  | succ bound ih =>
    refine traced_newState.bind fun number => ?_
    split
    · exact ih
    · exact traced_pure number

theorem traced_freshStates (taken : ValueSet) (states : List Value) :
    Traced (freshStates taken states) := by
  induction states generalizing taken with
  | nil => exact traced_pure []
  | cons s states ih =>
    refine (traced_freshWithin taken _).bind fun number => ?_
    exact (ih (taken.insert number)).bind fun others => traced_pure _

theorem traced_separate (m n : Automaton) : Traced (separate m n) := by
  unfold separate
  split
  · exact traced_pure n
  · refine (traced_quiet _).bind fun inOrder => (traced_freshStates _ inOrder).bind fun entries => ?_
    exact (traced_report _).bind fun _ => traced_quiet _

theorem traced_concat (m n : Automaton) : Traced (concat m n) := by
  refine (traced_separate m n).bind fun r => (traced_quiet _).bind fun transitions => ?_
  refine (traced_quiet _).bind fun joined => ?_
  exact (traced_report _).bind fun _ => traced_pure joined

theorem traced_union (m n : Automaton) : Traced (union m n) := by
  refine (traced_separate m n).bind fun r => (traced_freshWithin _ _).bind fun start => ?_
  refine (traced_quiet _).bind fun transitions => (traced_quiet _).bind fun joined => ?_
  exact (traced_report _).bind fun _ => traced_pure joined

theorem traced_empty : Traced empty :=
  traced_newState.bind fun _ => traced_quiet _

theorem traced_epsilon : Traced epsilon :=
  traced_newState.bind fun _ => traced_newState.bind fun _ => traced_quiet _

theorem traced_symbol (x : Value) : Traced (symbol x) := by
  unfold symbol
  split
  · exact traced_throw .epsilonAutomaton
  · refine traced_newState.bind fun s => traced_newState.bind fun e => ?_
    exact (traced_quiet _).bind fun y => traced_quiet _

theorem traced_appendSymbols (n : Automaton) (w : Word) : Traced (appendSymbols n w) := by
  induction w generalizing n with
  | nil => exact traced_pure n
  | cons x w ih =>
    exact (traced_symbol x).bind fun part => (traced_concat n part).bind fun joined => ih joined

theorem traced_string (word : Value) : Traced (string word) := by
  refine (traced_quiet word.items).bind fun w => ?_
  cases w with
  | nil => exact traced_epsilon
  | cons x rest => exact (traced_symbol x).bind fun n => traced_appendSymbols n rest

theorem traced_regex (r : Regex) : Traced (regex r) := by
  induction r with
  | empty => exact traced_empty
  | eps => exact traced_epsilon
  | symb x => exact traced_symbol x
  | seq a b iha ihb => exact iha.bind fun m => ihb.bind fun n => traced_concat m n
  | alt a b iha ihb => exact iha.bind fun m => ihb.bind fun n => traced_union m n
  | bare => exact traced_throw (.notCompilable none)

theorem traced_operand (o : Operand) : Traced (operand o) := by
  cases o with
  | node r => exact traced_regex r
  | value | automaton => exact (traced_quiet _).bind fun written => traced_throw _

/-! ## Operations -/

/-- What an automaton is made from when it is not put together from others. -/
inductive Origin where
  | empty
  | epsilon
  | symbol (x : Value)
  | string (word : Value)
  | build (o : Operand)
  | compile (o : Operand)

def Origin.work : Origin → Build Automaton
  | empty => Build.empty
  | epsilon => Build.epsilon
  | symbol x => Build.symbol x
  | string word => Build.string word
  | build o => operand o
  | compile o => Build.compile o

theorem Origin.traced (origin : Origin) : Traced origin.work := by
  cases origin with
  | empty => exact traced_empty
  | epsilon => exact traced_epsilon
  | symbol x => exact traced_symbol x
  | string word => exact traced_string word
  | build o => exact traced_operand o
  | compile o =>
    exact (traced_operand o).bind fun n => (traced_report _).bind fun _ => traced_pure n

theorem Origin.ownNumbers (origin : Origin) : OwnNumbers origin.work := by
  cases origin with
  | empty => exact ownNumbers_empty
  | epsilon => exact ownNumbers_epsilon
  | symbol x => exact ownNumbers_symbol x
  | string word => exact ownNumbers_string word
  | build o => exact ownNumbers_operand o
  | compile o => exact ownNumbers_compile o

/-- What a builder does in one step. -/
inductive Operation where
  | newState
  | make (origin : Origin)
  | concat (m n : Automaton)
  | union (m n : Automaton)

/-- What a step returns. -/
inductive Product where
  | number (v : Value)
  | automaton (n : Automaton)

def Operation.work : Operation → Build Product
  | newState => do return .number (← Build.newState)
  | make origin => do return .automaton (← origin.work)
  | concat m n => do return .automaton (← Build.concat m n)
  | union m n => do return .automaton (← Build.union m n)

theorem Operation.traced (operation : Operation) : Traced operation.work := by
  cases operation with
  | newState => exact traced_newState.bind fun v => traced_pure _
  | make origin => exact origin.traced.bind fun n => traced_pure _
  | concat m n => exact (traced_concat m n).bind fun j => traced_pure _
  | union m n => exact (traced_union m n).bind fun j => traced_pure _

theorem automaton_eq_ok {work : Build Automaton} {n : Automaton}
    (h : (work >>= fun n => pure (Product.automaton n)).runWith ws = (.ok (.automaton n), after)) :
    work.runWith ws = (.ok n, after) := by
  obtain ⟨m, mid, hwork, h⟩ := bind_eq_ok_iff.mp h
  obtain ⟨hmn, rfl⟩ := pure_eq_ok_iff.mp h
  obtain rfl := Product.automaton.inj hmn
  exact hwork

/-! ## Runs of operations -/

/-- A step of a run: what was done, which numbers were issued for it, and what came of it. -/
structure Step where
  operation : Operation
  issued : List Value
  result : Except Fault Product

/-- The step returns the automaton, made from nothing. -/
def Step.Makes (s : Step) (n : Automaton) : Prop :=
  ∃ origin, s.operation = .make origin ∧ s.result = .ok (.automaton n)

/-- A run of operations on one counter, from where it stands first to where it stands last. The latest
step comes first. Each step may fail, and each may have a log of its own. -/
inductive History (first : Counter) : List Step → Counter → Prop
  | start : History first [] first
  | step {steps : List Step} {last : Counter} {log : Log} {operation : Operation}
    {issued : List Value} {result : Except Fault Product} {after : Workshop}
    (earlier : History first steps last)
    (run : operation.work.runWith ⟨last, log⟩ = (result, after))
    (draws : Draws operation.work ⟨last, log⟩ issued) :
    History first (⟨operation, issued, result⟩ :: steps) after.counter

/-- The numbers issued in a run, in order. -/
def issuedIn : List Step → List Value
  | [] => []
  | s :: steps => issuedIn steps ++ s.issued

/-- The automata obtained in a run: those made from nothing, and those put together from automata
obtained before. -/
inductive Obtained : List Step → Automaton → Prop
  | made {s : Step} {steps : List Step} {n : Automaton} (h : s.Makes n) : Obtained (s :: steps) n
  | concat {s : Step} {steps : List Step} {m n j : Automaton} (left : Obtained steps m)
    (right : Obtained steps n) (operation : s.operation = .concat m n)
    (result : s.result = .ok (.automaton j)) : Obtained (s :: steps) j
  | union {s : Step} {steps : List Step} {m n j : Automaton} (left : Obtained steps m)
    (right : Obtained steps n) (operation : s.operation = .union m n)
    (result : s.result = .ok (.automaton j)) : Obtained (s :: steps) j
  | earlier {s : Step} {steps : List Step} {n : Automaton} (h : Obtained steps n) :
    Obtained (s :: steps) n

namespace History

variable {first last : Counter} {steps : List Step} {n : Automaton}

theorem exists_step (h : History first steps last) (operation : Operation) (log : Log) :
    ∃ issued after, (operation.work.runWith ⟨last, log⟩).2 = after ∧
      History first (⟨operation, issued, (operation.work.runWith ⟨last, log⟩).1⟩ :: steps)
        after.counter := by
  obtain ⟨issued, hdraws⟩ := operation.traced ⟨last, log⟩
  exact ⟨issued, _, rfl, .step h rfl hdraws⟩

theorem numbers (h : History first steps last) (hc : first.value? = some c) :
    issuedIn steps = (following c (issuedIn steps).length).map .int ∧
      last.value? = some (c + (issuedIn steps).length) := by
  induction h with
  | start => exact ⟨rfl, by simpa [issuedIn] using hc⟩
  | @step steps last log operation issued result after earlier run draws ih =>
    obtain ⟨hbefore, hlast⟩ := ih
    obtain ⟨hissued, hafter⟩ := draws.numbers (c := c + (issuedIn steps).length) hlast
    rw [run] at hafter
    constructor
    · rw [issuedIn, List.length_append, ← following_append, List.map_append, ← hbefore, ← hissued]
    · rw [hafter, issuedIn, List.length_append, Int.natCast_add, Int.add_assoc]

theorem obtained_numbered (h : History first steps last) (hc : first.value? = some c)
    (hn : Obtained steps n) : Numbered c (c + (issuedIn steps).length) n := by
  induction h generalizing n with
  | start => cases hn
  | @step steps last log operation issued result after earlier run draws ih =>
    obtain ⟨-, hlast⟩ := earlier.numbers hc
    obtain ⟨-, hafter⟩ := (History.step earlier run draws).numbers hc
    have hlo : c ≤ c + (issuedIn steps).length := by omega
    -- the numbers of the step lead from where the counter stood to where it stands
    have hend {d : Int} (hd : after.counter.value? = some d) :
        d = c + (issuedIn (⟨operation, issued, result⟩ :: steps)).length := by
      rw [hafter] at hd
      exact (Option.some.inj hd).symm
    cases hn with
    | made hmakes =>
      obtain ⟨origin, rfl, rfl⟩ := hmakes
      obtain ⟨d, hd, hnumbered⟩ := origin.ownNumbers hlast (automaton_eq_ok run)
      exact hend hd ▸ hnumbered.mono hlo (Int.le_refl d)
    | concat left right hoperation hresult =>
      obtain rfl := hoperation
      obtain rfl := hresult
      obtain ⟨d, -, hd, hnumbered⟩ := (ih left).concat_ok (ih right) hlast (Int.le_refl _)
        (automaton_eq_ok run)
      exact hend hd ▸ hnumbered
    | union left right hoperation hresult =>
      obtain rfl := hoperation
      obtain rfl := hresult
      obtain ⟨d, -, hd, hnumbered⟩ := (ih left).union_ok (ih right) hlast (Int.le_refl _)
        (automaton_eq_ok run)
      exact hend hd ▸ hnumbered
    | earlier hobtained =>
      refine (ih hobtained).mono (Int.le_refl c) ?_
      rw [issuedIn, List.length_append]
      omega

theorem obtained_of_makes {s : Step} (hs : s ∈ steps) (hn : s.Makes n) : Obtained steps n := by
  induction steps with
  | nil => cases hs
  | cons t steps ih =>
    rcases List.mem_cons.mp hs with rfl | hs
    · exact .made hn
    · exact .earlier (ih hs)

theorem makes_disjoint (h : History first steps last) (hc : first.value? = some c) :
    steps.Pairwise fun s t => ∀ m n, s.Makes m → t.Makes n → m.states.disjoint n.states = true := by
  induction h with
  | start => exact .nil
  | @step steps last log operation issued result after earlier run draws ih =>
    refine List.pairwise_cons.mpr ⟨fun t ht m n hm hn => ?_, ih⟩
    -- what was made before has numbers up to where the counter stood, the step makes others
    have hold := earlier.obtained_numbered hc (obtained_of_makes ht hn)
    obtain ⟨-, hlast⟩ := earlier.numbers hc
    obtain ⟨origin, rfl, rfl⟩ := hm
    obtain ⟨d, -, hnew⟩ := origin.ownNumbers hlast (automaton_eq_ok run)
    have hapart := OrderedSet.disjoint_iff.mp (hold.disjoint hnew)
    exact OrderedSet.disjoint_iff.mpr fun a hm hn => hapart a hn hm

/-- In every run of operations on a counter that stands at a whole number first, whatever they are and
whichever of them fail, the numbers issued increase strictly, and the counter stands at the last of
them. Automata made from nothing in different steps share no state. The states of what is made in the
run, and put together from this, are numbers that were issued in it. -/
theorem issues_increasing (h : History first steps last) (hc : first.value? = some c) :
    ∃ numbers : List Int, issuedIn steps = numbers.map .int ∧ numbers.Pairwise (· < ·) ∧
      (∀ i ∈ numbers, c < i) ∧ last.value? = some (numbers.getLastD c) ∧
      (steps.Pairwise fun s t =>
        ∀ m n, s.Makes m → t.Makes n → m.states.disjoint n.states = true) ∧
      ∀ n, Obtained steps n → ∀ a ∈ n.states.items,
        ∃ i ∈ numbers, a = .int i ∧ c < i ∧ i ≤ numbers.getLastD c := by
  obtain ⟨hissued, hlast⟩ := h.numbers hc
  have hgetLast : (following c (issuedIn steps).length).getLastD c = c + (issuedIn steps).length :=
    getLastD_following c _
  refine ⟨following c (issuedIn steps).length, hissued, pairwise_following,
    fun i hi => (mem_following.mp hi).1, by rw [hgetLast, hlast], h.makes_disjoint hc, ?_⟩
  intro n hn a ha
  obtain ⟨i, rfl, hlo, hhi⟩ := (h.obtained_numbered hc hn).numbered a ha
  exact ⟨i, mem_following.mpr ⟨hlo, hhi⟩, rfl, hlo, by rw [hgetLast]; exact hhi⟩

/-- A symbol that cannot be a member of a set, for which two numbers are issued all the same; then a
text; then the union of its automaton with itself. -/
theorem issues_increasing_after_failure :
    let n := ofShape (.edge (.int 3) (.text "a") (.int 4))
    ∃ (failed made joined : Step) (last : Counter),
      (History .fresh [joined, made, failed] last ∧ Counter.fresh.value? = some 0) ∧
        failed.operation = .make (.symbol (.list [])) ∧ failed.result = .error .unhashable ∧
        made.Makes n ∧ Obtained [joined, made, failed] n ∧ joined.operation = .union n n ∧
        (∃ j, Obtained [joined, made, failed] j ∧ joined.result = .ok (.automaton j)) ∧
        ∃ numbers : List Int, issuedIn [joined, made, failed] = numbers.map .int ∧
          numbers.Pairwise (· < ·) ∧ (∀ i ∈ numbers, 0 < i) ∧
          last.value? = some (numbers.getLastD 0) ∧
          ([joined, made, failed].Pairwise fun s t =>
            ∀ m n, s.Makes m → t.Makes n → m.states.disjoint n.states = true) ∧
          ∀ n, Obtained [joined, made, failed] n → ∀ a ∈ n.states.items,
            ∃ i ∈ numbers, a = .int i ∧ 0 < i ∧ i ≤ numbers.getLastD 0 := by
  intro n
  let failing := Operation.make (.symbol (.list []))
  let making := Operation.make (.symbol (.text "a"))
  have hfailing : failing.work.runWith ⟨.fresh, .off⟩ = (.error .unhashable, ⟨⟨.int 2⟩, .off⟩) := rfl
  have hmaking : making.work.runWith ⟨⟨.int 2⟩, .off⟩ =
      (.ok (.automaton n), ⟨⟨.int 4⟩, .off⟩) :=
    runWith_bind_ok (@runWith_symbol ⟨⟨.int 2⟩, .off⟩ 2 rfl (.text "a") rfl rfl)
  have hsome : ((Build.union n n).runWith ⟨⟨.int 4⟩, .off⟩).1.toOption.any (fun _ => true) = true := by
    decide +kernel
  obtain ⟨j, after, hunion, -⟩ := exists_of_outcome hsome
  have hjoining : (Operation.union n n).work.runWith ⟨⟨.int 4⟩, .off⟩ = (.ok (.automaton j), after) :=
    runWith_bind_ok hunion
  obtain ⟨issued₁, hissued₁⟩ := failing.traced ⟨.fresh, .off⟩
  obtain ⟨issued₂, hissued₂⟩ := making.traced ⟨⟨.int 2⟩, .off⟩
  obtain ⟨issued₃, hissued₃⟩ := (Operation.union n n).traced ⟨⟨.int 4⟩, .off⟩
  have hhistory := ((History.start.step hfailing hissued₁).step hmaking hissued₂).step
    hjoining hissued₃
  have hmakes : Step.Makes ⟨making, issued₂, .ok (.automaton n)⟩ n := ⟨_, rfl, rfl⟩
  exact ⟨_, _, _, _, ⟨hhistory, rfl⟩, rfl, rfl, hmakes, .earlier (.made hmakes), rfl,
    ⟨j, .union (.made hmakes) (.made hmakes) rfl rfl, rfl⟩, hhistory.issues_increasing rfl⟩

end History

end EpsilonAutomata.Build
