import EpsilonAutomata.Automaton.Snapshot
import EpsilonAutomata.Proofs.Outcome

/-!
# The tables that a query uses

What a query uses is told before it is answered (`usedByClosure` and its companions). The answer
hangs on nothing else: two automata of one shape, with the same table wherever it is used (`Shares`),
give one answer, whatever the other tables hold (`Shares.eclose` to `Shares.acceptedWords`). So a
snapshot need not keep a table that was never in use.

Closing uses the table of empty moves, and moving that of its label; from no states nothing is
looked up, since neither leads anywhere then. A longer query uses what its first steps use, because a
word either has a symbol to read, and then both tables are in use, or is read by closing alone.
-/

namespace EpsilonAutomata

open Outcome

theorem Value.items?_of_items {a : Value} {xs : List Value} (h : a.items = .ok xs) :
    a.items? = some xs := by
  rw [items] at h
  split at h
  · next ys hys => rw [hys, Except.ok.inj h]
  · cases h

namespace Automaton

/-- The automata have one shape, and the same table wherever the table is used. -/
structure Shares (used : TablesUsed) (n m : Automaton) : Prop where
  shape : n.toShape = m.toShape
  epsilon : used.epsilon = true → n.epsilonMoves.get = m.epsilonMoves.get
  symbol : used.symbol = true → n.symbolMoves.get = m.symbolMoves.get

variable {n m : Automaton} {used : TablesUsed} {s : ValueSet} {x : Value} {b : Bool}

namespace Shares

theorem of_join {a b : TablesUsed} (h : Shares (a.join b) n m) : Shares a n m ∧ Shares b n m :=
  ⟨⟨h.shape, fun ha => h.epsilon (by simp [TablesUsed.join, ha]),
      fun ha => h.symbol (by simp [TablesUsed.join, ha])⟩,
    ⟨h.shape, fun hb => h.epsilon (by simp [TablesUsed.join, hb]),
      fun hb => h.symbol (by simp [TablesUsed.join, hb])⟩⟩

theorem eq (h : Shares ⟨true, true⟩ n m) : n = m := by
  obtain ⟨shape, epsilonMoves, symbolMoves⟩ := n
  obtain ⟨hshape, hepsilon, hsymbol⟩ := h
  obtain rfl := hshape
  obtain rfl := Thunk.ext (hepsilon rfl)
  obtain rfl := Thunk.ext (hsymbol rfl)
  rfl

theorem statesOf (h : Shares used n m) (a : Value) : n.statesOf a = m.statesOf a := by
  obtain ⟨shape, _, _⟩ := n
  obtain rfl := h.shape
  rfl

theorem listingSymbols (h : Shares used n m) (symbols : Option Value) :
    n.listingSymbols symbols = m.listingSymbols symbols := by
  obtain ⟨shape, _, _⟩ := n
  obtain rfl := h.shape
  rfl

theorem accepting (h : Shares used n m) (s : ValueSet) : n.accepting s = m.accepting s := by
  rw [Automaton.accepting, Automaton.accepting, h.shape]

/-! ## Closing -/

theorem epsilonTargets (h : Shares ⟨true, b⟩ n m) (a : Value) :
    n.epsilonTargets a = m.epsilonTargets a := by
  rw [Automaton.epsilonTargets, h.epsilon rfl, Automaton.epsilonTargets]

theorem closeRounds (h : Shares ⟨true, b⟩ n m) (closed frontier : ValueSet) :
    n.closeRounds closed frontier = m.closeRounds closed frontier := by
  have hround (s : ValueSet) : n.oneEpsilonAway s = m.oneEpsilonAway s := by
    simp only [oneEpsilonAway, h.epsilonTargets]
  fun_induction n.closeRounds closed frontier with
  | case1 closed frontier found hsub =>
    rw [Automaton.closeRounds, ← hround, if_pos hsub]
  | case2 closed frontier found hnew ih =>
    rw [ih, Automaton.closeRounds.eq_1 m closed, ← hround, if_neg hnew]

theorem nextFrames (h : Shares ⟨true, b⟩ n m) (found : ValueSet) (f : Frame) :
    n.nextFrames found f = m.nextFrames found f := by
  rw [Automaton.nextFrames, h.epsilonTargets, Automaton.nextFrames]

theorem visitFrames (h : Shares ⟨true, b⟩ n m) (found : ValueSet) (stack : List Frame) :
    n.visitFrames found stack = m.visitFrames found stack := by
  have hsize : n.size = m.size := by rw [size, h.shape, size]
  fun_induction n.visitFrames found stack with
  | case1 found => rw [Automaton.visitFrames]
  | case2 found f stack hfound ih => rw [ih, Automaton.visitFrames.eq_2 m, if_pos hfound]
  | case3 found f stack hfound hlength ih =>
    rw [ih, Automaton.visitFrames.eq_2 m, if_neg hfound, ← hsize, if_pos hlength, h.nextFrames]
  | case4 found f stack hfound hlength =>
    rw [Automaton.visitFrames, if_neg hfound, ← hsize, if_neg hlength]

theorem visitOrigins (h : Shares ⟨true, b⟩ n m) (found : ValueSet) (origins : List Value) :
    n.visitOrigins found origins = m.visitOrigins found origins := by
  induction origins generalizing found with
  | nil => rfl
  | cons s origins ih => simp only [Automaton.visitOrigins, ih, h.visitFrames]

theorem epsilonSuccessors (h : Shares ⟨true, b⟩ n m) (a : Value) :
    n.epsilonSuccessors a = m.epsilonSuccessors a := by
  rw [Automaton.epsilonSuccessors, Automaton.epsilonSuccessors, h.epsilonTargets]

theorem close (h : Shares ⟨true, b⟩ n m) (method : ClosureMethod) (s : ValueSet) :
    n.close method s = m.close method s := by
  cases method with
  | rounds => exact congrArg Except.ok (h.closeRounds s s)
  | depth => exact h.visitOrigins ∅ s.items

end Shares

theorem close_of_isEmpty (method : ClosureMethod) (hs : s.isEmpty = true) :
    n.close method s = .ok ∅ := by
  obtain rfl := OrderedSet.eq_empty_of_isEmpty hs
  cases method with
  | rounds =>
    show Except.ok (n.closeRounds ∅ ∅) = _
    rw [closeRounds]
    rfl
  | depth => rfl

theorem Shares.closing (h : Shares (usedByClosing s) n m) (method : ClosureMethod) :
    n.close method s = m.close method s := by
  cases hs : s.isEmpty with
  | true => rw [close_of_isEmpty method hs, close_of_isEmpty method hs]
  | false =>
    rw [usedByClosing, hs] at h
    exact h.close method s

/-! ## Moving -/

theorem Shares.targets (h : Shares (.byLabel x) n m) (a : Value) :
    n.targets a x = m.targets a x := by
  rw [Automaton.targets, Automaton.targets]
  cases hx : x.isEpsilon with
  | true =>
    rw [TablesUsed.byLabel, hx] at h
    exact h.epsilonTargets a
  | false =>
    have htable := h.symbol (by rw [TablesUsed.byLabel, hx]; rfl)
    simp only [htable, Bool.false_eq_true, if_false]

theorem Shares.move (h : Shares (.byLabel x) n m) (s : ValueSet) : n.move s x = m.move s x := by
  simp only [Automaton.move, h.targets]

theorem Shares.symbolSuccessors (h : Shares (.byLabel x) n m) (a : Value) :
    n.symbolSuccessors a x = m.symbolSuccessors a x := by
  rw [Automaton.symbolSuccessors, Automaton.symbolSuccessors, h.targets]

theorem move_of_isEmpty (hs : s.isEmpty = true) : n.move s x = .ok ∅ := by
  obtain rfl := OrderedSet.eq_empty_of_isEmpty hs
  rfl

theorem Shares.moving (h : Shares (usedByMoving s x) n m) : n.move s x = m.move s x := by
  cases hs : s.isEmpty with
  | true => rw [move_of_isEmpty hs, move_of_isEmpty hs]
  | false =>
    rw [usedByMoving, hs] at h
    exact h.move s

theorem Shares.usedByMoving (h : Shares (n.usedByAdvance s x) n m) :
    Shares (usedByMoving s x) n m := by
  rw [usedByAdvance] at h
  split at h
  · exact h.of_join.1
  · exact h

theorem Shares.advance (h : Shares (n.usedByAdvance s x) n m) : n.advance s x = m.advance s x := by
  rw [Automaton.advance, Automaton.advance, ← h.usedByMoving.moving]
  refine bind_congr_of_ok fun moved hmoved => ?_
  rw [usedByAdvance, hmoved] at h
  exact h.of_join.2.closing .rounds

/-! ## Queries about given states -/

theorem Shares.closure {a : Value} (h : Shares (n.usedByClosure a) n m) (method : ClosureMethod) :
    (n.statesOf a >>= n.close method) = m.statesOf a >>= m.close method := by
  rw [← h.statesOf]
  refine bind_congr_of_ok fun s hs => ?_
  rw [usedByClosure, hs] at h
  exact h.closing method

theorem Shares.eclose {a : Value} (h : Shares (n.usedByClosure a) n m) : n.eclose a = m.eclose a :=
  h.closure .rounds

theorem Shares.ecloseByDepth {a : Value} (h : Shares (n.usedByClosure a) n m) :
    n.ecloseByDepth a = m.ecloseByDepth a :=
  h.closure .depth

theorem Shares.start (h : Shares (n.usedByClosure n.initial) n m) : n.start = m.start := by
  rw [Automaton.start, h.eclose, h.shape, Automaton.start]

theorem Shares.step {a : Value} (h : Shares (n.usedByStep a x) n m) : n.step a x = m.step a x := by
  rw [Automaton.step, Automaton.step, ← h.statesOf]
  refine bind_congr_of_ok fun s hs => ?_
  rw [usedByStep, hs] at h
  exact h.moving

theorem Shares.nextState {a : Value} (h : Shares (n.usedByNextState a x) n m) :
    n.nextState a x = m.nextState a x := by
  rw [Automaton.nextState, Automaton.nextState, ← h.statesOf]
  refine bind_congr_of_ok fun s hs => ?_
  rw [usedByNextState, hs] at h
  exact h.advance

/-! ## Reading words -/

theorem readSymbols_of_isEmpty (method : ClosureMethod) (hs : s.isEmpty = true) (w : Word) :
    n.readSymbols method s w = .ok s := by
  induction w with
  | nil => rfl
  | cons x w ih => rw [readSymbols, ih, if_pos hs, ite_self]

theorem readSymbols_of_no_symbols (method : ClosureMethod) {w : Word}
    (hw : w.filter (fun x => !x.isEpsilon) = []) : n.readSymbols method s w = .ok s := by
  induction w with
  | nil => rfl
  | cons x w ih =>
    have hx : x.isEpsilon = true := by simpa using List.filter_eq_nil_iff.mp hw x List.mem_cons_self
    rw [readSymbols, if_pos hx]
    exact ih (List.filter_eq_nil_iff.mpr fun y hy =>
      List.filter_eq_nil_iff.mp hw y (List.mem_cons_of_mem x hy))

theorem Shares.readSymbols {a word : Value} {w : Word} {method : ClosureMethod} {closed : ValueSet}
    (h : Shares (n.usedByReading a word) n m)
    (hclosed : n.statesOf a >>= n.close method = .ok closed) (hitems : word.items = .ok w) :
    n.readSymbols method closed w = m.readSymbols method closed w := by
  obtain ⟨s, hs, hclose⟩ := bind_eq_ok_iff.mp hclosed
  rw [usedByReading, hs, Value.items?_of_items hitems] at h
  cases hempty : s.isEmpty with
  | true =>
    obtain rfl := Except.ok.inj ((close_of_isEmpty method hempty).symm.trans hclose)
    rw [readSymbols_of_isEmpty method rfl, readSymbols_of_isEmpty method rfl]
  | false =>
    cases hsymbols : w.filter fun x => !x.isEpsilon with
    | nil =>
      rw [readSymbols_of_no_symbols method hsymbols, readSymbols_of_no_symbols method hsymbols]
    | cons x rest =>
      simp only [hempty, Option.getD_some, hsymbols] at h
      rw [h.eq]

theorem Shares.usedByClosure {a word : Value} (h : Shares (n.usedByReading a word) n m) :
    Shares (n.usedByClosure a) n m := by
  rw [usedByReading] at h
  rw [Automaton.usedByClosure]
  cases hs : n.statesOf a with
  | error e => exact ⟨h.shape, nofun, nofun⟩
  | ok s =>
    refine ⟨h.shape, fun hused => h.epsilon ?_, nofun⟩
    simp only [usedByClosing, Bool.not_eq_true'] at hused
    simp [hs, hused]

theorem Shares.deltaExt {a word : Value} (h : Shares (n.usedByReading a word) n m)
    (method : ClosureMethod) : n.deltaExt a word method = m.deltaExt a word method := by
  rw [Automaton.deltaExt, Automaton.deltaExt, ← h.usedByClosure.closure method]
  refine Logged.quiet_bind_congr fun closed hclosed => ?_
  refine Logged.quiet_bind_congr fun w hitems => ?_
  rw [h.readSymbols hclosed hitems]

theorem Shares.accepts {word : Value} (h : Shares (n.usedByReading n.initial word) n m) :
    n.accepts word = m.accepts word := by
  have haccepting : n.accepting = m.accepting := funext h.accepting
  rw [Automaton.accepts, h.deltaExt, haccepting, h.shape, Automaton.accepts]

/-! ## Searching for a path -/

theorem Shares.search (h : Shares ⟨true, b⟩ n m) (goal : Configuration)
    (seen : OrderedSet Configuration) (stack : List Configuration) :
    n.search [] goal seen stack = m.search [] goal seen stack := by
  have hmoves (c : Configuration) : n.movesFrom [] c = m.movesFrom [] c := by
    simp only [movesFrom, List.drop_nil, h.epsilonTargets]
  fun_induction n.search [] goal seen stack with
  | case1 seen => rw [Automaton.search]
  | case2 seen c stack hgoal => rw [Automaton.search, if_pos hgoal]
  | case3 seen c stack hgoal e herror =>
    rw [Automaton.search, if_neg hgoal]
    split
    · next e' h' => rw [← hmoves, herror] at h'; exact congrArg _ (Except.error.inj h')
    · next moves h' => rw [← hmoves, herror] at h'; cases h'
  | case4 seen c stack hgoal moves hok next ih =>
    rw [ih, Automaton.search.eq_2 m, if_neg hgoal]
    split
    · next e h' => rw [← hmoves, hok] at h'; cases h'
    · next moves' h' =>
      rw [← hmoves, hok] at h'
      obtain rfl := Except.ok.inj h'
      rfl

theorem Shares.path {a word c : Value} (h : Shares (n.usedByPath a word c) n m) :
    n.path a word c = m.path a word c := by
  rw [Automaton.path, Automaton.path, ← h.statesOf]
  refine bind_congr_of_ok fun s hs => bind_congr_of_ok fun w hitems => ?_
  simp only [usedByPath, hs, Value.items?_of_items hitems] at h
  cases hsymbols : w.filter fun x => !x.isEpsilon with
  | cons x rest =>
    simp only [hsymbols] at h
    rw [h.eq]
  | nil =>
    simp only [hsymbols, List.isEmpty_nil, if_true] at h
    cases hsame : a == c with
    | true =>
      have hgoal : ((⟨a, 0⟩ : Configuration) == ⟨c, 0⟩) = true :=
        Configuration.beq_iff.mpr ⟨rfl, hsame⟩
      simp only [leadsTo, List.length_nil]
      rw [Automaton.search, if_pos hgoal, Automaton.search, if_pos hgoal]
    | false =>
      rw [hsame] at h
      exact h.search _ _ _

/-! ## Listing words -/

theorem isEmpty_closeRounds {frontier : ValueSet} (hs : s.isEmpty = false) :
    (n.closeRounds s frontier).isEmpty = false := by
  fun_induction n.closeRounds s frontier with
  | case1 s frontier found hsub => exact hs
  | case2 s frontier found hnew ih =>
    refine ih ?_
    rw [Bool.eq_false_iff, ne_eq, OrderedSet.isEmpty_iff_forall_not_mem] at hs ⊢
    exact fun hnone => hs fun a ha => hnone a (OrderedSet.mem_union.mpr (.inl ha))

theorem isEmpty_closure : (n.closure s).isEmpty = s.isEmpty := by
  cases hs : s.isEmpty with
  | true => rw [Except.ok.inj (close_of_isEmpty (n := n) .rounds hs)]; rfl
  | false => exact isEmpty_closeRounds hs

/-- How an automaton starts is seen from where it starts: from nowhere nothing was closed. -/
theorem start_eq_of_closed (hshape : n.toShape = m.toShape)
    (h : ∀ s, n.start = .ok s → Shares (usedByClosing s) n m) : n.start = m.start := by
  have hnone : Shares .none n m := ⟨hshape, nofun, nofun⟩
  rw [start, start, eclose, eclose, ← hshape, ← hnone.statesOf]
  refine bind_congr_of_ok fun s hs => ?_
  have hclosing := h (n.closure s) (by rw [start, eclose, hs]; rfl)
  rw [usedByClosing, isEmpty_closure] at hclosing
  exact hclosing.closing .rounds

theorem Shares.of_foldl {f : Value → TablesUsed} {xs : List Value} {a : TablesUsed}
    (h : Shares (xs.foldl (fun used x => used.join (f x)) a) n m) :
    Shares a n m ∧ ∀ x ∈ xs, Shares (f x) n m := by
  induction xs generalizing a with
  | nil => exact ⟨h, by simp⟩
  | cons x xs ih =>
    obtain ⟨hjoin, hrest⟩ := ih h
    exact ⟨hjoin.of_join.1, List.forall_mem_cons.mpr ⟨hjoin.of_join.2, hrest⟩⟩

theorem wordsWithin_eq {symbols : List Value} (haccepting : n.accepting = m.accepting)
    (h : ∀ x ∈ symbols, ∀ s, n.advance s x = m.advance s x) (more : Nat) (bs : List Branch) :
    n.wordsWithin symbols more bs = m.wordsWithin symbols more bs := by
  have hextend : n.extendBranch symbols = m.extendBranch symbols := by
    funext c
    rw [extendBranch, extendBranch]
    congr 1
    exact mapM_congr fun x hx => by rw [h x hx]
  induction more generalizing bs with
  | zero => cases bs <;> simp only [wordsWithin, haccepting]
  | succ more ih => cases bs <;> simp only [wordsWithin, haccepting, hextend, ih]

theorem extendBranch_of_isEmpty (hs : s.isEmpty = true) (symbols : List Value) (w : Word) :
    n.extendBranch symbols ⟨w, s⟩ = .ok [] := by
  have hadvance (x : Value) : n.advance s x = .ok ∅ := by
    rw [advance, move_of_isEmpty hs]
    exact close_of_isEmpty .rounds rfl
  rw [extendBranch, mapM_eq_ok_map (g := fun x => ⟨w ++ [x], ∅⟩) fun x _ => by rw [hadvance]; rfl]
  refine congrArg Except.ok (List.filter_eq_nil_iff.mpr fun c hc => ?_)
  obtain ⟨x, -, rfl⟩ := List.mem_map.mp hc
  exact Bool.false_ne_true

theorem wordsWithin_of_isEmpty (hs : s.isEmpty = true) (symbols : List Value) (w : Word)
    (more : Nat) :
    n.wordsWithin symbols more [⟨w, s⟩] = .ok (if n.accepting s then [w] else []) := by
  have haccepted : (([⟨w, s⟩] : List Branch).filter fun c => n.accepting c.states).map Branch.word =
      if n.accepting s then [w] else [] := by
    cases hs : n.accepting s <;> simp [hs]
  cases more with
  | zero =>
    simp only [wordsWithin, haccepted]
    rfl
  | succ more =>
    have hnil : n.wordsWithin symbols more [] = .ok [] := by cases more <;> rfl
    simp only [wordsWithin, haccepted, List.mapM_cons, extendBranch_of_isEmpty hs]
    show (n.wordsWithin symbols more [] >>= _) = _
    rw [hnil]
    exact congrArg Except.ok (List.append_nil _)

theorem Shares.acceptedWords {maxLength : Value} {symbols : Option Value}
    (h : Shares (n.usedByListing maxLength symbols) n m) :
    n.acceptedWords maxLength symbols = m.acceptedWords maxLength symbols := by
  have haccepting : n.accepting = m.accepting := funext h.accepting
  rw [Automaton.acceptedWords, Automaton.acceptedWords, ← h.listingSymbols]
  refine bind_congr_of_ok fun xs hxs => ?_
  rw [usedByListing, hxs] at h
  have hstart : n.start = m.start := by
    refine start_eq_of_closed h.shape fun s hs => ?_
    simp only [hs] at h
    split at h
    · split at h
      · exact h
      · exact h.of_foldl.1
    · exact h
  rw [← hstart]
  refine bind_congr_of_ok fun s hs => bind_congr_of_ok fun bound hbound => ?_
  simp only [hs, hbound] at h
  split
  · rfl
  · next hnonneg =>
    split at h
    · next hle =>
      rw [show bound.toNat = 0 by omega]
      simp only [wordsWithin, haccepting]
    · -- from a state on, the first round uses every table that a later one does
      obtain ⟨hclosing, hadvance⟩ := h.of_foldl
      cases hempty : s.isEmpty with
      | true => rw [wordsWithin_of_isEmpty hempty, wordsWithin_of_isEmpty hempty, haccepting]
      | false =>
        rw [usedByClosing, hempty] at hclosing
        refine wordsWithin_eq haccepting (fun x hx t => ?_) _ _
        have hmove := (hadvance x hx).usedByMoving
        rw [Automaton.usedByMoving, hempty] at hmove
        rw [Automaton.advance, Automaton.advance, hmove.move t]
        exact bind_congr_of_ok fun moved _ => hclosing.close .rounds moved

end Automaton

end EpsilonAutomata
