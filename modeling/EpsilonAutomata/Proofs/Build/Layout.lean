import EpsilonAutomata.Proofs.Build.Compile
import EpsilonAutomata.Proofs.Build.History

/-!
# The shape of a compiled expression

What compiling an expression gives can be said without a counter: the automaton is laid out on the
numbers that follow where the counter stood (`Regex.layout`). Each operand takes a stretch of them as
long as it has states, one behind the other, so the states of a layout are exactly the numbers of its
stretch (`Regex.spans_layout`). Operands share no state and no transition, and links run between them
or from a number that neither has; so nothing is ever moved, and states, final states and transitions
add up (`regex_counts`).
-/

namespace EpsilonAutomata

open Automaton (ofShape valid_ofShape)

namespace Shape

variable {s t : Shape} {states finals : ValueSet} {initial start : Value} {links : List Transition}

/-! ## Nothing coincides -/

theorem size_transitions_join (hs : s.Sound) (ht : t.Sound) (hapart : ∀ a, a ∈ s.states → a ∉ t.states)
    (hlinks : links.Pairwise fun l k => (l == k) = false)
    (hnew : ∀ l ∈ links, l ∉ s.transitions ∧ l ∉ t.transitions) :
    (join s t states initial links finals).transitions.size =
      s.transitions.size + t.transitions.size + links.length := by
  have hdisjoint : s.transitions.disjoint t.transitions = true := by
    rw [OrderedSet.disjoint_iff]
    intro u hu hu'
    exact hapart u.source (hs.move_mem u hu).1 (ht.move_mem u hu').1
  have hfree : ∀ l ∈ links, l ∉ s.transitions ∪ t.transitions := by
    intro l hl h
    exact (OrderedSet.mem_union.mp h).elim (hnew l hl).1 (hnew l hl).2
  have hitems : (join s t states initial links finals).transitions.items =
      (s.transitions.items ++ t.transitions.items) ++ links := by
    rw [← OrderedSet.items_union_of_disjoint hdisjoint]
    exact OrderedSet.items_insertAll_of_new hlinks hfree
  simp only [OrderedSet.size, hitems, List.length_append]

theorem size_transitions_concat (hs : s.Sound) (ht : t.Sound)
    (hapart : ∀ a, a ∈ s.states → a ∉ t.states) :
    (s.concat t).transitions.size = s.transitions.size + t.transitions.size + s.finals.size := by
  have hdistinct : (s.finals.items.map fun f => Build.link f t.initial).Pairwise fun l k =>
      (l == k) = false := by
    refine List.pairwise_map.mpr (s.finals.distinct.imp fun {f g} hfg => ?_)
    rw [Bool.eq_false_iff]
    intro h
    have hsources : (f == g) = true := (Transition.beq_iff.mp h).1
    rw [hfg] at hsources
    cases hsources
  rw [concat, size_transitions_join hs ht hapart hdistinct, List.length_map]
  · rfl
  · -- a link leaves a state of the one and enters a state of the other
    intro l hl
    obtain ⟨f, hf, rfl⟩ := List.mem_map.mp hl
    have hsource := hs.final_mem f (OrderedSet.mem_of_mem_items hf)
    exact ⟨fun h => hapart _ (hs.move_mem _ h).2.1 ht.start_mem,
      fun h => hapart _ hsource (ht.move_mem _ h).1⟩

theorem size_transitions_union (hs : s.Sound) (ht : t.Sound)
    (hapart : ∀ a, a ∈ s.states → a ∉ t.states) (hstart : start ∉ s.states ∪ t.states) :
    (s.union t start).transitions.size = s.transitions.size + t.transitions.size + 2 := by
  rw [OrderedSet.mem_union, not_or] at hstart
  have hdistinct : [Build.link start s.initial, Build.link start t.initial].Pairwise fun l k =>
      (l == k) = false := by
    refine List.pairwise_pair.mpr ?_
    rw [Bool.eq_false_iff]
    intro h
    have htargets : (s.initial == t.initial) = true := (Transition.beq_iff.mp h).2.2
    exact hapart t.initial ((OrderedSet.mem_congr htargets).mp hs.start_mem) ht.start_mem
  rw [union, size_transitions_join hs ht hapart hdistinct]
  · rfl
  · intro l hl
    have hsource : l.source = start := by
      rcases List.mem_pair.mp hl with rfl | rfl <;> rfl
    rw [← hsource] at hstart
    exact ⟨fun h => hstart.1 (hs.move_mem l h).1, fun h => hstart.2 (ht.move_mem l h).1⟩

theorem size_finals_union (hs : s.Sound) (ht : t.Sound) (hapart : ∀ a, a ∈ s.states → a ∉ t.states) :
    (s.union t start).finals.size = s.finals.size + t.finals.size := by
  have hdisjoint : s.finals.disjoint t.finals = true := by
    rw [OrderedSet.disjoint_iff]
    exact fun f hf hf' => hapart f (hs.final_mem f hf) (ht.final_mem f hf')
  show (s.finals ∪ t.finals).size = _
  rw [OrderedSet.size, OrderedSet.items_union_of_disjoint hdisjoint, List.length_append]
  rfl

/-! ## Stretches of numbers -/

/-- The states of the shape are, in some order, the numbers that follow the given one. -/
structure Spans (s : Shape) (c : Int) (count : Nat) : Prop where
  sound : s.Sound
  hashable : s.Hashable
  perm : s.states.items.Perm ((following c count).map .int)

namespace Spans

variable {c : Int} {i j : Nat}

theorem numbered (h : s.Spans c i) : Build.Numbered c (c + i) (ofShape s) where
  valid := valid_ofShape h.sound h.hashable
  numbered a ha := by
    obtain ⟨k, hk, rfl⟩ := List.mem_map.mp (h.perm.mem_iff.mp ha)
    obtain ⟨hlo, hhi⟩ := mem_following.mp hk
    exact ⟨k, rfl, hlo, hhi⟩

theorem lone (c : Int) : (Shape.lone (.int (c + 1))).Spans c 1 where
  sound := sound_lone _
  hashable := hashable_lone rfl
  perm := .refl _

theorem edge (c : Int) {x : Value} (hx : x.hashable = true) :
    (Shape.edge (.int (c + 1)) x (.int (c + 1 + 1))).Spans c 2 where
  sound := sound_edge ..
  hashable := hashable_edge rfl hx rfl
  perm := by
    have hne : (Value.int (c + 1) == Value.int (c + 1 + 1)) = false := by
      rw [Value.int_beq_int, decide_eq_false_iff_not]
      omega
    have hitems : (OrderedSet.ofList [Value.int (c + 1), .int (c + 1 + 1)]).items =
        [.int (c + 1), .int (c + 1 + 1)] :=
      OrderedSet.items_ofList_of_distinct (List.pairwise_pair.mpr hne)
    exact .of_eq hitems

theorem disjoint (hs : s.Spans c i) (ht : t.Spans (c + i) j) : s.states.disjoint t.states = true :=
  hs.numbered.disjoint ht.numbered

theorem perm_union (hs : s.Spans c i) (ht : t.Spans (c + i) j) :
    (s.states ∪ t.states).items.Perm ((following c (i + j)).map .int) := by
  rw [OrderedSet.items_union_of_disjoint (hs.disjoint ht), ← following_append, List.map_append]
  exact hs.perm.append ht.perm

theorem not_mem_union (hs : s.Spans c i) (ht : t.Spans (c + i) j) :
    Value.int (c + i + j + 1) ∉ s.states ∪ t.states :=
  (hs.numbered.mono (Int.le_refl c) (by omega)).not_mem_union
    (ht.numbered.mono (by omega) (Int.le_refl _)) (Int.lt_succ _)

theorem numbered_both (hs : s.Spans c i) (ht : t.Spans (c + i) j) :
    Build.Numbered c (c + i + j) (ofShape s) ∧ Build.Numbered c (c + i + j) (ofShape t) :=
  ⟨hs.numbered.mono (Int.le_refl c) (by omega), ht.numbered.mono (by omega) (Int.le_refl _)⟩

theorem concat (hs : s.Spans c i) (ht : t.Spans (c + i) j) : (s.concat t).Spans c (i + j) where
  sound := sound_concat hs.sound ht.sound
  hashable := ((hs.numbered_both ht).1.ofShape_concat (hs.numbered_both ht).2).valid.hashable
  perm := hs.perm_union ht

theorem union (hs : s.Spans c i) (ht : t.Spans (c + i) j) :
    (s.union t (.int (c + i + j + 1))).Spans c (i + j + 1) where
  sound := sound_union hs.sound ht.sound
  hashable :=
    ((hs.numbered_both ht).1.ofShape_union (hs.numbered_both ht).2 (Int.lt_succ _)).valid.hashable
  perm := by
    show ((s.states ∪ t.states).insert (.int (c + i + j + 1))).items.Perm _
    have hlast : following (c + (i + j : Nat)) 1 = [c + i + j + 1] := by
      rw [following, following, Int.natCast_add, ← Int.add_assoc]
    rw [OrderedSet.items_insert_of_not_mem (hs.not_mem_union ht), ← following_append, hlast,
      List.map_append]
    exact (hs.perm_union ht).append (.refl _)

end Spans

end Shape

/-! ## Expressions -/

namespace Regex

/-- The number of states. -/
def stateCount : Regex → Nat
  | empty => 1
  | eps => 2
  | symb _ => 2
  | seq a b => a.stateCount + b.stateCount
  | alt a b => a.stateCount + b.stateCount + 1
  | bare => 0

/-- The number of final states. -/
def finalCount : Regex → Nat
  | empty => 0
  | eps => 1
  | symb _ => 1
  | seq _ b => b.finalCount
  | alt a b => a.finalCount + b.finalCount
  | bare => 0

/-- The number of transitions. In a sequence each final state of the left side is linked to the right
side, and a choice has two empty moves out of its start. -/
def moveCount : Regex → Nat
  | empty => 0
  | eps => 1
  | symb _ => 1
  | seq a b => a.moveCount + b.moveCount + a.finalCount
  | alt a b => a.moveCount + b.moveCount + 2
  | bare => 0

/-- The shape of an expression on the numbers that follow the given one. A bare node has none. -/
def layout (c : Int) : Regex → Shape
  | empty => .lone (.int (c + 1))
  | eps => .edge (.int (c + 1)) .epsilon (.int (c + 1 + 1))
  | symb x => .edge (.int (c + 1)) x (.int (c + 1 + 1))
  | seq a b => (a.layout c).concat (b.layout (c + a.stateCount))
  | alt a b => (a.layout c).union (b.layout (c + a.stateCount))
      (.int (c + a.stateCount + b.stateCount + 1))
  | bare => default

variable {r : Regex}

theorem spans_layout (hr : r.Compilable) (c : Int) : (r.layout c).Spans c r.stateCount := by
  induction r generalizing c with
  | empty => exact .lone c
  | eps => exact .edge c rfl
  | symb x => exact .edge c hr.1
  | seq a b iha ihb => exact (iha hr.1 c).concat (ihb hr.2 _)
  | alt a b iha ihb => exact (iha hr.1 c).union (ihb hr.2 _)
  | bare => exact absurd hr id

theorem alphabet_layout (hr : r.Compilable) (c : Int) : r.alphabet = .ok (r.layout c).alphabet := by
  induction r generalizing c with
  | empty => rfl
  | eps => rfl
  | symb x =>
    have hread : Word.visible [x] = [x] := Word.visible_eq_self (by simpa using hr.2)
    show _ = Except.ok (OrderedSet.ofList (Word.visible [x]))
    rw [alphabet, if_pos hr.1, hread]
  | seq a b iha ihb | alt a b iha ihb =>
    rw [alphabet, iha hr.1 c, ihb hr.2 (c + a.stateCount)]
    rfl
  | bare => exact absurd hr id

theorem size_finals_layout (hr : r.Compilable) (c : Int) :
    (r.layout c).finals.size = r.finalCount := by
  induction r generalizing c with
  | empty => rfl
  | eps => rfl
  | symb x => rfl
  | seq a b iha ihb => exact ihb hr.2 _
  | alt a b iha ihb =>
    have ha := spans_layout hr.1 c
    have hb := spans_layout hr.2 (c + a.stateCount)
    rw [layout, finalCount, ← iha hr.1 c, ← ihb hr.2 (c + a.stateCount)]
    exact Shape.size_finals_union ha.sound hb.sound (OrderedSet.disjoint_iff.mp (ha.disjoint hb))
  | bare => exact absurd hr id

theorem size_transitions_layout (hr : r.Compilable) (c : Int) :
    (r.layout c).transitions.size = r.moveCount := by
  induction r generalizing c with
  | empty => rfl
  | eps => rfl
  | symb x => rfl
  | seq a b iha ihb =>
    have ha := spans_layout hr.1 c
    have hb := spans_layout hr.2 (c + a.stateCount)
    rw [layout, moveCount, ← iha hr.1 c, ← ihb hr.2 (c + a.stateCount), ← size_finals_layout hr.1 c]
    exact Shape.size_transitions_concat ha.sound hb.sound
      (OrderedSet.disjoint_iff.mp (ha.disjoint hb))
  | alt a b iha ihb =>
    have ha := spans_layout hr.1 c
    have hb := spans_layout hr.2 (c + a.stateCount)
    rw [layout, moveCount, ← iha hr.1 c, ← ihb hr.2 (c + a.stateCount)]
    exact Shape.size_transitions_union ha.sound hb.sound
      (OrderedSet.disjoint_iff.mp (ha.disjoint hb)) (ha.not_mem_union hb)
  | bare => exact absurd hr id

end Regex

namespace Build

variable {r : Regex} {ws : Workshop} {c : Int}

/-- From a counter that stands at a whole number an expression is laid out on the numbers behind it,
and the counter stands at the last of them. -/
theorem runWith_regex (hr : r.Compilable) (hc : ws.counter.value? = some c) :
    ∃ after, (regex r).runWith ws = (.ok (ofShape (r.layout c)), after) ∧
      after.counter.value? = some (c + r.stateCount) := by
  induction r generalizing ws c with
  | empty => exact ⟨_, runWith_empty hc, rfl⟩
  | eps => exact ⟨_, runWith_epsilon hc, congrArg some (Int.add_assoc c 1 1)⟩
  | symb x => exact ⟨_, runWith_symbol hc hr.1 hr.2, congrArg some (Int.add_assoc c 1 1)⟩
  | seq a b iha ihb =>
    -- the numbers of the second part begin where those of the first end, so nothing is moved
    have hla := Regex.spans_layout hr.1 c
    have hlb := Regex.spans_layout hr.2 (c + a.stateCount)
    obtain ⟨wa, ha, hca⟩ := iha hr.1 hc
    obtain ⟨wb, hb, hcb⟩ := ihb hr.2 hca
    have hsorted := hlb.numbered.sortable.sorted_eq_ok hlb.sound.final_mem
    obtain ⟨after, hconcat, hcounter⟩ := runWith_concat hla.numbered.valid hlb.numbered.valid
      (hla.disjoint hlb) hsorted wb
    refine ⟨after, ?_, ?_⟩
    · rw [regex, runWith_bind_ok ha, runWith_bind_ok hb, hconcat]
      rfl
    · rw [hcounter, hcb, Regex.stateCount, Int.natCast_add, Int.add_assoc]
  | alt a b iha ihb =>
    have hla := Regex.spans_layout hr.1 c
    have hlb := Regex.spans_layout hr.2 (c + a.stateCount)
    obtain ⟨wa, ha, hca⟩ := iha hr.1 hc
    obtain ⟨wb, hb, hcb⟩ := ihb hr.2 hca
    have hunion := hla.union hlb
    have hsorted := hunion.numbered.sortable.sorted_eq_ok hunion.sound.final_mem
    obtain ⟨after, hrun, hcounter⟩ := runWith_union hla.numbered.valid hlb.numbered.valid
      (hla.disjoint hlb) hsorted hcb (hla.not_mem_union hlb)
    refine ⟨after, ?_, ?_⟩
    · rw [regex, runWith_bind_ok ha, runWith_bind_ok hb, hrun]
      rfl
    · rw [hcounter, Regex.stateCount]
      simp only [Int.natCast_add, Int.add_assoc]
      rfl
  | bare => exact absurd hr id

theorem runWith_compile (hr : r.Compilable) (hc : ws.counter.value? = some c) :
    ∃ after, (compile (.node r)).runWith ws = (.ok (ofShape (r.layout c)), after) ∧
      after.counter.value? = some (c + r.stateCount) := by
  obtain ⟨mid, hrun, hmid⟩ := runWith_regex hr hc
  obtain ⟨after, hreport, hcounter⟩ := runWith_report (fun _ => do
    return "Compiled " ++ (← (Operand.node r).written) ++ " into " ++
      Value.writtenInt (r.layout c).states.size ++ " states, " ++
      Value.writtenInt (r.layout c).transitions.size ++ " transitions") rfl mid
  refine ⟨after, ?_, by rw [hcounter, hmid]⟩
  rw [compile, operand, runWith_bind_ok hrun]
  exact runWith_bind_ok hreport

/-! ## Which expressions compile -/

/-- What is built of an expression is built of all its nodes, so none of them can be in the way. -/
theorem compilable_of_regex {n : Automaton} {after : Workshop}
    (h : (regex r).runWith ws = (.ok n, after)) : r.Compilable := by
  induction r generalizing ws n after with
  | empty | eps => trivial
  | symb x => exact symbol_eq_ok h
  | seq a b iha ihb | alt a b iha ihb =>
    simp only [regex, bind_eq_ok_iff] at h
    obtain ⟨_, _, ha, _, _, hb, -⟩ := h
    exact ⟨iha ha, ihb hb⟩
  | bare => cases h

end Build

/-- Some builder compiles the expression. -/
def Regex.Compiles (r : Regex) : Prop :=
  ∃ ws n after, (Build.compile (.node r)).runWith ws = (.ok n, after)

theorem Regex.compiles_iff {r : Regex} : r.Compiles ↔ r.Compilable := by
  constructor
  · rintro ⟨ws, n, after, h⟩
    obtain ⟨_, _, hregex, -⟩ := Build.bind_eq_ok_iff.mp h
    exact Build.compilable_of_regex hregex
  · intro hr
    obtain ⟨after, hrun, -⟩ := @Build.runWith_compile r ⟨.fresh, .off⟩ 0 hr rfl
    exact ⟨_, _, after, hrun⟩

/-! ## Counting -/

namespace Build

variable {r : Regex} {ws : Workshop} {c : Int}

/-- From a counter that stands at a whole number, building an expression issues as many numbers as the
expression has states, and these numbers are the states. The alphabet is that of the expression, and
final states and transitions are as many as its structure says. -/
theorem regex_counts (hr : r.Compilable) (hc : ws.counter.value? = some c) :
    ∃ n after, (regex r).runWith ws = (.ok n, after) ∧
      Draws (regex r) ws ((following c r.stateCount).map .int) ∧
      after.counter.value? = some (c + r.stateCount) ∧
      n.states.items.Perm ((following c r.stateCount).map .int) ∧
      r.alphabet = .ok n.alphabet ∧
      n.finals.size = r.finalCount ∧ n.transitions.size = r.moveCount := by
  obtain ⟨after, hrun, hafter⟩ := runWith_regex hr hc
  obtain ⟨issued, hdraws⟩ := traced_regex r ws
  obtain ⟨hnumbers, hlast⟩ := hdraws.numbers hc
  -- the counter moves by one for each number issued
  have hcount : issued.length = r.stateCount := by
    rw [hrun, hafter, Option.some.injEq] at hlast
    omega
  rw [hcount] at hnumbers
  rw [hnumbers] at hdraws
  exact ⟨_, after, hrun, hdraws, hafter, (Regex.spans_layout hr c).perm,
    Regex.alphabet_layout hr c, Regex.size_finals_layout hr c, Regex.size_transitions_layout hr c⟩

/-- A choice with two ends before another one, by a counter below zero, with the log on. -/
theorem regex_counts_choices :
    let r := Regex.seq (.alt (.symb (.text "a")) .eps) (.alt (.symb (.int 1)) .empty)
    let ws : Workshop := ⟨⟨.int (-3)⟩, .on⟩
    (r.Compilable ∧ ws.counter.value? = some (-3)) ∧
      ∃ n after, (regex r).runWith ws = (.ok n, after) ∧
        Draws (regex r) ws ((following (-3) 9).map .int) ∧
        after.counter.value? = some 6 ∧ n.states.items.Perm ((following (-3) 9).map .int) ∧
        r.alphabet = .ok n.alphabet ∧ n.finals.size = 1 ∧ n.transitions.size = 9 := by
  intro r ws
  have hr : r.Compilable := ⟨⟨⟨rfl, rfl⟩, trivial⟩, ⟨rfl, rfl⟩, trivial⟩
  have hc : ws.counter.value? = some (-3) := rfl
  exact ⟨⟨hr, hc⟩, regex_counts hr hc⟩

end Build

end EpsilonAutomata
