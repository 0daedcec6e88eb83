import EpsilonAutomata.Proofs.Build.Numbered
import EpsilonAutomata.Proofs.Expr.Language

/-!
# The compiler is correct

Compiling draws numbers one after the other, so the states of the automaton of an expression are the
whole numbers between where the counter stood before and where it stands after (`Compiled`). The
automata of two operands therefore share no state and are joined as they are, and the next number is
free for the new start of a union. By induction on the expression the automaton accepts exactly the
words of its language (`regex_spec`), whatever number the counter begins with.
-/

namespace EpsilonAutomata

namespace Build

open Automaton (ofShape)

/-- The states of the automaton are whole numbers above the one bound and up to the other, and it
accepts the words of the language. -/
structure Compiled (lo hi : Int) (n : Automaton) (l : Language) : Prop where
  valid : n.Valid
  le : lo ≤ hi
  numbered : ∀ a ∈ n.states.items, ∃ i, a = .int i ∧ lo < i ∧ i ≤ hi
  accepts_iff : ∀ w, n.Accepts w ↔ w.visible ∈ l

namespace Compiled

variable {lo mid hi : Int} {m n : Automaton} {l l' : Language}

theorem numbers (h : Compiled lo hi n l) : Numbered lo hi n := ⟨h.valid, h.numbered⟩

theorem flatStates (h : Compiled lo hi n l) : n.FlatStates := h.numbers.flatStates

theorem sortable (h : Compiled lo hi n l) : n.Sortable := h.numbers.sortable

theorem numbers_both (hm : Compiled lo mid m l) (hn : Compiled mid hi n l') :
    Numbered lo hi m ∧ Numbered lo hi n :=
  ⟨hm.numbers.mono (Int.le_refl lo) hn.le, hn.numbers.mono hm.le (Int.le_refl hi)⟩

/-! ## The nodes -/

theorem lone (c : Int) : Compiled c (c + 1) (ofShape (.lone (.int (c + 1)))) ∅ where
  __ := Numbered.lone c
  le := by omega
  accepts_iff w := iff_of_false (Shape.lone_not_accepts _ w) (OrderedSet.not_mem_empty _)

theorem edge (c : Int) {x : Value} (hx : x.hashable = true) :
    Compiled c (c + 1 + 1) (ofShape (.edge (.int (c + 1)) x (.int (c + 1 + 1))))
      (.ofList [Word.visible [x]]) where
  __ := Numbered.edge c hx
  le := by omega
  accepts_iff w := by
    have hne : (Value.int (c + 1) == Value.int (c + 1 + 1)) = false := by
      rw [Value.int_beq_int, decide_eq_false_iff_not]
      omega
    show (Shape.edge _ _ _).Accepts w ↔ _
    rw [Shape.edge_accepts_iff hne, OrderedSet.mem_singleton]

theorem concat (hm : Compiled lo mid m l) (hn : Compiled mid hi n l') :
    Compiled lo hi (ofShape (m.toShape.concat n.toShape)) (l.concat l') where
  __ := (numbers_both hm hn).1.ofShape_concat (numbers_both hm hn).2
  le := Int.le_trans hm.le hn.le
  accepts_iff w := by
    show (m.toShape.concat n.toShape).Accepts w ↔ _
    rw [Shape.concat_accepts_iff hm.valid.sound hn.valid.sound
      (OrderedSet.disjoint_iff.mp (hm.numbers.disjoint hn.numbers)), Language.mem_concat]
    constructor
    · rintro ⟨u, v, hw, hu, hv⟩
      exact ⟨u.visible, v.visible, Word.visible_of_visible_eq_append hw,
        (hm.accepts_iff u).mp hu, (hn.accepts_iff v).mp hv⟩
    · rintro ⟨u, v, hw, hu, hv⟩
      have hread : ∀ x ∈ u ++ v, x.isEpsilon = false := by
        rw [← hw]
        exact fun x => Word.not_epsilon_of_mem_visible
      refine ⟨u, v, hw, (hm.accepts_iff u).mpr ?_, (hn.accepts_iff v).mpr ?_⟩
      · rwa [Word.visible_eq_self fun x hx => hread x (List.mem_append_left v hx)]
      · rwa [Word.visible_eq_self fun x hx => hread x (List.mem_append_right u hx)]

theorem not_mem_union (hm : Compiled lo mid m l) (hn : Compiled mid hi n l') :
    Value.int (hi + 1) ∉ m.states ∪ n.states :=
  (numbers_both hm hn).1.not_mem_union (numbers_both hm hn).2 (Int.lt_succ hi)

theorem union (hm : Compiled lo mid m l) (hn : Compiled mid hi n l') :
    Compiled lo (hi + 1) (ofShape (m.toShape.union n.toShape (.int (hi + 1)))) (l ∪ l') where
  __ := (numbers_both hm hn).1.ofShape_union (numbers_both hm hn).2 (Int.lt_succ hi)
  le := by
    have := hm.le
    have := hn.le
    omega
  accepts_iff w := by
    show (m.toShape.union n.toShape _).Accepts w ↔ _
    rw [Shape.union_accepts_iff hm.valid.sound hn.valid.sound
      (OrderedSet.disjoint_iff.mp (hm.numbers.disjoint hn.numbers)) (hm.not_mem_union hn),
      OrderedSet.mem_union]
    exact or_congr (hm.accepts_iff w) (hn.accepts_iff w)

theorem sorted_finals (h : Compiled lo hi n l) : ∃ xs, ValueSet.sorted n.finals = .ok xs :=
  h.sortable.sorted_eq_ok h.valid.sound.final_mem

end Compiled

/-! ## Expressions -/

/-- From a counter that stands at a whole number an expression compiles, and its automaton accepts
the words of its language. -/
theorem regex_spec {r : Regex} (hr : r.Compilable) {ws : Workshop} {c : Int}
    (hc : ws.counter.value? = some c) :
    ∃ n c' l after, (regex r).runWith ws = (.ok n, after) ∧ after.counter.value? = some c' ∧
      r.language = .ok l ∧ Compiled c c' n l := by
  induction r generalizing ws c with
  | empty => exact ⟨_, _, _, _, runWith_empty hc, rfl, rfl, .lone c⟩
  | eps => exact ⟨_, _, _, _, runWith_epsilon hc, rfl, rfl, Compiled.edge (x := .epsilon) c rfl⟩
  | symb x =>
    obtain ⟨hhash, hread⟩ := hr
    have hcompiled := Compiled.edge c hhash
    rw [Word.visible_eq_self (by simpa using hread)] at hcompiled
    exact ⟨_, _, _, _, runWith_symbol hc hhash hread, rfl, if_pos hhash, hcompiled⟩
  | seq a b iha ihb =>
    -- the second operand goes on counting where the first one stopped
    obtain ⟨m, c₁, l, ws₁, hm, hc₁, hl, hmc⟩ := iha hr.1 hc
    obtain ⟨n, c₂, l', ws₂, hn, hc₂, hl', hnc⟩ := ihb hr.2 hc₁
    obtain ⟨after, hconcat, hcounter⟩ := runWith_concat hmc.valid hnc.valid
      (hmc.numbers.disjoint hnc.numbers) hnc.sorted_finals ws₂
    refine ⟨_, c₂, _, after, ?_, by rw [hcounter, hc₂], ?_, hmc.concat hnc⟩
    · rw [regex, runWith_bind_ok hm, runWith_bind_ok hn, hconcat]
    · rw [Regex.language, hl, hl']
      rfl
  | alt a b iha ihb =>
    obtain ⟨m, c₁, l, ws₁, hm, hc₁, hl, hmc⟩ := iha hr.1 hc
    obtain ⟨n, c₂, l', ws₂, hn, hc₂, hl', hnc⟩ := ihb hr.2 hc₁
    obtain ⟨after, hunion, hcounter⟩ := runWith_union hmc.valid hnc.valid
      (hmc.numbers.disjoint hnc.numbers)
      (hmc.union hnc).sorted_finals hc₂ (hmc.not_mem_union hnc)
    refine ⟨_, c₂ + 1, _, after, ?_, hcounter, ?_, hmc.union hnc⟩
    · rw [regex, runWith_bind_ok hm, runWith_bind_ok hn, hunion]
    · rw [Regex.language, hl, hl']
      rfl
  | bare => exact absurd hr id

/-- Compiling an expression returns an automaton that accepts a word exactly when the symbols of the
word, empty moves left out, are in the language of the expression. The builder may be any that draws
whole numbers, or none, and both logs may be on or off. -/
theorem compile_accepts_iff {r : Regex} (hr : r.Compilable) (builder : Option Counter)
    (hbuilder : ∀ k ∈ builder, ∃ c, k.value? = some c) (log : Log) :
    ∃ n after l, (compile (.node r)).runWith ⟨builder.getD .fresh, log⟩ = (.ok n, after) ∧
      r.language = .ok l ∧
      ∀ (word : Value) (w : Word), word.items = .ok w → (∀ x ∈ w, x.hashable = true) → ∀ log,
        ∃ answer after, (n.accepts word).runWith log = (.ok answer, after) ∧
          (answer = true ↔ w.visible ∈ l) := by
  have hcounter : ∃ c, (builder.getD .fresh).value? = some c := by
    cases builder with
    | none => exact ⟨0, rfl⟩
    | some k => exact hbuilder k rfl
  obtain ⟨c, hc⟩ := hcounter
  obtain ⟨n, c', l, mid, hregex, -, hlanguage, hn⟩ :=
    @regex_spec r hr ⟨builder.getD .fresh, log⟩ c hc
  obtain ⟨after, hreport, -⟩ := runWith_report (fun _ => do
    return "Compiled " ++ (← (Operand.node r).written) ++ " into " ++
      Value.writtenInt n.states.size ++ " states, " ++ Value.writtenInt n.transitions.size ++
      " transitions") rfl mid
  refine ⟨n, after, l, ?_, hlanguage, ?_⟩
  · rw [compile, operand, runWith_bind_ok hregex]
    exact runWith_bind_ok hreport
  · intro word w hitems hw log
    obtain ⟨answer, after, haccepts, hanswer⟩ := Automaton.accepts_spec hn.valid hn.sortable
      (hn.flatStates.members?_eq_none hn.valid hn.valid.sound.start_mem) hitems hw log
    exact ⟨answer, after, haccepts, hanswer.trans (hn.accepts_iff w)⟩

/-- An optional text and then a number, by a counter below zero, with the log on. -/
theorem compile_accepts_iff_optional :
    let r := Regex.seq (.alt (.symb (.text "a")) .eps) (.symb (.int 1))
    let builder : Option Counter := some ⟨.int (-3)⟩
    (r.Compilable ∧ ∀ k ∈ builder, ∃ c, k.value? = some c) ∧
      ∃ n after l, (compile (.node r)).runWith ⟨builder.getD .fresh, .on⟩ = (.ok n, after) ∧
        r.language = .ok l ∧
        ∀ (word : Value) (w : Word), word.items = .ok w → (∀ x ∈ w, x.hashable = true) → ∀ log,
          ∃ answer after, (n.accepts word).runWith log = (.ok answer, after) ∧
            (answer = true ↔ w.visible ∈ l) := by
  intro r builder
  have hr : r.Compilable := ⟨⟨⟨rfl, rfl⟩, trivial⟩, rfl, rfl⟩
  have hbuilder : ∀ k ∈ builder, ∃ c, k.value? = some c := by
    intro k hk
    obtain rfl := Option.some.inj hk
    exact ⟨-3, rfl⟩
  exact ⟨⟨hr, hbuilder⟩, compile_accepts_iff hr builder hbuilder .on⟩

end Build

end EpsilonAutomata
