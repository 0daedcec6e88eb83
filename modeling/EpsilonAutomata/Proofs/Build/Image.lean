import EpsilonAutomata.Proofs.Automaton.Image
import EpsilonAutomata.Proofs.Build.Layout
import EpsilonAutomata.Proofs.Value.Collections

/-!
# An expression laid out elsewhere

What an expression is laid out on does not matter. Each way to build automata takes images to images
(`Image.lone`, `Image.edge`, `Image.concat`, `Image.union`), so the layout from one number is the image
of the layout from another under every renaming that takes the numbers of the one to those of the
other, and equal expressions have such layouts too (`Regex.image_layout`). Renumbering from one is such
a renaming, since the sorted states are the numbers of the layout in order: `renumber_compile`.
-/

namespace EpsilonAutomata

open Build (link)

namespace Shape

variable {R : Value → Value → Prop} {s s' t t' : Shape} {a a' b e e' x y : Value}

/-! ## Images of what is built -/

namespace Image

theorem singleton_iff (hR : Renaming R) (hab : R a b) {c : Value} :
    c ∈ OrderedSet.ofList [b] ↔ ∃ d, d ∈ OrderedSet.ofList [a] ∧ R d c := by
  simp only [OrderedSet.mem_singleton]
  exact hR.beq_iff hab

theorem exists_ends {p p' q q' : Value → Prop} {z : Prop} :
    ((∃ a, p a ∧ q a) ∧ z ∧ ∃ b, p' b ∧ q' b) ↔ ∃ a b, (p a ∧ z ∧ p' b) ∧ q a ∧ q' b := by
  constructor
  · rintro ⟨⟨a, ha, hqa⟩, hz, b, hb, hqb⟩
    exact ⟨a, b, ⟨ha, hz, hb⟩, hqa, hqb⟩
  · rintro ⟨a, b, ⟨ha, hz, hb⟩, hqa, hqb⟩
    exact ⟨⟨a, ha, hqa⟩, hz, b, hb, hqb⟩

theorem lone (hR : Renaming R) (hab : R a b) : Image R (Shape.lone a) (Shape.lone b) where
  states _ := singleton_iff hR hab
  alphabet := BEq.rfl
  initial := hab
  transitions _ _ _ := iff_of_false (OrderedSet.not_mem_empty _)
    fun ⟨_, _, hmove, _⟩ => OrderedSet.not_mem_empty _ hmove
  finals _ := iff_of_false (OrderedSet.not_mem_empty _)
    fun ⟨_, hf, _⟩ => OrderedSet.not_mem_empty _ hf

theorem edge (hR : Renaming R) (ha : R a a') (he : R e e') (hxy : (x == y) = true) :
    Image R (Shape.edge a x e) (Shape.edge a' y e') where
  states c := by
    simp only [mem_states_edge, or_and_right, exists_or]
    exact or_congr (hR.beq_iff ha) (hR.beq_iff he)
  alphabet := (SameMembers.of_beq (Word.visible_congr (Lists.beq_cons.mpr ⟨hxy, rfl⟩))).ofList
  initial := ha
  transitions c z d := by
    have hlabel : (y == z) = true ↔ (x == z) = true :=
      ⟨BEq.trans hxy, BEq.trans (BEq.symm hxy)⟩
    simp only [mem_transitions_edge]
    rw [hR.beq_iff ha, hR.beq_iff he, hlabel]
    exact exists_ends
  finals _ := singleton_iff hR he

theorem states_union (h : Image R s s') (h' : Image R t t') (b : Value) :
    b ∈ s'.states ∨ b ∈ t'.states ↔ ∃ a, (a ∈ s.states ∨ a ∈ t.states) ∧ R a b := by
  simp only [h.states, h'.states, or_and_right, exists_or]

theorem concat (hR : Renaming R) (h : Image R s s') (h' : Image R t t') :
    Image R (s.concat t) (s'.concat t') where
  states b := by
    show b ∈ s'.states ∪ t'.states ↔ ∃ a, a ∈ s.states ∪ t.states ∧ R a b
    simp only [OrderedSet.mem_union]
    exact states_union h h' b
  alphabet := OrderedSet.union_congr h.alphabet h'.alphabet
  initial := h.initial
  transitions c z d := by
    simp only [mem_transitions_concat, h.transitions, h'.transitions, h.finals, or_and_right, exists_or]
    refine or_congr Iff.rfl (or_congr Iff.rfl ?_)
    rw [hR.beq_iff h'.initial]
    exact exists_ends
  finals := h'.finals

theorem link_iff (hR : Renaming R) (hab : R a b) (h : Image R s s') {c z d : Value} :
    (link b s'.initial == (⟨c, z, d⟩ : Transition)) = true ↔
      ∃ c' d', (link a s.initial == (⟨c', z, d'⟩ : Transition)) = true ∧ R c' c ∧ R d' d := by
  simp only [Transition.beq_iff, link]
  rw [hR.beq_iff hab, hR.beq_iff h.initial]
  exact exists_ends

theorem union (hR : Renaming R) (hab : R a b) (h : Image R s s') (h' : Image R t t') :
    Image R (s.union t a) (s'.union t' b) where
  states c := by
    simp only [mem_states_union, states_union h h', hR.beq_iff hab]
    simp only [← exists_or, ← or_and_right]
  alphabet := OrderedSet.union_congr h.alphabet h'.alphabet
  initial := hab
  transitions c z d := by
    simp only [mem_transitions_union, h.transitions, h'.transitions, link_iff hR hab h,
      link_iff hR hab h']
    simp only [← exists_or, ← or_and_right]
  finals c := by
    show c ∈ s'.finals ∪ t'.finals ↔ ∃ d, d ∈ s.finals ∪ t.finals ∧ R d c
    simp only [OrderedSet.mem_union, h.finals, h'.finals, or_and_right, exists_or]

end Image

end Shape

/-! ## Expressions -/

variable {R : Value → Value → Prop}

/-- The numbers behind the one, as many as said, have those behind the other as counterparts. -/
def Carries (R : Value → Value → Prop) (c d : Int) (count : Nat) : Prop :=
  ∀ i : Int, 0 < i → i ≤ count → R (.int (c + i)) (.int (d + i))

namespace Carries

variable {c d : Int} {m k : Nat}

theorem first (h : Carries R c d (m + k)) : Carries R c d m :=
  fun i hi him => h i hi (by omega)

theorem second (h : Carries R c d (m + k)) : Carries R (c + m) (d + m) k := by
  intro i hi hik
  rw [Int.add_assoc, Int.add_assoc]
  exact h (m + i) (by omega) (by omega)

theorem next (h : Carries R c d (m + 1)) : R (.int (c + 1)) (.int (d + 1)) :=
  h 1 (by omega) (by omega)

theorem edge {x y : Value} (hR : Renaming R) (h : Carries R c d 2) (hxy : (x == y) = true) :
    Shape.Image R (.edge (.int (c + 1)) x (.int (c + 1 + 1)))
      (.edge (.int (d + 1)) y (.int (d + 1 + 1))) :=
  .edge hR h.next (h.second (m := 1) (k := 1)).next hxy

end Carries

namespace Regex

variable {a b : Regex} {c d : Int}

theorem stateCount_congr (h : same a b = true) : a.stateCount = b.stateCount := by
  induction a generalizing b with
  | seq a₁ a₂ ih₁ ih₂ | alt a₁ a₂ ih₁ ih₂ =>
    cases b <;> simp only [same, Bool.and_eq_true, Bool.false_eq_true] at h
    rw [stateCount, stateCount, ih₁ h.1, ih₂ h.2]
  | _ => cases b <;> simp_all [same, stateCount]

/-- Equal expressions are laid out alike, wherever they are: if the numbers behind the one starting point
have the numbers behind the other as counterparts, then so has what is laid out on them. -/
theorem image_layout (hR : Renaming R) (ha : a.Compilable) (hab : same a b = true)
    (h : Carries R c d a.stateCount) : Shape.Image R (a.layout c) (b.layout d) := by
  -- the numbers of an operand are part of those carried, so the renaming serves both operands
  induction a generalizing b c d with
  | empty =>
    cases b <;> simp only [same, Bool.false_eq_true] at hab
    exact .lone hR (h.next (m := 0))
  | eps =>
    cases b <;> simp only [same, Bool.false_eq_true] at hab
    exact Carries.edge hR h BEq.rfl
  | symb x =>
    cases b <;> simp only [same, Bool.false_eq_true] at hab
    exact Carries.edge hR h hab
  | seq a₁ a₂ ih₁ ih₂ =>
    cases b <;> simp only [same, Bool.and_eq_true, Bool.false_eq_true] at hab
    rw [layout, layout, ← stateCount_congr hab.1]
    exact .concat hR (ih₁ ha.1 hab.1 h.first) (ih₂ ha.2 hab.2 h.second)
  | alt a₁ a₂ ih₁ ih₂ =>
    cases b <;> simp only [same, Bool.and_eq_true, Bool.false_eq_true] at hab
    rw [layout, layout, ← stateCount_congr hab.1, ← stateCount_congr hab.2]
    -- the number of the start comes behind those of both operands
    have hrest : Carries R (c + a₁.stateCount) (d + a₁.stateCount) (a₂.stateCount + 1) :=
      h.second (k := a₂.stateCount + 1)
    exact .union hR (hrest.second (k := 1)).next
      (ih₁ ha.1 hab.1 (h.first (k := a₂.stateCount + 1))) (ih₂ ha.2 hab.2 hrest.first)
  | bare => exact absurd ha id

theorem sorted_states_layout (ha : a.Compilable) (c : Int) :
    (a.layout c).states.sorted = .ok ((following c a.stateCount).map .int) :=
  ValueSet.sorted_of_ascending (spans_layout ha c).perm pairwise_following

end Regex

theorem carries_numbered (c d : Int) (count : Nat) :
    Carries (Mapping.numbered (d + 1) ((following c count).map .int)).Sends c d count := by
  intro i hi hic
  obtain ⟨k, rfl⟩ : ∃ k : Nat, i = k + 1 := ⟨(i - 1).toNat, by omega⟩
  have hplace : ((following c count).map Value.int)[k]? = some (.int (c + (k + 1))) := by
    rw [List.getElem?_map, getElem?_following (by omega), Option.map_some, Int.add_assoc]
  have hsends := Mapping.sends_numbered (d + 1) hplace
  rwa [Int.add_assoc, Int.add_comm 1] at hsends

namespace Build

variable {r : Regex} {ws : Workshop} {c : Int}

/-- Whatever number the counter stands at, compiling gives one automaton up to numbering: renumbered from
one it is what a fresh builder makes of the expression. -/
theorem renumber_compile (hr : r.Compiles) (hc : ws.counter.value? = some c) (log log' : Log) :
    ∃ n after m fresh k, (compile (.node r)).runWith ws = (.ok n, after) ∧
      (compile (.node r)).runWith ⟨.fresh, log⟩ = (.ok m, fresh) ∧
      ((n.renumber (.int 1)).runWith log').1 = .ok k ∧ (k == m) = true := by
  have hcompilable := Regex.compiles_iff.mp hr
  have hspans := Regex.spans_layout hcompilable c
  have hsorted := Regex.sorted_states_layout hcompilable c
  obtain ⟨after, hrun, -⟩ := runWith_compile hcompilable hc
  obtain ⟨fresh, hrun', -⟩ := @runWith_compile r ⟨.fresh, log⟩ 0 hcompilable rfl
  obtain ⟨k, hk⟩ := Automaton.exists_renumber hspans.numbered.valid hsorted 1
  refine ⟨_, after, _, fresh, k, hrun, hrun', ?_, ?_⟩
  · rw [Automaton.renumber_int hsorted, hk]
  · -- both are the image of the layout under the numbering
    have hrenaming := Mapping.renaming_sends
      (Mapping.distinct_keys_numbered 1 (ValueSet.distinct_of_sorted hsorted))
    exact (Automaton.image_renumber hsorted hk).unique hrenaming
      (Regex.image_layout hrenaming hcompilable (Regex.same_refl r)
        (carries_numbered c 0 r.stateCount))

/-- A choice before another one, by a builder whose last work failed after it had drawn two numbers. The
numbers of the one and of the other automaton meet. -/
theorem renumber_compile_choices :
    let r := Regex.seq (.alt (.symb (.text "a")) .eps) (.alt (.symb (.int 1)) .empty)
    let ws := ((symbol (.list [])).runWith ⟨⟨.int (-5)⟩, .on⟩).2
    (r.Compiles ∧ ws.counter.value? = some (-3)) ∧
      ∃ n after m fresh k, (compile (.node r)).runWith ws = (.ok n, after) ∧
        (compile (.node r)).runWith ⟨.fresh, .off⟩ = (.ok m, fresh) ∧
        ((n.renumber (.int 1)).runWith .on).1 = .ok k ∧ (k == m) = true := by
  intro r ws
  have hr : r.Compiles :=
    Regex.compiles_iff.mpr ⟨⟨⟨rfl, rfl⟩, trivial⟩, ⟨rfl, rfl⟩, trivial⟩
  have hc : ws.counter.value? = some (-3) := by decide +kernel
  exact ⟨⟨hr, hc⟩, renumber_compile hr hc .off .on⟩

end Build

end EpsilonAutomata
