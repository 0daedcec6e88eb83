import EpsilonAutomata.Proofs.Build.Layout

/-!
# The automaton of an expression runs down

Nothing repeats in an expression, and nothing repeats in its automaton. The numbers of the states do
not show it: the start of a union has a later number than the states that it leads to. So every state
gets a depth (`Shape.Descends`), a bound on the moves that can still follow. The start has the greatest
one, every move leads to a smaller one, and final states have none left. A concatenation puts its first
part on top of the depth of the second, a union puts its start on top of both
(`Regex.exists_descends`). That nothing enters the start, that nothing leaves a final state and that no
trail comes back to where it began are read off the depths (`compile_acyclic`).
-/

namespace EpsilonAutomata

open Build (link)

namespace Shape

variable {s t : Shape} {start a b : Value} {f g depth : Value → Nat}

/-- Every move leads to a smaller depth. No state is deeper than the start, and final states have no
depth left. -/
structure Descends (s : Shape) (depth : Value → Nat) : Prop where
  congr : ∀ {a b : Value}, (a == b) = true → depth a = depth b
  start_max : ∀ a, a ∈ s.states → depth a ≤ depth s.initial
  move_lt : ∀ u : Transition, u ∈ s.transitions → depth u.target < depth u.source
  final_zero : ∀ a, a ∈ s.finals → depth a = 0

/-! ## What depths show -/

namespace Descends

theorem not_enters_start (h : s.Descends depth) (hs : s.Sound) {u : Transition}
    (hu : u ∈ s.transitions) : (u.target == s.initial) = false := by
  rw [Bool.eq_false_iff]
  intro heq
  have hlt := h.move_lt u hu
  have hle := h.start_max u.source (hs.move_mem u hu).1
  rw [h.congr heq] at hlt
  omega

theorem not_leaves_final (h : s.Descends depth) {u : Transition} (hu : u ∈ s.transitions) :
    u.source ∉ s.finals := by
  intro hfinal
  have hlt := h.move_lt u hu
  rw [h.final_zero u.source hfinal] at hlt
  omega

/-- Every move of a trail takes up some depth. -/
theorem length_le_of_trail (h : s.Descends depth) {ts : List Transition} (trail : Trail s a ts b) :
    depth b + ts.length ≤ depth a := by
  induction ts generalizing a with
  | nil =>
    have heq : depth a = depth b := h.congr trail
    simp [heq]
  | cons u ts ih =>
    obtain ⟨hsource, hu, rest⟩ := trail
    have hrest := ih rest
    have hlt := h.move_lt u (OrderedSet.mem_of_mem_items hu)
    rw [← h.congr hsource] at hlt
    rw [List.length_cons]
    omega

theorem eq_nil_of_trail (h : s.Descends depth) {ts : List Transition} (trail : Trail s a ts b)
    (hab : (a == b) = true) : ts = [] := by
  have hlength := h.length_le_of_trail trail
  rw [h.congr hab] at hlength
  exact List.length_eq_zero_iff.mp (by omega)

/-! ## How depths are put together -/

theorem lone (a : Value) : (Shape.lone a).Descends fun _ => 0 where
  congr _ := rfl
  start_max _ _ := Nat.le_refl 0
  move_lt u hu := absurd hu (OrderedSet.not_mem_empty u)
  final_zero _ _ := rfl

theorem edge {e x : Value} (hne : (a == e) = false) :
    (Shape.edge a x e).Descends fun b => if (a == b) = true then 1 else 0 where
  congr {b c} hbc := if_congr ⟨fun h => BEq.trans h hbc, fun h => BEq.trans h (BEq.symm hbc)⟩ rfl rfl
  start_max b _ := by
    show (if (a == b) = true then 1 else 0) ≤ if (a == a) = true then 1 else 0
    rw [if_pos BEq.rfl]
    split <;> omega
  move_lt u hu := by
    obtain ⟨hsource, -, htarget⟩ := mem_transitions_edge.mp hu
    have hback : ¬ (a == u.target) = true := by
      intro h
      rw [BEq.trans h (BEq.symm htarget)] at hne
      cases hne
    rw [if_pos hsource, if_neg hback]
    exact Nat.one_pos
  final_zero b hb := by
    have hend : (e == b) = true := OrderedSet.mem_singleton.mp hb
    refine if_neg fun h => ?_
    rw [BEq.trans h (BEq.symm hend)] at hne
    cases hne

/-- The depths of a concatenation: below the link to the second part those of this part, and above it
the first part on top of all of them. -/
def onTop (s t : Shape) (f g : Value → Nat) (a : Value) : Nat :=
  if a ∈ s.states then f a + (g t.initial + 1) else g a

theorem onTop_left (ha : a ∈ s.states) : onTop s t f g a = f a + (g t.initial + 1) :=
  if_pos ha

theorem onTop_right (hapart : ∀ a, a ∈ s.states → a ∉ t.states) (ha : a ∈ t.states) :
    onTop s t f g a = g a :=
  if_neg fun h => hapart a h ha

theorem concat (hs : s.Sound) (ht : t.Sound) (hapart : ∀ a, a ∈ s.states → a ∉ t.states)
    (hf : s.Descends f) (hg : t.Descends g) : (s.concat t).Descends (onTop s t f g) where
  congr {a b} hab := by
    unfold onTop
    rw [hf.congr hab, hg.congr hab]
    exact if_congr (OrderedSet.mem_congr hab) rfl rfl
  start_max a ha := by
    show _ ≤ onTop s t f g s.initial
    rw [onTop_left hs.start_mem]
    rcases OrderedSet.mem_union.mp ha with ha | ha
    · have := hf.start_max a ha
      rw [onTop_left ha]
      omega
    · have := hg.start_max a ha
      rw [onTop_right hapart ha]
      omega
  move_lt u hu := by
    rcases mem_transitions_concat.mp hu with hu | hu | ⟨hfinal, -, hstart⟩
    · obtain ⟨hsource, htarget, -⟩ := hs.move_mem u hu
      have := hf.move_lt u hu
      rw [onTop_left hsource, onTop_left htarget]
      omega
    · obtain ⟨hsource, htarget, -⟩ := ht.move_mem u hu
      rw [onTop_right hapart hsource, onTop_right hapart htarget]
      exact hg.move_lt u hu
    · -- a link leads from the least depth of the first part to the greatest of the second
      have htarget : u.target ∈ t.states := (OrderedSet.mem_congr hstart).mp ht.start_mem
      rw [onTop_left (hs.final_mem _ hfinal), onTop_right hapart htarget, ← hg.congr hstart]
      omega
  final_zero a ha := by
    rw [onTop_right hapart (ht.final_mem a ha)]
    exact hg.final_zero a ha

/-- The depths of a union: those of its parts, and its start on top of both. -/
def above (start : Value) (s t : Shape) (f g : Value → Nat) (a : Value) : Nat :=
  if (start == a) = true then f s.initial + g t.initial + 1 else if a ∈ s.states then f a else g a

theorem above_start (ha : (start == a) = true) :
    above start s t f g a = f s.initial + g t.initial + 1 :=
  if_pos ha

theorem above_left (hfresh : start ∉ s.states ∪ t.states) (ha : a ∈ s.states) :
    above start s t f g a = f a := by
  have hne : ¬ (start == a) = true := fun h =>
    hfresh (OrderedSet.mem_union.mpr (.inl ((OrderedSet.mem_congr h).mpr ha)))
  rw [above, if_neg hne, if_pos ha]

theorem above_right (hfresh : start ∉ s.states ∪ t.states)
    (hapart : ∀ a, a ∈ s.states → a ∉ t.states) (ha : a ∈ t.states) :
    above start s t f g a = g a := by
  have hne : ¬ (start == a) = true := fun h =>
    hfresh (OrderedSet.mem_union.mpr (.inr ((OrderedSet.mem_congr h).mpr ha)))
  rw [above, if_neg hne, if_neg fun h => hapart a h ha]

theorem ends_of_link {u : Transition} (h : (link a b == u) = true) :
    (a == u.source) = true ∧ (b == u.target) = true :=
  ⟨(Transition.beq_iff.mp h).1, (Transition.beq_iff.mp h).2.2⟩

theorem union (hs : s.Sound) (ht : t.Sound) (hapart : ∀ a, a ∈ s.states → a ∉ t.states)
    (hfresh : start ∉ s.states ∪ t.states) (hf : s.Descends f) (hg : t.Descends g) :
    (s.union t start).Descends (above start s t f g) where
  congr {a b} hab := by
    unfold above
    rw [hf.congr hab, hg.congr hab]
    refine if_congr ⟨fun h => BEq.trans h hab, fun h => BEq.trans h (BEq.symm hab)⟩ rfl ?_
    exact if_congr (OrderedSet.mem_congr hab) rfl rfl
  start_max a ha := by
    show _ ≤ above start s t f g start
    rw [above_start BEq.rfl]
    rcases mem_states_union.mp ha with (ha | ha) | ha
    · have := hf.start_max a ha
      rw [above_left hfresh ha]
      omega
    · have := hg.start_max a ha
      rw [above_right hfresh hapart ha]
      omega
    · exact Nat.le_of_eq (above_start ha)
  move_lt u hu := by
    -- moves of either shape stay inside it; a link leaves the new start, which is above both
    rcases mem_transitions_union.mp hu with hu | hu | hlink | hlink
    · obtain ⟨hsource, htarget, -⟩ := hs.move_mem u hu
      rw [above_left hfresh hsource, above_left hfresh htarget]
      exact hf.move_lt u hu
    · obtain ⟨hsource, htarget, -⟩ := ht.move_mem u hu
      rw [above_right hfresh hapart hsource, above_right hfresh hapart htarget]
      exact hg.move_lt u hu
    · obtain ⟨hsource, hstart⟩ := ends_of_link hlink
      have htarget : u.target ∈ s.states := (OrderedSet.mem_congr hstart).mp hs.start_mem
      rw [above_start hsource, above_left hfresh htarget, hf.congr hstart]
      omega
    · obtain ⟨hsource, hstart⟩ := ends_of_link hlink
      have htarget : u.target ∈ t.states := (OrderedSet.mem_congr hstart).mp ht.start_mem
      rw [above_start hsource, above_right hfresh hapart htarget, hg.congr hstart]
      omega
  final_zero a ha := by
    rcases OrderedSet.mem_union.mp ha with ha | ha
    · rw [above_left hfresh (hs.final_mem a ha)]
      exact hf.final_zero a ha
    · rw [above_right hfresh hapart (ht.final_mem a ha)]
      exact hg.final_zero a ha

end Descends

end Shape

/-! ## Expressions -/

variable {r : Regex}

/-- The states of a layout have depths, by induction on the expression. -/
theorem Regex.exists_descends (hr : r.Compilable) (c : Int) :
    ∃ depth, (r.layout c).Descends depth := by
  have hedge (c : Int) (x : Value) :
      ∃ depth, (Shape.edge (.int (c + 1)) x (.int (c + 1 + 1))).Descends depth := by
    refine ⟨_, .edge ?_⟩
    rw [Value.int_beq_int, decide_eq_false_iff_not]
    omega
  induction r generalizing c with
  | empty => exact ⟨_, .lone _⟩
  | eps => exact hedge c .epsilon
  | symb x => exact hedge c x
  | seq a b iha ihb =>
    have ha := spans_layout hr.1 c
    have hb := spans_layout hr.2 (c + a.stateCount)
    obtain ⟨f, hf⟩ := iha hr.1 c
    obtain ⟨g, hg⟩ := ihb hr.2 (c + a.stateCount)
    exact ⟨_, .concat ha.sound hb.sound (OrderedSet.disjoint_iff.mp (ha.disjoint hb)) hf hg⟩
  | alt a b iha ihb =>
    have ha := spans_layout hr.1 c
    have hb := spans_layout hr.2 (c + a.stateCount)
    obtain ⟨f, hf⟩ := iha hr.1 c
    obtain ⟨g, hg⟩ := ihb hr.2 (c + a.stateCount)
    exact ⟨_, .union ha.sound hb.sound (OrderedSet.disjoint_iff.mp (ha.disjoint hb))
      (ha.not_mem_union hb) hf hg⟩
  | bare => exact absurd hr id

namespace Build

variable {ws : Workshop} {c : Int}

/-- An expression that compiles at all compiles by every builder that draws whole numbers, to an
automaton without a transition into its start, without one out of a final state, and without a cycle:
transitions that lead, one after the other, from a state back to it are none at all. -/
theorem compile_acyclic (hr : r.Compiles) (hc : ws.counter.value? = some c) :
    ∃ n after, (compile (.node r)).runWith ws = (.ok n, after) ∧
      (∀ u : Transition, u ∈ n.transitions → (u.target == n.initial) = false) ∧
      (∀ u : Transition, u ∈ n.transitions → u.source ∉ n.finals) ∧
      ∀ a ts b, Trail n.toShape a ts b → (a == b) = true → ts = [] := by
  have hcompilable := Regex.compiles_iff.mp hr
  obtain ⟨after, hrun, -⟩ := runWith_compile hcompilable hc
  obtain ⟨depth, hdepth⟩ := Regex.exists_descends hcompilable c
  have hsound := (Regex.spans_layout hcompilable c).sound
  exact ⟨_, after, hrun, fun u hu => hdepth.not_enters_start hsound hu,
    fun u hu => hdepth.not_leaves_final hu, fun a ts b trail hab => hdepth.eq_nil_of_trail trail hab⟩

/-- A choice with two ends before another one, where states of later numbers lead to earlier ones, by a
counter below zero, with the log on. -/
theorem compile_acyclic_choices :
    let r := Regex.seq (.alt (.symb (.text "a")) .eps) (.alt (.symb (.int 1)) .empty)
    let ws : Workshop := ⟨⟨.int (-3)⟩, .on⟩
    (r.Compiles ∧ ws.counter.value? = some (-3)) ∧
      ∃ n after, (compile (.node r)).runWith ws = (.ok n, after) ∧
        (∀ u : Transition, u ∈ n.transitions → (u.target == n.initial) = false) ∧
        (∀ u : Transition, u ∈ n.transitions → u.source ∉ n.finals) ∧
        ∀ a ts b, Trail n.toShape a ts b → (a == b) = true → ts = [] := by
  intro r ws
  have hr : r.Compiles :=
    Regex.compiles_iff.mpr ⟨⟨⟨rfl, rfl⟩, trivial⟩, ⟨rfl, rfl⟩, trivial⟩
  exact ⟨⟨hr, rfl⟩, compile_acyclic hr rfl⟩

end Build

end EpsilonAutomata
