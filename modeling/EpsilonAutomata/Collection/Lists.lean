/-!
# Lists of values with an equivalence

Lists are compared item by item; where `==` is an equivalence on the items, it is one on lists.
-/

namespace EpsilonAutomata.Lists

variable {α : Type} [BEq α]

theorem beq_cons {a b : α} {as bs : List α} :
    ((a :: as) == (b :: bs)) = true ↔ (a == b) = true ∧ (as == bs) = true := by
  rw [List.cons_beq_cons, Bool.and_eq_true]

theorem beq_refl [EquivBEq α] (as : List α) : (as == as) = true := by
  induction as with
  | nil => rfl
  | cons a as ih => exact beq_cons.2 ⟨BEq.rfl, ih⟩

theorem beq_symm [EquivBEq α] {as bs : List α} (h : (as == bs) = true) :
    (bs == as) = true := by
  induction as generalizing bs with
  | nil => cases bs with
    | nil => rfl
    | cons b bs => cases h
  | cons a as ih => cases bs with
    | nil => cases h
    | cons b bs =>
      have ⟨h₁, h₂⟩ := beq_cons.1 h
      exact beq_cons.2 ⟨BEq.symm h₁, ih h₂⟩

theorem beq_trans [EquivBEq α] {as bs cs : List α} (h : (as == bs) = true)
    (k : (bs == cs) = true) : (as == cs) = true := by
  induction as generalizing bs cs with
  | nil => cases bs with
    | nil => exact k
    | cons b bs => cases h
  | cons a as ih => cases bs with
    | nil => cases h
    | cons b bs => cases cs with
      | nil => cases k
      | cons c cs =>
        have ⟨h₁, h₂⟩ := beq_cons.1 h
        have ⟨k₁, k₂⟩ := beq_cons.1 k
        exact beq_cons.2 ⟨BEq.trans h₁ k₁, ih h₂ k₂⟩

instance instEquivBEq [EquivBEq α] : EquivBEq (List α) where
  rfl := beq_refl _
  symm := beq_symm
  trans := beq_trans

theorem countP_beq_eq_one [EquivBEq α] {as : List α} (h : as.Pairwise fun a b => (a == b) = false)
    {a b : α} (ha : a ∈ as) (hab : (a == b) = true) : as.countP (· == b) = 1 := by
  obtain ⟨l, r, rfl⟩ := List.append_of_mem ha
  obtain ⟨-, hr, hcross⟩ := List.pairwise_append.1 h
  have hother {c : α} (hne : (c == a) = false) : ¬ (c == b) = true := fun hcb => by
    rw [BEq.trans hcb (BEq.symm hab)] at hne
    cases hne
  have hl : l.countP (· == b) = 0 :=
    List.countP_eq_zero.2 fun c hc => hother (hcross c hc a (List.mem_cons_self ..))
  have hr : r.countP (· == b) = 0 :=
    List.countP_eq_zero.2 fun c hc => hother (by
      rw [BEq.comm]
      exact (List.pairwise_cons.1 hr).1 c hc)
  rw [List.countP_append, List.countP_cons, hl, hr, if_pos hab]

end EpsilonAutomata.Lists
