import EpsilonAutomata.Collection.Lists
import EpsilonAutomata.Proofs.Value.Comparable

/-!
# Equal collections

Equal values hold equal items, in whatever order and form they have them (`items?_congr`): sets may
list their members differently, and a set equals a frozen one. So whether an item is found in a
collection does not depend on which of several equal values is asked (`holds?_congr`).
-/

namespace EpsilonAutomata

/-- Every item of either list equals one of the other. -/
def SameMembers (xs ys : List Value) : Prop :=
  ∀ b, (∃ a ∈ xs, (a == b) = true) ↔ ∃ a ∈ ys, (a == b) = true

namespace SameMembers

variable {xs ys : List Value}

theorem symm (h : SameMembers xs ys) : SameMembers ys xs :=
  fun b => (h b).symm

theorem exists_of_mem (h : SameMembers xs ys) {a : Value} (ha : a ∈ xs) :
    ∃ b ∈ ys, (a == b) = true := by
  obtain ⟨b, hb, hba⟩ := (h a).mp ⟨a, ha, BEq.rfl⟩
  exact ⟨b, hb, BEq.symm hba⟩

theorem ofList (h : SameMembers xs ys) :
    ((OrderedSet.ofList xs : ValueSet) == .ofList ys) = true := by
  rw [OrderedSet.beq_iff]
  intro b
  rw [OrderedSet.mem_ofList, OrderedSet.mem_ofList]
  exact h b

theorem any_congr (h : SameMembers xs ys) {p q : Value → Bool}
    (hpq : ∀ a b, (a == b) = true → p a = q b) : xs.any p = ys.any q := by
  rw [Bool.eq_iff_iff, List.any_eq_true, List.any_eq_true]
  constructor
  · rintro ⟨a, ha, hp⟩
    obtain ⟨b, hb, hab⟩ := h.exists_of_mem ha
    exact ⟨b, hb, hpq a b hab ▸ hp⟩
  · rintro ⟨b, hb, hq⟩
    obtain ⟨a, ha, hba⟩ := h.symm.exists_of_mem hb
    exact ⟨a, ha, (hpq a b (BEq.symm hba)).symm ▸ hq⟩

theorem of_within (hxs : Value.within xs ys = true) (hys : Value.within ys xs = true) :
    SameMembers xs ys := by
  simp only [Value.within_eq_all, List.all_eq_true, List.any_eq_true] at hxs hys
  intro b
  constructor
  · rintro ⟨x, hx, hxb⟩
    obtain ⟨y, hy, hxy⟩ := hxs x hx
    exact ⟨y, hy, BEq.trans (BEq.symm hxy) hxb⟩
  · rintro ⟨y, hy, hyb⟩
    obtain ⟨x, hx, hyx⟩ := hys y hy
    exact ⟨x, hx, BEq.trans (BEq.symm hyx) hyb⟩

theorem of_beq (h : (xs == ys) = true) : SameMembers xs ys := by
  induction xs generalizing ys with
  | nil =>
    cases ys with
    | nil => exact fun _ => Iff.rfl
    | cons y ys => cases h
  | cons x xs ih =>
    cases ys with
    | nil => cases h
    | cons y ys =>
      obtain ⟨hxy, hrest⟩ := Lists.beq_cons.mp h
      intro b
      have hhead : (x == b) = true ↔ (y == b) = true :=
        ⟨BEq.trans (BEq.symm hxy), BEq.trans hxy⟩
      simp only [List.mem_cons, exists_eq_or_imp, hhead, ih hrest b]

end SameMembers

namespace Value

variable {a a' b b' : Value} {xs ys : List Value}

theorem sameItems_iff_beq : sameItems xs ys = true ↔ (xs == ys) = true := by
  induction xs generalizing ys with
  | nil => cases ys <;> simp [sameItems]
  | cons x xs ih =>
    cases ys with
    | nil => simp [sameItems]
    | cons y ys => rw [sameItems, Bool.and_eq_true, ih, Lists.beq_cons, beq_def]

theorem tuple_beq_iff : (tuple xs == tuple ys) = true ↔ (xs == ys) = true := by
  rw [beq_def, same, sameItems_iff_beq]

theorem list_beq_iff : (list xs == list ys) = true ↔ (xs == ys) = true := by
  rw [beq_def, same, sameItems_iff_beq]

theorem eq_text_of_beq {s : String} (h : (text s == a) = true) : a = text s := by
  have hscalar := scalar?_congr h
  cases a <;> simp_all [scalar?]

theorem sameMembers_keys {es fs : List (Value × Value)} (h : (mapping es == mapping fs) = true) :
    SameMembers (es.map (·.1)) (fs.map (·.1)) := by
  have hsub {es fs : List (Value × Value)} (h : (mapping es == mapping fs) = true) :
      within (es.map (·.1)) (fs.map (·.1)) = true := by
    rw [beq_def, same, Bool.and_eq_true, entriesWithin_eq_all, List.all_eq_true] at h
    simp only [within_eq_all, List.all_map, List.any_map, List.all_eq_true]
    intro d hd
    obtain ⟨e, he, hde⟩ := List.any_eq_true.mp (h.1 d hd)
    rw [Bool.and_eq_true] at hde
    exact List.any_eq_true.mpr ⟨e, he, hde.1⟩
  exact .of_within (hsub h) (hsub (BEq.symm h))

theorem items?_congr (h : (a == a') = true) :
    (a.items? = none ∧ a'.items? = none) ∨
      ∃ xs ys, a.items? = some xs ∧ a'.items? = some ys ∧ SameMembers xs ys := by
  cases a with
  | null | bool _ | int _ | double _ | epsilon | marker _ _ =>
    have hscalar := scalar?_congr h
    refine .inl ⟨rfl, ?_⟩
    cases a' <;> simp_all [scalar?, items?]
  | text s =>
    obtain rfl := eq_text_of_beq h
    exact .inr ⟨_, _, rfl, rfl, fun _ => Iff.rfl⟩
  | tuple xs | list xs =>
    obtain ⟨ys, hys, hsame⟩ := (same_iff_of_sequence rfl a').mp h
    refine .inr ⟨xs, ys, rfl, ?_, .of_beq (sameItems_iff_beq.mp hsame)⟩
    rcases eq_of_sequence hys with ⟨rfl, -⟩ | ⟨rfl, -⟩ <;> rfl
  | set xs | frozenSet xs =>
    obtain ⟨ys, hys, hxs, hys'⟩ := (same_iff_of_members rfl a').mp h
    refine .inr ⟨xs, ys, rfl, ?_, .of_within hxs hys'⟩
    cases a' <;> simp_all [members?, items?]
  | mapping es =>
    cases a' with
    | mapping fs => exact .inr ⟨_, _, rfl, rfl, sameMembers_keys h⟩
    | _ => simp [beq_def, same, sameScalar, scalar?] at h

theorem holds?_of_not_text (h : ∀ s, a ≠ text s) (b : Value) :
    a.holds? b = a.items?.map fun xs => xs.any (· == b) := by
  unfold holds?
  split
  · next s t => exact absurd rfl (h s)
  · next s hs => exact absurd rfl (h s)
  · rfl

theorem holds?_of_members {xs : List Value} (h : a.members? = some xs) (b : Value) :
    a.holds? b = some (xs.any (· == b)) := by
  cases a with
  | set ys | frozenSet ys =>
    obtain rfl := Option.some.inj h
    rfl
  | _ => cases h

theorem holds?_congr (ha : (a == a') = true) (hb : (b == b') = true) :
    a.holds? b = a'.holds? b' := by
  by_cases htext : ∃ s, a = text s
  · obtain ⟨s, rfl⟩ := htext
    obtain rfl := eq_text_of_beq ha
    by_cases hpart : ∃ t, b = text t
    · obtain ⟨t, rfl⟩ := hpart
      obtain rfl := eq_text_of_beq hb
      rfl
    · have hpart' : ¬ ∃ t, b' = text t := by
        rintro ⟨t, rfl⟩
        exact hpart ⟨t, eq_text_of_beq (BEq.symm hb)⟩
      cases b <;> cases b' <;> simp_all [holds?]
  · have hnot : ∀ s, a ≠ text s := fun s hs => htext ⟨s, hs⟩
    have hnot' : ∀ s, a' ≠ text s := by
      rintro s rfl
      exact hnot s (eq_text_of_beq (BEq.symm ha))
    rw [holds?_of_not_text hnot, holds?_of_not_text hnot']
    rcases items?_congr ha with ⟨hnone, hnone'⟩ | ⟨xs, ys, hxs, hys, hsame⟩
    · rw [hnone, hnone']
      rfl
    · rw [hxs, hys, Option.map_some, Option.map_some]
      exact congrArg some (hsame.any_congr fun c d hcd => same_congr hcd hb)

end Value

end EpsilonAutomata
