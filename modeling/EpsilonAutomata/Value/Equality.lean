import EpsilonAutomata.Value.Basic

/-!
# Equality of values is an equivalence

Main statement: the instance `EquivBEq Value`. The list forms of the recursive tests come first,
then reflexivity, symmetry and transitivity, each by induction on the size of the value.
-/

namespace EpsilonAutomata.Value

/-! ## The tests on lists -/

theorem within_eq_all (xs ys : List Value) :
    within xs ys = xs.all fun x => ys.any (same x) := by
  induction xs with
  | nil => simp [within]
  | cons x xs ih => simp [within, ih]

theorem among_eq_any (xs : List Value) (y : Value) : among xs y = xs.any fun x => same x y := by
  induction xs with
  | nil => simp [among]
  | cons x xs ih => simp [among, ih]

theorem entriesWithin_eq_all (xs ys : List (Value × Value)) :
    entriesWithin xs ys = xs.all fun d => ys.any fun e => same d.1 e.1 && same d.2 e.2 := by
  induction xs with
  | nil => simp [entriesWithin]
  | cons d xs ih => obtain ⟨k, v⟩ := d; simp [entriesWithin, ih]

theorem entryAmong_eq_any (xs : List (Value × Value)) (e : Value × Value) :
    entryAmong xs e = xs.any fun d => same d.1 e.1 && same d.2 e.2 := by
  induction xs with
  | nil => simp [entryAmong]
  | cons d xs ih => obtain ⟨k, v⟩ := d; simp [entryAmong, ih]

/-! ## Reflexivity -/

theorem sameItems_refl {xs : List Value} (h : ∀ x ∈ xs, same x x = true) :
    sameItems xs xs = true := by
  induction xs with
  | nil => simp [sameItems]
  | cons x xs ih =>
    simp only [sameItems, Bool.and_eq_true]
    exact ⟨h x (by simp), ih fun y hy => h y (by simp [hy])⟩

theorem coverEachOther_refl {xs : List Value} (h : ∀ x ∈ xs, same x x = true) :
    (within xs xs && xs.all (among xs)) = true := by
  simp only [within_eq_all, among_eq_any, Bool.and_eq_true, List.all_eq_true, List.any_eq_true]
  exact ⟨fun x hx => ⟨x, hx, h x hx⟩, fun x hx => ⟨x, hx, h x hx⟩⟩

theorem same_refl (a : Value) : same a a = true := by
  match a with
  | null | bool _ | int _ | double _ | text _ | epsilon | marker _ _ =>
    simp [same, sameScalar, scalar?]
  | tuple xs | list xs =>
    simp only [same]
    exact sameItems_refl fun x hx => same_refl x
  | set xs | frozenSet xs =>
    simp only [same, members?, Option.any_some]
    exact coverEachOther_refl fun x hx => same_refl x
  | mapping xs =>
    have h : ∀ d ∈ xs, (same d.1 d.1 && same d.2 d.2) = true := fun d hd => by
      simp [same_refl d.1, same_refl d.2]
    simp only [same, entriesWithin_eq_all, entryAmong_eq_any, Bool.and_eq_true, List.all_eq_true,
      List.any_eq_true]
    exact ⟨fun d hd => ⟨d, hd, by simpa using h d hd⟩, fun d hd => ⟨d, hd, by simpa using h d hd⟩⟩
termination_by sizeOf a
decreasing_by
  all_goals simp_wf
  all_goals try exact Nat.lt_trans (List.sizeOf_lt_of_mem hx) (by omega)
  all_goals
    have := List.sizeOf_lt_of_mem hd
    rcases d with ⟨k, v⟩
    simp only [Prod.mk.sizeOf_spec] at *
    omega

/-! ## Symmetry -/

theorem sameItems_comm {xs : List Value} (h : ∀ x ∈ xs, ∀ y, same x y = same y x)
    (ys : List Value) : sameItems xs ys = sameItems ys xs := by
  induction xs generalizing ys with
  | nil => cases ys <;> simp [sameItems]
  | cons x xs ih =>
    cases ys with
    | nil => simp [sameItems]
    | cons y ys =>
      simp only [sameItems]
      rw [h x (by simp) y, ih (fun z hz => h z (by simp [hz])) ys]

theorem coverEachOther_comm {xs : List Value} (h : ∀ x ∈ xs, ∀ y, same x y = same y x)
    (ys : List Value) :
    (within xs ys && ys.all (among xs)) = (within ys xs && xs.all (among ys)) := by
  rw [Bool.eq_iff_iff]
  simp only [within_eq_all, among_eq_any, Bool.and_eq_true, List.all_eq_true, List.any_eq_true]
  constructor
  · rintro ⟨h₁, h₂⟩
    refine ⟨fun y hy => ?_, fun x hx => ?_⟩
    · obtain ⟨x, hx, hxy⟩ := h₂ y hy
      exact ⟨x, hx, h x hx y ▸ hxy⟩
    · obtain ⟨y, hy, hxy⟩ := h₁ x hx
      exact ⟨y, hy, h x hx y ▸ hxy⟩
  · rintro ⟨h₁, h₂⟩
    refine ⟨fun x hx => ?_, fun y hy => ?_⟩
    · obtain ⟨y, hy, hyx⟩ := h₂ x hx
      exact ⟨y, hy, (h x hx y).symm ▸ hyx⟩
    · obtain ⟨x, hx, hyx⟩ := h₁ y hy
      exact ⟨x, hx, (h x hx y).symm ▸ hyx⟩

theorem entriesCoverEachOther_comm {xs : List (Value × Value)}
    (h : ∀ d ∈ xs, ∀ y, same d.1 y = same y d.1 ∧ same d.2 y = same y d.2)
    (ys : List (Value × Value)) :
    (entriesWithin xs ys && ys.all (entryAmong xs)) =
      (entriesWithin ys xs && xs.all (entryAmong ys)) := by
  rw [Bool.eq_iff_iff]
  simp only [entriesWithin_eq_all, entryAmong_eq_any, Bool.and_eq_true, List.all_eq_true,
    List.any_eq_true]
  constructor
  · rintro ⟨h₁, h₂⟩
    refine ⟨fun e he => ?_, fun d hd => ?_⟩
    · obtain ⟨d, hd, hk, hv⟩ := h₂ e he
      exact ⟨d, hd, (h d hd e.1).1 ▸ hk, (h d hd e.2).2 ▸ hv⟩
    · obtain ⟨e, he, hk, hv⟩ := h₁ d hd
      exact ⟨e, he, (h d hd e.1).1 ▸ hk, (h d hd e.2).2 ▸ hv⟩
  · rintro ⟨h₁, h₂⟩
    refine ⟨fun d hd => ?_, fun e he => ?_⟩
    · obtain ⟨e, he, hk, hv⟩ := h₂ d hd
      exact ⟨e, he, (h d hd e.1).1.symm ▸ hk, (h d hd e.2).2.symm ▸ hv⟩
    · obtain ⟨d, hd, hk, hv⟩ := h₁ e he
      exact ⟨d, hd, (h d hd e.1).1.symm ▸ hk, (h d hd e.2).2.symm ▸ hv⟩

theorem sameScalar_comm (a b : Value) : sameScalar a b = sameScalar b a := by
  unfold sameScalar
  cases a.scalar? <;> cases b.scalar? <;> simp [eq_comm]

theorem same_eq_sameScalar {a : Value} {x : Scalar} (h : a.scalar? = some x) (b : Value) :
    same a b = sameScalar a b := by
  cases a <;> simp only [scalar?, reduceCtorEq] at h <;> cases b <;>
    simp [same, sameScalar, scalar?, Quantity.ofInt_inj]
  rfl

theorem same_eq_sameScalar_right {b : Value} {x : Scalar} (h : b.scalar? = some x) (a : Value) :
    same a b = sameScalar a b := by
  cases b <;> simp only [scalar?, reduceCtorEq] at h <;> cases a <;>
    simp [same, sameScalar, scalar?, members?, Quantity.ofInt_inj]
  rfl

theorem same_comm (a b : Value) : same a b = same b a := by
  match a with
  | null | bool _ | int _ | double _ | text _ | epsilon | marker _ _ =>
    rw [same_eq_sameScalar rfl, same_eq_sameScalar_right rfl, sameScalar_comm]
  | tuple xs =>
    cases b with
    | tuple ys => simpa only [same] using sameItems_comm (fun x hx y => same_comm x y) ys
    | _ => simp [same, sameScalar, scalar?, members?]
  | list xs =>
    cases b with
    | list ys => simpa only [same] using sameItems_comm (fun x hx y => same_comm x y) ys
    | _ => simp [same, sameScalar, scalar?, members?]
  | set xs | frozenSet xs =>
    cases b with
    | set ys | frozenSet ys =>
      simpa only [same, members?, Option.any_some] using
        coverEachOther_comm (fun x hx y => same_comm x y) ys
    | _ => simp [same, sameScalar, scalar?, members?]
  | mapping xs =>
    cases b with
    | mapping ys =>
      simpa only [same] using
        entriesCoverEachOther_comm (fun d hd y => ⟨same_comm d.1 y, same_comm d.2 y⟩) ys
    | _ => simp [same, sameScalar, scalar?, members?]
termination_by sizeOf a
decreasing_by
  all_goals simp_wf
  all_goals try exact Nat.lt_trans (List.sizeOf_lt_of_mem hx) (by omega)
  all_goals
    have := List.sizeOf_lt_of_mem hd
    rcases d with ⟨k, v⟩
    simp only [Prod.mk.sizeOf_spec] at *
    omega

/-! ## Transitivity -/

/-- A value without parts equals exactly the values that stand for the same thing. -/
theorem same_iff_scalar? {a : Value} {x : Scalar} (h : a.scalar? = some x) (b : Value) :
    same a b = true ↔ b.scalar? = some x := by
  rw [same_eq_sameScalar h, sameScalar, h]
  cases b.scalar? <;> simp [eq_comm]

theorem sameItems_trans {xs : List Value}
    (h : ∀ x ∈ xs, ∀ y z, same x y = true → same y z = true → same x z = true) :
    ∀ {ys zs : List Value}, sameItems xs ys = true → sameItems ys zs = true →
      sameItems xs zs = true := by
  induction xs with
  | nil =>
    intro ys zs h₁ h₂
    cases ys with
    | nil => exact h₂
    | cons y ys => simp [sameItems] at h₁
  | cons x xs ih =>
    intro ys zs h₁ h₂
    cases ys with
    | nil => simp [sameItems] at h₁
    | cons y ys =>
      cases zs with
      | nil => simp [sameItems] at h₂
      | cons z zs =>
        simp only [sameItems, Bool.and_eq_true] at h₁ h₂ ⊢
        exact ⟨h x (by simp) y z h₁.1 h₂.1,
          ih (fun w hw => h w (by simp [hw])) h₁.2 h₂.2⟩

theorem coverEachOther_trans {xs : List Value}
    (h : ∀ x ∈ xs, ∀ y z, same x y = true → same y z = true → same x z = true)
    {ys zs : List Value} (h₁ : (within xs ys && ys.all (among xs)) = true)
    (h₂ : (within ys zs && zs.all (among ys)) = true) :
    (within xs zs && zs.all (among xs)) = true := by
  simp only [within_eq_all, among_eq_any, Bool.and_eq_true, List.all_eq_true,
    List.any_eq_true] at h₁ h₂ ⊢
  refine ⟨fun x hx => ?_, fun z hz => ?_⟩
  · obtain ⟨y, hy, hxy⟩ := h₁.1 x hx
    obtain ⟨z, hz, hyz⟩ := h₂.1 y hy
    exact ⟨z, hz, h x hx y z hxy hyz⟩
  · obtain ⟨y, hy, hyz⟩ := h₂.2 z hz
    obtain ⟨x, hx, hxy⟩ := h₁.2 y hy
    exact ⟨x, hx, h x hx y z hxy hyz⟩

theorem entriesCoverEachOther_trans {xs : List (Value × Value)}
    (h : ∀ d ∈ xs, (∀ y z, same d.1 y = true → same y z = true → same d.1 z = true) ∧
      ∀ y z, same d.2 y = true → same y z = true → same d.2 z = true)
    {ys zs : List (Value × Value)}
    (h₁ : (entriesWithin xs ys && ys.all (entryAmong xs)) = true)
    (h₂ : (entriesWithin ys zs && zs.all (entryAmong ys)) = true) :
    (entriesWithin xs zs && zs.all (entryAmong xs)) = true := by
  simp only [entriesWithin_eq_all, entryAmong_eq_any, Bool.and_eq_true, List.all_eq_true,
    List.any_eq_true] at h₁ h₂ ⊢
  refine ⟨fun d hd => ?_, fun f hf => ?_⟩
  · obtain ⟨e, he, hde⟩ := h₁.1 d hd
    obtain ⟨f, hf, hef⟩ := h₂.1 e he
    exact ⟨f, hf, (h d hd).1 _ _ hde.1 hef.1, (h d hd).2 _ _ hde.2 hef.2⟩
  · obtain ⟨e, he, hef⟩ := h₂.2 f hf
    obtain ⟨d, hd, hde⟩ := h₁.2 e he
    exact ⟨d, hd, (h d hd).1 _ _ hde.1 hef.1, (h d hd).2 _ _ hde.2 hef.2⟩

theorem same_trans (a b c : Value) (hab : same a b = true) (hbc : same b c = true) :
    same a c = true := by
  match a with
  | null | bool _ | int _ | double _ | text _ | epsilon | marker _ _ =>
    have hb := (same_iff_scalar? rfl b).1 hab
    exact (same_iff_scalar? rfl c).2 ((same_iff_scalar? hb c).1 hbc)
  | tuple xs =>
    cases b <;> simp [same, sameScalar, scalar?] at hab
    cases c <;> simp [same, sameScalar, scalar?] at hbc ⊢
    exact sameItems_trans (fun x hx y z => same_trans x y z) hab hbc
  | list xs =>
    cases b <;> simp [same, sameScalar, scalar?] at hab
    cases c <;> simp [same, sameScalar, scalar?] at hbc ⊢
    exact sameItems_trans (fun x hx y z => same_trans x y z) hab hbc
  | set xs | frozenSet xs =>
    simp only [same, Option.any_eq_true] at hab ⊢
    obtain ⟨ys, hys, h₁⟩ := hab
    cases b <;> simp only [members?, Option.some.injEq, reduceCtorEq] at hys <;> subst hys
    all_goals
      simp only [same, Option.any_eq_true] at hbc
      obtain ⟨zs, hzs, h₂⟩ := hbc
      exact ⟨zs, hzs, coverEachOther_trans (fun x hx y z => same_trans x y z) h₁ h₂⟩
  | mapping xs =>
    cases b <;> simp only [same, sameScalar, scalar?, reduceCtorEq] at hab
    cases c <;> simp only [same, sameScalar, scalar?, reduceCtorEq] at hbc ⊢
    exact entriesCoverEachOther_trans
      (fun d hd => ⟨fun y z => same_trans d.1 y z, fun y z => same_trans d.2 y z⟩) hab hbc
termination_by sizeOf a
decreasing_by
  all_goals simp_wf
  all_goals try exact Nat.lt_trans (List.sizeOf_lt_of_mem hx) (by omega)
  all_goals
    have := List.sizeOf_lt_of_mem hd
    rcases d with ⟨k, v⟩
    simp only [Prod.mk.sizeOf_spec] at *
    omega

instance : EquivBEq Value where
  rfl := same_refl _
  symm {a b} h := (same_comm b a).trans h
  trans {a b c} h₁ h₂ := same_trans a b c h₁ h₂

/-! ## Values that stand for the empty move -/

theorem beq_def (a b : Value) : (a == b) = same a b := rfl

theorem eq_epsilon_of_isEpsilon {a : Value} (h : a.isEpsilon = true) : a = epsilon := by
  cases a <;> simp [isEpsilon] at h ⊢

theorem beq_epsilon (a : Value) : (a == epsilon) = a.isEpsilon := by
  rw [beq_def]
  cases a <;> simp [same, sameScalar, scalar?, isEpsilon, members?]

end EpsilonAutomata.Value
