import Mathlib.Data.List.Pairwise
import EpsilonAutomata.Value.Checked

/-!
# Which values can be compared

How two values compare is the same for equal values (`lt?_congr`), and whether they can be compared
does not depend on their order (`isSome_lt?_comm`). A set can be sorted exactly when every two of its
members can be compared (`ValueSet.Comparable`), and it is so if its members equal some of a list that
can be sorted (`comparable_of_mem`), whatever order and form they have in either.
-/

namespace EpsilonAutomata

/-- The order of two things without parts, which are compared if both are numbers or both are text. -/
def Scalar.lt? : Scalar → Scalar → Option Bool
  | .number p, .number q => some (p.lt q)
  | .text s, .text t => some (decide (s < t))
  | _, _ => none

namespace Value

/-! ## Values without parts -/

theorem lt?_of_scalar {a b : Value} {x y : Scalar} (ha : a.scalar? = some x)
    (hb : b.scalar? = some y) : lt? a b = x.lt? y := by
  cases a <;> simp only [scalar?, Option.some.injEq, reduceCtorEq] at ha <;> subst ha <;>
    cases b <;> simp only [scalar?, Option.some.injEq, reduceCtorEq] at hb <;> subst hb <;>
    simp [lt?, ltNumbers?, quantity?, scalar?, Scalar.lt?]

theorem lt?_eq_none_of_scalar {a b : Value} {x : Scalar} (ha : a.scalar? = some x)
    (hb : b.scalar? = none) : lt? a b = none ∧ lt? b a = none := by
  cases a <;> simp only [scalar?, reduceCtorEq] at ha <;>
    cases b <;> simp only [scalar?, reduceCtorEq] at hb <;>
    simp [lt?, ltNumbers?, quantity?, scalar?, members?]

theorem scalar?_congr {a b : Value} (h : same a b = true) : a.scalar? = b.scalar? := by
  cases ha : a.scalar? with
  | some x => exact ((same_iff_scalar? ha b).mp h).symm
  | none =>
    cases hb : b.scalar? with
    | none => rfl
    | some y =>
      rw [same_comm] at h
      rw [(same_iff_scalar? hb a).mp h] at ha
      cases ha

theorem lt?_congr_scalar {a b a' b' : Value} {x : Scalar} (hx : a.scalar? = some x)
    (ha : same a a' = true) (hb : same b b' = true) : lt? a b = lt? a' b' := by
  have hx' : a'.scalar? = some x := by rw [← scalar?_congr ha, hx]
  cases hy : b.scalar? with
  | some y =>
    have hy' : b'.scalar? = some y := by rw [← scalar?_congr hb, hy]
    rw [lt?_of_scalar hx hy, lt?_of_scalar hx' hy']
  | none =>
    have hy' : b'.scalar? = none := by rw [← scalar?_congr hb, hy]
    rw [(lt?_eq_none_of_scalar hx hy).1, (lt?_eq_none_of_scalar hx' hy').1]

theorem isSome_lt?_comm_scalar {a b : Value} {x : Scalar} (hx : a.scalar? = some x) :
    (lt? a b).isSome = (lt? b a).isSome := by
  cases hy : b.scalar? with
  | some y =>
    rw [lt?_of_scalar hx hy, lt?_of_scalar hy hx]
    cases x <;> cases y <;> rfl
  | none => rw [(lt?_eq_none_of_scalar hx hy).1, (lt?_eq_none_of_scalar hx hy).2]

/-! ## Lists of values -/

theorem same_congr {a b a' b' : Value} (ha : same a a' = true) (hb : same b b' = true) :
    same a b = same a' b' := by
  rw [Bool.eq_iff_iff]
  constructor
  · intro h
    exact same_trans _ _ _ (same_trans _ _ _ (same_comm a a' ▸ ha) h) hb
  · intro h
    exact same_trans _ _ _ (same_trans _ _ _ ha h) (same_comm b b' ▸ hb)

theorem ltItems?_congr {xs xs' ys ys' : List Value}
    (h : ∀ x ∈ xs, ∀ x' y y', same x x' = true → same y y' = true → lt? x y = lt? x' y')
    (hxs : sameItems xs xs' = true) (hys : sameItems ys ys' = true) :
    ltItems? xs ys = ltItems? xs' ys' := by
  induction xs generalizing xs' ys ys' with
  | nil =>
    cases xs' with
    | nil => cases ys <;> cases ys' <;> simp_all [sameItems, ltItems?]
    | cons x' xs' => simp [sameItems] at hxs
  | cons x xs ih =>
    cases xs' with
    | nil => simp [sameItems] at hxs
    | cons x' xs' =>
      cases ys with
      | nil =>
        cases ys' with
        | nil => simp [ltItems?]
        | cons y' ys' => simp [sameItems] at hys
      | cons y ys =>
        cases ys' with
        | nil => simp [sameItems] at hys
        | cons y' ys' =>
          simp only [sameItems, Bool.and_eq_true] at hxs hys
          simp only [ltItems?, same_congr hxs.1 hys.1]
          split
          · exact ih (fun z hz => h z (by simp [hz])) hxs.2 hys.2
          · exact h x (by simp) x' y y' hxs.1 hys.1

theorem isSome_ltItems?_comm {xs ys : List Value}
    (h : ∀ x ∈ xs, ∀ y, (lt? x y).isSome = (lt? y x).isSome) :
    (ltItems? xs ys).isSome = (ltItems? ys xs).isSome := by
  induction xs generalizing ys with
  | nil => cases ys <;> simp [ltItems?]
  | cons x xs ih =>
    cases ys with
    | nil => simp [ltItems?]
    | cons y ys =>
      simp only [ltItems?, same_comm y x]
      split
      · exact ih fun z hz => h z (by simp [hz])
      · exact h x (by simp) y

/-! ## Tuples, lists and sets -/

/-- The items of a tuple or a list, and which of the two it is. -/
def sequence? : Value → Option (Bool × List Value)
  | tuple xs => some (true, xs)
  | list xs => some (false, xs)
  | _ => none

variable {a b a' b' : Value} {k : Bool} {xs ys : List Value}

theorem eq_of_sequence (ha : a.sequence? = some (k, xs)) :
    a = tuple xs ∧ k = true ∨ a = list xs ∧ k = false := by
  cases a <;> simp_all [sequence?]

theorem same_iff_of_sequence (ha : a.sequence? = some (k, xs)) (b : Value) :
    same a b = true ↔ ∃ ys, b.sequence? = some (k, ys) ∧ sameItems xs ys = true := by
  rcases eq_of_sequence ha with ⟨rfl, rfl⟩ | ⟨rfl, rfl⟩ <;>
    cases b <;> simp [same, sameScalar, scalar?, sequence?]

theorem lt?_of_sequence (ha : a.sequence? = some (k, xs)) (hb : b.sequence? = some (k, ys)) :
    lt? a b = ltItems? xs ys := by
  rcases eq_of_sequence ha with ⟨rfl, rfl⟩ | ⟨rfl, rfl⟩ <;>
    rcases eq_of_sequence hb with ⟨rfl, hk⟩ | ⟨rfl, hk⟩ <;> simp_all [lt?]

theorem lt?_eq_none_of_sequence (ha : a.sequence? = some (k, xs))
    (hb : ¬ ∃ ys, b.sequence? = some (k, ys)) : lt? a b = none ∧ lt? b a = none := by
  rcases eq_of_sequence ha with ⟨rfl, rfl⟩ | ⟨rfl, rfl⟩ <;>
    cases b <;> simp_all [sequence?, lt?, ltNumbers?, quantity?, scalar?, members?]

theorem lt?_congr_sequence (hx : a.sequence? = some (k, xs))
    (h : ∀ x ∈ xs, ∀ x' y y', same x x' = true → same y y' = true → lt? x y = lt? x' y')
    (ha : same a a' = true) (hb : same b b' = true) : lt? a b = lt? a' b' := by
  obtain ⟨xs', hx', hxs⟩ := (same_iff_of_sequence hx a').mp ha
  by_cases hy : ∃ ys, b.sequence? = some (k, ys)
  · obtain ⟨ys, hy⟩ := hy
    obtain ⟨ys', hy', hys⟩ := (same_iff_of_sequence hy b').mp hb
    rw [lt?_of_sequence hx hy, lt?_of_sequence hx' hy']
    exact ltItems?_congr h hxs hys
  · have hy' : ¬ ∃ ys', b'.sequence? = some (k, ys') := by
      intro h'
      obtain ⟨ys', hy'⟩ := h'
      rw [same_comm] at hb
      obtain ⟨ys, hys, -⟩ := (same_iff_of_sequence hy' b).mp hb
      exact hy ⟨ys, hys⟩
    rw [(lt?_eq_none_of_sequence hx hy).1, (lt?_eq_none_of_sequence hx' hy').1]

theorem isSome_lt?_comm_sequence (hx : a.sequence? = some (k, xs))
    (h : ∀ x ∈ xs, ∀ y, (lt? x y).isSome = (lt? y x).isSome) (b : Value) :
    (lt? a b).isSome = (lt? b a).isSome := by
  by_cases hy : ∃ ys, b.sequence? = some (k, ys)
  · obtain ⟨ys, hy⟩ := hy
    rw [lt?_of_sequence hx hy, lt?_of_sequence hy hx]
    exact isSome_ltItems?_comm h
  · rw [(lt?_eq_none_of_sequence hx hy).1, (lt?_eq_none_of_sequence hx hy).2]

theorem members?_eq_none_congr (h : (a == b) = true) : a.members? = none ↔ b.members? = none := by
  rw [beq_def] at h
  cases a <;> cases b <;> simp_all [same, sameScalar, scalar?, members?]

theorem members?_eq_none (h : ∀ xs, (a == frozenSet xs) = false) : a.members? = none := by
  cases a with
  | set xs =>
    have hsame : (set xs == frozenSet xs) = true := by
      rw [beq_def]
      simp only [same, members?, Option.any_some]
      exact coverEachOther_refl fun x _ => same_refl x
    rw [h xs] at hsame
    cases hsame
  | frozenSet xs =>
    have hsame : (frozenSet xs == frozenSet xs) = true := BEq.rfl
    rw [h xs] at hsame
    cases hsame
  | _ => rfl

theorem all_among_eq_within (xs ys : List Value) : ys.all (among xs) = within ys xs := by
  have hamong (y : Value) : among xs y = xs.any (same y) := by
    rw [among_eq_any]
    exact congrArg xs.any (funext fun x => same_comm x y)
  rw [within_eq_all, funext hamong]

theorem lt?_of_members (ha : a.members? = some xs) (b : Value) :
    lt? a b = b.members?.map fun ys => within xs ys && !within ys xs := by
  cases a <;> simp_all [members?, lt?, all_among_eq_within]

theorem same_iff_of_members (ha : a.members? = some xs) (b : Value) :
    same a b = true ↔ ∃ ys, b.members? = some ys ∧ within xs ys = true ∧ within ys xs = true := by
  cases a <;> simp only [members?, Option.some.injEq, reduceCtorEq] at ha <;> subst ha <;>
    simp only [same, all_among_eq_within, Option.any_eq_true, Bool.and_eq_true]

theorem within_trans {zs : List Value} (h₁ : within xs ys = true) (h₂ : within ys zs = true) :
    within xs zs = true := by
  simp only [within_eq_all, List.all_eq_true, List.any_eq_true] at h₁ h₂ ⊢
  intro x hx
  obtain ⟨y, hy, hxy⟩ := h₁ x hx
  obtain ⟨z, hz, hyz⟩ := h₂ y hy
  exact ⟨z, hz, same_trans x y z hxy hyz⟩

theorem lt?_congr_members (hx : a.members? = some xs) (ha : same a a' = true)
    (hb : same b b' = true) : lt? a b = lt? a' b' := by
  obtain ⟨xs', hx', hxx, hxx'⟩ := (same_iff_of_members hx a').mp ha
  rw [lt?_of_members hx, lt?_of_members hx']
  cases hy : b.members? with
  | none =>
    have hy' : b'.members? = none := (members?_eq_none_congr hb).mp hy
    rw [hy']
    rfl
  | some ys =>
    obtain ⟨ys', hy', hyy, hyy'⟩ := (same_iff_of_members hy b').mp hb
    have hforth : within xs ys = within xs' ys' := Bool.eq_iff_iff.mpr
      ⟨fun h => within_trans hxx' (within_trans h hyy),
        fun h => within_trans hxx (within_trans h hyy')⟩
    have hback : within ys xs = within ys' xs' := Bool.eq_iff_iff.mpr
      ⟨fun h => within_trans hyy' (within_trans h hxx),
        fun h => within_trans hyy (within_trans h hxx')⟩
    rw [hy', Option.map_some, Option.map_some, hforth, hback]

/-! ## All values -/

theorem lt?_congr (a b a' b' : Value) (ha : same a a' = true) (hb : same b b' = true) :
    lt? a b = lt? a' b' := by
  match a with
  | null | bool _ | int _ | double _ | text _ | epsilon | marker _ _ =>
    exact lt?_congr_scalar rfl ha hb
  | tuple xs | list xs =>
    exact lt?_congr_sequence rfl (fun x hx x' y y' => lt?_congr x y x' y') ha hb
  | set xs | frozenSet xs => exact lt?_congr_members rfl ha hb
  | mapping xs =>
    cases a' <;> simp [same, sameScalar, scalar?] at ha
    simp [lt?, ltNumbers?, quantity?, scalar?]
termination_by sizeOf a
decreasing_by
  all_goals simp_wf
  all_goals exact Nat.lt_trans (List.sizeOf_lt_of_mem hx) (by omega)

theorem isSome_lt?_comm (a b : Value) : (lt? a b).isSome = (lt? b a).isSome := by
  match a with
  | null | bool _ | int _ | double _ | text _ | epsilon | marker _ _ =>
    exact isSome_lt?_comm_scalar rfl
  | tuple xs | list xs =>
    exact isSome_lt?_comm_sequence rfl (fun x hx y => isSome_lt?_comm x y) b
  | set xs | frozenSet xs =>
    cases b <;> simp [lt?, ltNumbers?, quantity?, scalar?, members?]
  | mapping xs =>
    cases b <;> simp [lt?, ltNumbers?, quantity?, scalar?, members?]
termination_by sizeOf a
decreasing_by
  all_goals simp_wf
  all_goals exact Nat.lt_trans (List.sizeOf_lt_of_mem hx) (by omega)

end Value

/-! ## Sorting -/

namespace Sorting

variable {α : Type} {lt : α → α → Option Bool} {xs ys : List α}

theorem perm_of_sorted (h : sorted lt xs = .ok ys) : ys.Perm xs := by
  unfold sorted at h
  split at h
  · next zs hzs =>
    obtain rfl := Except.ok.inj h
    exact perm_of_sort? hzs
  · cases h

theorem sorted_eq_ok (h : xs.Pairwise fun a b => (lt a b).isSome = true) :
    ∃ ys, sorted lt xs = .ok ys := by
  obtain ⟨ys, hys⟩ := Option.isSome_iff_exists.mp ((sort?_isSome_iff lt xs).mpr h)
  exact ⟨ys, by rw [sorted, hys]⟩

theorem sorted_eq_error (h : ¬ xs.Pairwise fun a b => (lt a b).isSome = true) :
    sorted lt xs = .error .incomparable := by
  have hnone : sort? lt xs = none := by
    rw [← Option.not_isSome_iff_eq_none, sort?_isSome_iff]
    exact h
  rw [sorted, hnone]

end Sorting

namespace ValueSet

/-- Every two members can be compared. -/
def Comparable (s : ValueSet) : Prop :=
  s.items.Pairwise fun a b => (a.lt? b).isSome = true

instance (s : ValueSet) : Decidable (Comparable s) :=
  inferInstanceAs (Decidable (s.items.Pairwise fun a b => (a.lt? b).isSome = true))

variable {s : ValueSet}

theorem Comparable.sorted_eq_ok (h : Comparable s) : ∃ ys, sorted s = .ok ys :=
  Sorting.sorted_eq_ok h

theorem sorted_eq_error (h : ¬ Comparable s) : sorted s = .error .incomparable :=
  Sorting.sorted_eq_error h

theorem distinct_of_sorted {xs : List Value} (h : sorted s = .ok xs) :
    xs.Pairwise fun a b => (a == b) = false :=
  ((Sorting.perm_of_sorted h).pairwise_iff fun hab => by rw [BEq.comm, hab]).mpr s.distinct

theorem mem_iff_of_sorted {xs : List Value} {a : Value} (h : sorted s = .ok xs) :
    a ∈ s ↔ ∃ b ∈ xs, (b == a) = true := by
  simp only [OrderedSet.mem_iff_exists, (Sorting.perm_of_sorted h).mem_iff]

theorem comparable_of_mem {xs : List Value}
    (hxs : xs.Pairwise fun a b => (a.lt? b).isSome = true)
    (hs : ∀ a ∈ s.items, ∃ b ∈ xs, (b == a) = true) : Comparable s := by
  have hsymm : Std.Symm fun a b : Value => (a.lt? b).isSome = true :=
    ⟨fun a b h => Value.isSome_lt?_comm a b ▸ h⟩
  apply s.distinct.imp_of_mem
  intro a b ha hb hab
  obtain ⟨a', ha', haa⟩ := hs a ha
  obtain ⟨b', hb', hbb⟩ := hs b hb
  have hne : a' ≠ b' := by
    rintro rfl
    rw [BEq.trans (BEq.symm haa) hbb] at hab
    cases hab
  rw [← Value.lt?_congr a' b' a b haa hbb]
  exact hxs.forall ha' hb' hne

end ValueSet

end EpsilonAutomata
