import EpsilonAutomata.Automaton.Listing
import EpsilonAutomata.Proofs.Collection.Sorting
import EpsilonAutomata.Proofs.Value.Comparable

/-!
# The orders of values, labels and transitions are strict

Sets are ordered by inclusion, and an undefined number is below and above nothing; so different values
of one kind need not be ordered. Scalars other than undefined numbers, and tuples of such, are
(`Plain`): of two of them that can be compared and differ, one is below the other
(`Value.strictOrder`). The orders of labels and of transitions are put together from this one: labels
by kind and then by value, transitions by source, label and target.
-/

namespace EpsilonAutomata

open Sorting (StrictOrder)

theorem Sorting.sorted_eq_ok_iff {α : Type} {lt : α → α → Option Bool} {xs ys : List α} :
    sorted lt xs = .ok ys ↔ sort? lt xs = some ys := by
  unfold sorted
  split <;> simp_all

/-! ## Scalars -/

theorem Quantity.lt_swap {p q : Quantity} (hp : p.IsDefined) (hq : q.IsDefined) (hne : p ≠ q) :
    q.lt p = !p.lt q := by
  have hasymm (hpq : p.lt q = true) (hqp : q.lt p = true) : False := by
    have hself := Quantity.lt_trans hpq hqp
    rw [Quantity.lt_irrefl] at hself
    cases hself
  rcases Quantity.lt_or_lt_of_ne hp hq hne with hpq | hqp
  · rw [hpq, Bool.not_true, Bool.eq_false_iff]
    exact hasymm hpq
  · have hpq : p.lt q = false := Bool.eq_false_iff.mpr fun hpq => hasymm hpq hqp
    rw [hqp, hpq, Bool.not_false]

/-- Not an undefined number. -/
def Scalar.IsDefined : Scalar → Prop
  | .number q => q.IsDefined
  | _ => True

namespace Scalar

variable {x y z : Scalar}

theorem not_lt?_self (x : Scalar) : x.lt? x ≠ some true := by
  cases x <;> simp [lt?, Quantity.lt_irrefl]

theorem lt?_swap (hx : x.IsDefined) (hy : y.IsDefined) (hne : x ≠ y) :
    y.lt? x = (x.lt? y).map not := by
  cases x <;> cases y <;> try rfl
  · next p q =>
    have hpq : p ≠ q := fun h => hne (h ▸ rfl)
    exact congrArg some (Quantity.lt_swap hx hy hpq)
  · next s t =>
    have hst : s ≠ t := fun h => hne (h ▸ rfl)
    refine congrArg some ?_
    rw [← decide_not, decide_eq_decide, String.not_lt]
    constructor
    · exact fun hlt => String.not_lt.mp (String.lt_asymm hlt)
    · intro hle
      by_contra hnot
      exact hst (String.le_antisymm (String.not_lt.mp hnot) hle)

theorem lt?_trans (hxy : x.lt? y = some true) (hyz : y.lt? z = some true) :
    x.lt? z = some true := by
  cases x <;> cases y <;> simp only [lt?, reduceCtorEq, Option.some.injEq] at hxy
  · cases z <;> simp only [lt?, reduceCtorEq, Option.some.injEq] at hyz ⊢
    exact Quantity.lt_trans hxy hyz
  · cases z <;> simp only [lt?, reduceCtorEq, Option.some.injEq, decide_eq_true_eq] at hxy hyz ⊢
    exact String.lt_trans hxy hyz

end Scalar

/-! ## Values -/

namespace Value

variable {a b c : Value} {xs ys zs : List Value}

/-- Scalars other than undefined numbers, and tuples of such values. -/
inductive Plain : Value → Prop
  | scalar {a : Value} {x : Scalar} (h : a.scalar? = some x) (defined : x.IsDefined) : Plain a
  | tuple {xs : List Value} (items : ∀ x ∈ xs, Plain x) : Plain (.tuple xs)

theorem ltItems?_self (h : ∀ x ∈ xs, ∀ y, same x y = true → lt? x y ≠ some true)
    (hxs : sameItems xs ys = true) : ltItems? xs ys ≠ some true := by
  induction xs generalizing ys with
  | nil =>
    cases ys with
    | nil => simp [ltItems?]
    | cons y ys => simp [sameItems] at hxs
  | cons x xs ih =>
    cases ys with
    | nil => simp [sameItems] at hxs
    | cons y ys =>
      simp only [sameItems, Bool.and_eq_true] at hxs
      rw [ltItems?, if_pos hxs.1]
      exact ih (fun z hz => h z (List.mem_cons_of_mem x hz)) hxs.2

theorem ltItems?_swap (h : ∀ x ∈ xs, ∀ y ∈ ys, same x y = false → lt? y x = (lt? x y).map not)
    (hxs : sameItems xs ys = false) : ltItems? ys xs = (ltItems? xs ys).map not := by
  induction xs generalizing ys with
  | nil =>
    cases ys with
    | nil => simp [sameItems] at hxs
    | cons y ys => rfl
  | cons x xs ih =>
    cases ys with
    | nil => rfl
    | cons y ys =>
      rw [ltItems?, ltItems?, same_comm y x]
      cases hxy : same x y with
      | true =>
        rw [sameItems, hxy, Bool.true_and] at hxs
        simpa using ih (fun z hz w hw => h z (List.mem_cons_of_mem x hz) w
          (List.mem_cons_of_mem y hw)) hxs
      | false => simpa using h x List.mem_cons_self y List.mem_cons_self hxy

theorem ltItems?_trans
    (h : ∀ x ∈ xs, ∀ y z, lt? x y = some true → lt? y z = some true → lt? x z = some true)
    (hself : ∀ x ∈ xs, ∀ y, same x y = true → lt? x y ≠ some true)
    (hxy : ltItems? xs ys = some true) (hyz : ltItems? ys zs = some true) :
    ltItems? xs zs = some true := by
  induction xs generalizing ys zs with
  | nil =>
    cases zs with
    | nil => cases ys <;> simp [ltItems?] at hxy hyz
    | cons z zs => rfl
  | cons x xs ih =>
    cases ys with
    | nil => cases hxy
    | cons y ys =>
      cases zs with
      | nil => cases hyz
      | cons z zs =>
        -- the first items decide unless they are equal
        rw [ltItems?] at hxy hyz ⊢
        cases hsame : same x y with
        | true =>
          rw [if_pos hsame] at hxy
          rw [same_congr hsame (same_refl z), lt?_congr x z y z hsame (same_refl z)]
          split at hyz
          · next hsame' =>
            rw [if_pos hsame']
            exact ih (fun w hw => h w (List.mem_cons_of_mem x hw))
              (fun w hw => hself w (List.mem_cons_of_mem x hw)) hxy hyz
          · next hsame' => rw [if_neg hsame', hyz]
        | false =>
          rw [hsame, if_neg Bool.false_ne_true] at hxy
          split at hyz
          · next hsame' =>
            rw [← same_congr (same_refl x) hsame', ← lt?_congr x y x z (same_refl x) hsame',
              hsame, if_neg Bool.false_ne_true, hxy]
          · have hxz := h x List.mem_cons_self y z hxy hyz
            rw [if_neg fun hsame' => hself x List.mem_cons_self z hsame' hxz, hxz]

theorem Plain.not_lt? (ha : a.Plain) (hab : same a b = true) : lt? a b ≠ some true := by
  induction ha generalizing b with
  | @scalar a x h _ =>
    rw [lt?_of_scalar h ((scalar?_congr hab).symm.trans h)]
    exact x.not_lt?_self
  | @tuple xs _ ih =>
    obtain ⟨ys, hys, hitems⟩ := (same_iff_of_sequence rfl b).mp hab
    rw [lt?_of_sequence rfl hys]
    exact ltItems?_self (fun x hx y => ih x hx) hitems

theorem Plain.lt?_swap (ha : a.Plain) (hb : b.Plain) (hab : same a b = false) :
    lt? b a = (lt? a b).map not := by
  induction ha generalizing b with
  | @scalar a x h hx =>
    cases hb with
    | @scalar _ y h' hy =>
      rw [lt?_of_scalar h h', lt?_of_scalar h' h]
      refine Scalar.lt?_swap hx hy fun hxy => ?_
      rw [(same_iff_scalar? h b).mpr (hxy ▸ h')] at hab
      cases hab
    | @tuple ys _ =>
      obtain ⟨hnone, hnone'⟩ := lt?_eq_none_of_scalar (b := .tuple ys) h rfl
      rw [hnone, hnone']
      rfl
  | @tuple xs _ ih =>
    cases hb with
    | @scalar _ y h' _ =>
      obtain ⟨hnone, hnone'⟩ := lt?_eq_none_of_scalar (b := .tuple xs) h' rfl
      rw [hnone, hnone']
      rfl
    | @tuple ys hys =>
      rw [lt?_of_sequence (b := .tuple ys) rfl rfl, lt?_of_sequence (b := .tuple xs) rfl rfl]
      refine ltItems?_swap (fun x hx y hy => ih x hx (hys y hy)) ?_
      simpa [same] using hab

theorem Plain.lt?_trans (ha : a.Plain) (hab : lt? a b = some true) (hbc : lt? b c = some true) :
    lt? a c = some true := by
  induction ha generalizing b c with
  | @scalar a x h _ =>
    cases hy : b.scalar? with
    | none =>
      rw [(lt?_eq_none_of_scalar h hy).1] at hab
      cases hab
    | some y =>
      cases hz : c.scalar? with
      | none =>
        rw [(lt?_eq_none_of_scalar hy hz).1] at hbc
        cases hbc
      | some z =>
        rw [lt?_of_scalar h hy] at hab
        rw [lt?_of_scalar hy hz] at hbc
        rw [lt?_of_scalar h hz]
        exact Scalar.lt?_trans hab hbc
  | @tuple xs hxs ih =>
    have hsequence {k : Bool} {zs : List Value} {a b : Value} (ha : a.sequence? = some (k, zs))
        (hab : lt? a b = some true) : ∃ ys, b.sequence? = some (k, ys) := by
      by_contra hnot
      rw [(lt?_eq_none_of_sequence ha hnot).1] at hab
      cases hab
    obtain ⟨ys, hys⟩ := hsequence rfl hab
    obtain ⟨zs, hzs⟩ := hsequence hys hbc
    rw [lt?_of_sequence rfl hys] at hab
    rw [lt?_of_sequence hys hzs] at hbc
    rw [lt?_of_sequence rfl hzs]
    exact ltItems?_trans (fun x hx y z => ih x hx) (fun x hx y => (hxs x hx).not_lt?) hab hbc

theorem strictOrder : StrictOrder Plain (· == ·) lt? where
  same_refl _ := BEq.rfl
  same_symm := BEq.symm
  same_trans := BEq.trans
  congr := lt?_congr _ _ _ _
  not_lt ha := ha.not_lt?
  swap ha hb := ha.lt?_swap hb
  trans ha _ _ := ha.lt?_trans

/-! ### Whole numbers -/

theorem plain_int (i : Int) : (int i).Plain :=
  .scalar rfl trivial

theorem lt?_int (i j : Int) : lt? (int i) (int j) = some (decide (i < j)) := by
  rw [lt?_of_scalar rfl rfl]
  exact congrArg some (Quantity.ofInt_lt_ofInt i j)

/-! ## Labels -/

/-- The place of a label in the order of labels, the empty move before all kinds of symbols. -/
def labelPlace (a : Value) : Nat :=
  if a.isEpsilon then 0 else a.kindRank + 1

theorem labelLt?_eq (a b : Value) :
    labelLt? a b = if a.labelPlace == b.labelPlace then if a == b then some false else lt? a b
      else some (decide (a.labelPlace < b.labelPlace)) := by
  unfold labelLt? labelPlace
  cases ha : a.isEpsilon <;> cases hb : b.isEpsilon
  · simp
  · simp
  · simp
  · rw [eq_epsilon_of_isEpsilon ha, eq_epsilon_of_isEpsilon hb]
    simp

theorem sameLabel_eq (a b : Value) : sameLabel a b = (a.labelPlace == b.labelPlace && a == b) := by
  unfold sameLabel labelPlace
  cases hab : a == b with
  | false => simp
  | true =>
    have hepsilon : a.isEpsilon = b.isEpsilon := by
      rw [← beq_epsilon, ← beq_epsilon]
      exact Bool.eq_iff_iff.mpr ⟨fun ha => BEq.trans (BEq.symm hab) ha, fun hb => BEq.trans hab hb⟩
    cases hb : b.isEpsilon with
    | true =>
      rw [eq_epsilon_of_isEpsilon (hepsilon.trans hb), eq_epsilon_of_isEpsilon hb]
      rfl
    | false => simp [hepsilon, hb]

theorem labelOrder : StrictOrder Plain sameLabel labelLt? := by
  have hlex := (StrictOrder.nat.lex (f := labelPlace) (g := id) strictOrder.guarded).mono
    fun a (ha : Plain a) => ⟨trivial, ha⟩
  have hsame : sameLabel = fun a b => a.labelPlace == b.labelPlace && a == b :=
    funext fun a => funext fun b => sameLabel_eq a b
  have hlt : labelLt? = fun a b => if a.labelPlace == b.labelPlace then
      if a == b then some false else lt? a b else some (decide (a.labelPlace < b.labelPlace)) :=
    funext fun a => funext fun b => labelLt?_eq a b
  rw [hsame, hlt]
  exact hlex

end Value

/-! ## Sets of whole numbers -/

theorem ValueSet.sorted_of_ascending {s : ValueSet} {is : List Int}
    (hperm : s.items.Perm (is.map .int)) (h : is.Pairwise (· < ·)) :
    s.sorted = .ok (is.map .int) := by
  have hplain : ∀ v ∈ is.map Value.int, v.Plain := by
    intro v hv
    obtain ⟨i, -, rfl⟩ := List.mem_map.mp hv
    exact Value.plain_int i
  have hascending : (is.map Value.int).Pairwise fun u v => Value.lt? u v = some true := by
    refine List.pairwise_map.mpr (h.imp fun {i j} hij => ?_)
    rw [Value.lt?_int, decide_eq_true hij]
  have hdistinct := hascending.imp_of_mem fun hu _ huv =>
    Value.strictOrder.same_eq_false_of_lt (hplain _ hu) huv
  exact Sorting.sorted_eq_ok_iff.mpr (Value.strictOrder.sort?_perm hplain hdistinct hperm
    (Value.strictOrder.sort?_of_pairwise hplain hascending))

/-! ## Transitions -/

namespace Transition

/-- All three parts are scalars or tuples of scalars. -/
structure Plain (t : Transition) : Prop where
  source : t.source.Plain
  label : t.label.Plain
  target : t.target.Plain

/-- Equal as transitions, and with labels of one kind. -/
def sameInOrder (t u : Transition) : Bool :=
  t.source == u.source && (Value.sameLabel t.label u.label && t.target == u.target)

theorem beq_of_sameInOrder {t u : Transition} (h : sameInOrder t u = true) : (t == u) = true := by
  simp only [sameInOrder, Value.sameLabel, Bool.and_eq_true] at h
  exact beq_iff.mpr ⟨h.1, h.2.1.2, h.2.2⟩

theorem strictOrder : StrictOrder Plain sameInOrder lt? :=
  (Value.strictOrder.lex (f := source) (g := id) (Value.labelOrder.lex (f := label) (g := target)
    Value.strictOrder.guarded)).mono fun _ ht => ⟨ht.source, ht.label, ht.target⟩

end Transition

end EpsilonAutomata
