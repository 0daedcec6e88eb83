import Mathlib.Data.List.Sort
import EpsilonAutomata.Collection.Lists
import EpsilonAutomata.Collection.OrderedSet
import EpsilonAutomata.Collection.Sorting

/-!
# Sorting by a strict order

A `StrictOrder` compares values strictly as far as they can be compared at all, and respects an
equality. Such orders are put together lexicographically (`StrictOrder.lex`). A list of different
values that can be sorted has one sorted form, in whatever order its items are given
(`StrictOrder.sort?_perm`). Two equal sets, whose items may equal each other without being the same, have
sorted forms that are equal item by item exactly if the order does not tell equal items apart
(`OrderedAlike`, `StrictOrder.sort?_beq_iff`).
-/

namespace EpsilonAutomata.Sorting

variable {α β γ : Type}

theorem sort?_eq_some_iff {lt : α → α → Option Bool} {xs ys : List α} :
    sort? lt xs = some ys ↔ (xs.Pairwise fun a b => (lt a b).isSome = true) ∧
      sortBy (fun a b => lt a b == some true) xs = ys := by
  rw [sort?, ← allComparable_iff]
  split <;> simp_all

/-- On the values with a property, `lt` is a strict order up to the equality `same`. Two different
values may be incomparable, but then both ways round. -/
structure StrictOrder (p : α → Prop) (same : α → α → Bool) (lt : α → α → Option Bool) : Prop where
  same_refl : ∀ a, same a a = true
  same_symm : ∀ {a b}, same a b = true → same b a = true
  same_trans : ∀ {a b c}, same a b = true → same b c = true → same a c = true
  congr : ∀ {a b a' b'}, same a a' = true → same b b' = true → lt a b = lt a' b'
  not_lt : ∀ {a b}, p a → same a b = true → lt a b ≠ some true
  swap : ∀ {a b}, p a → p b → same a b = false → lt b a = (lt a b).map not
  trans : ∀ {a b c}, p a → p b → p c → lt a b = some true → lt b c = some true → lt a c = some true

namespace StrictOrder

variable {p : α → Prop} {same : α → α → Bool} {lt : α → α → Option Bool} {a b c : α}

theorem same_eq_false_of_lt (h : StrictOrder p same lt) (ha : p a) (hab : lt a b = some true) :
    same a b = false := by
  rw [Bool.eq_false_iff]
  exact fun hsame => h.not_lt ha hsame hab

theorem same_comm (h : StrictOrder p same lt) (a b : α) : same a b = same b a :=
  Bool.eq_iff_iff.mpr ⟨h.same_symm, h.same_symm⟩

theorem same_congr (h : StrictOrder p same lt) {a' b' : α} (ha : same a a' = true)
    (hb : same b b' = true) : same a b = same a' b' :=
  Bool.eq_iff_iff.mpr
    ⟨fun hab => h.same_trans (h.same_symm ha) (h.same_trans hab hb),
      fun hab => h.same_trans ha (h.same_trans hab (h.same_symm hb))⟩

theorem asymm (h : StrictOrder p same lt) (ha : p a) (hb : p b) (hab : lt a b = some true) :
    lt b a ≠ some true := by
  rw [h.swap ha hb (h.same_eq_false_of_lt ha hab), hab]
  simp

theorem lt_of_not_lt (h : StrictOrder p same lt) (ha : p a) (hb : p b) (hab : same a b = false)
    (hcomparable : (lt a b).isSome = true) (hnot : lt a b ≠ some true) : lt b a = some true := by
  obtain ⟨r, hr⟩ := Option.isSome_iff_exists.mp hcomparable
  cases r with
  | true => exact absurd hr hnot
  | false => rw [h.swap ha hb hab, hr]; rfl

theorem isSome_comm (h : StrictOrder p same lt) (ha : p a) (hb : p b) (hab : same a b = false) :
    (lt b a).isSome = (lt a b).isSome := by
  rw [h.swap ha hb hab, Option.isSome_map]

theorem mono (h : StrictOrder p same lt) {q : α → Prop} (hqp : ∀ a, q a → p a) :
    StrictOrder q same lt where
  same_refl := h.same_refl
  same_symm := h.same_symm
  same_trans := h.same_trans
  congr := h.congr
  not_lt ha := h.not_lt (hqp _ ha)
  swap ha hb := h.swap (hqp _ ha) (hqp _ hb)
  trans ha hb hc := h.trans (hqp _ ha) (hqp _ hb) (hqp _ hc)

/-! ## Orders out of orders -/

theorem nat : StrictOrder (fun _ : Nat => True) (· == ·) fun i j => some (decide (i < j)) where
  same_refl i := by simp
  same_symm h := by
    rw [beq_iff_eq] at *
    exact h.symm
  same_trans hab hbc := by
    rw [beq_iff_eq] at *
    exact hab.trans hbc
  congr ha hb := by
    rw [beq_iff_eq] at ha hb
    rw [ha, hb]
  not_lt _ h := by
    rw [beq_iff_eq] at h
    simp [h]
  swap {i j} _ _ h := by
    have hne : i ≠ j := by simpa using h
    have hflip : decide (j < i) = !decide (i < j) := by
      rw [← decide_not, decide_eq_decide]
      omega
    rw [hflip]
    rfl
  trans _ _ _ hab hbc := by
    simp only [Option.some.injEq, decide_eq_true_eq] at *
    omega

theorem guarded (h : StrictOrder p same lt) :
    StrictOrder p same fun a b => if same a b then some false else lt a b where
  same_refl := h.same_refl
  same_symm := h.same_symm
  same_trans := h.same_trans
  congr ha hb := by rw [h.same_congr ha hb, h.congr ha hb]
  not_lt _ hab := by simp [hab]
  swap {a b} ha hb hab := by
    have hba : same b a = false := by rw [h.same_comm, hab]
    simp only [hab, hba, Bool.false_eq_true, if_false]
    exact h.swap ha hb hab
  trans {a b c} ha hb hc hab hbc := by
    have hsplit {x y : α} (hxy : (if same x y then some false else lt x y) = some true) :
        lt x y = some true := by
      split at hxy
      · cases hxy
      · exact hxy
    have hac := h.trans ha hb hc (hsplit hab) (hsplit hbc)
    rw [if_neg (by simp [h.same_eq_false_of_lt ha hac]), hac]

theorem lex {q : β → Prop} {same' : β → β → Bool} {lt' : β → β → Option Bool} {f : γ → α} {g : γ → β}
    (h : StrictOrder p same lt) (h' : StrictOrder q same' lt') :
    StrictOrder (fun t => p (f t) ∧ q (g t)) (fun t u => same (f t) (f u) && same' (g t) (g u))
      fun t u => if same (f t) (f u) then lt' (g t) (g u) else lt (f t) (f u) where
  same_refl t := by
    rw [Bool.and_eq_true]
    exact ⟨h.same_refl (f t), h'.same_refl (g t)⟩
  same_symm htu := by
    rw [Bool.and_eq_true] at *
    exact ⟨h.same_symm htu.1, h'.same_symm htu.2⟩
  same_trans htu huv := by
    rw [Bool.and_eq_true] at *
    exact ⟨h.same_trans htu.1 huv.1, h'.same_trans htu.2 huv.2⟩
  congr ht hu := by
    rw [Bool.and_eq_true] at ht hu
    rw [h.same_congr ht.1 hu.1, h.congr ht.1 hu.1, h'.congr ht.2 hu.2]
  not_lt ht htu := by
    rw [Bool.and_eq_true] at htu
    rw [if_pos htu.1]
    exact h'.not_lt ht.2 htu.2
  swap {t u} ht hu htu := by
    rw [h.same_comm (f u) (f t)]
    cases hfirst : same (f t) (f u) with
    | true =>
      rw [hfirst, Bool.true_and] at htu
      simpa using h'.swap ht.2 hu.2 htu
    | false => simpa using h.swap ht.1 hu.1 hfirst
  trans {t u v} ht hu hv htu huv := by
    cases htu' : same (f t) (f u) with
    | true =>
      -- the first keys of `t` and `u` compare alike with that of `v`
      rw [h.same_congr htu' (h.same_refl (f v)), h.congr htu' (h.same_refl (f v))]
      rw [if_pos htu'] at htu
      split at huv
      · next huv' =>
        rw [if_pos huv']
        exact h'.trans ht.2 hu.2 hv.2 htu huv
      · next huv' =>
        rw [if_neg huv', huv]
    | false =>
      rw [if_neg (by simp [htu'])] at htu
      split at huv
      · next huv' =>
        rw [← h.same_congr (h.same_refl (f t)) huv', ← h.congr (h.same_refl (f t)) huv',
          if_neg (by simp [htu']), htu]
      · have htv := h.trans ht.1 hu.1 hv.1 htu huv
        rw [if_neg (by simp [h.same_eq_false_of_lt ht.1 htv]), htv]

/-! ## Sorted lists -/

variable {x : α} {xs ys zs : List α}

theorem pairwise_insertBy (h : StrictOrder p same lt) (hx : p x) (hys : ∀ y ∈ ys, p y)
    (hnew : ∀ y ∈ ys, same y x = false ∧ (lt y x).isSome = true)
    (hsorted : ys.Pairwise fun a b => lt a b = some true) :
    (insertBy (fun a b => lt a b == some true) x ys).Pairwise fun a b => lt a b = some true := by
  induction ys with
  | nil => exact List.pairwise_singleton _ x
  | cons y ys ih =>
    obtain ⟨hbelow, hrest⟩ := List.pairwise_cons.mp hsorted
    have hy := hys y List.mem_cons_self
    have hys' : ∀ z ∈ ys, p z := fun z hz => hys z (List.mem_cons_of_mem y hz)
    rw [insertBy]
    split
    · next hyx =>
      refine List.pairwise_cons.mpr ⟨fun z hz => ?_, ?_⟩
      · rcases List.mem_cons.mp ((insertBy_perm _ x ys).mem_iff.mp hz) with rfl | hz
        · simpa using hyx
        · exact hbelow z hz
      · exact ih hys' (fun z hz => hnew z (List.mem_cons_of_mem y hz)) hrest
    · next hyx =>
      obtain ⟨hne, hcomparable⟩ := hnew y List.mem_cons_self
      have hxy := h.lt_of_not_lt hy hx hne hcomparable (by simpa using hyx)
      refine List.pairwise_cons.mpr ⟨fun z hz => ?_, hsorted⟩
      rcases List.mem_cons.mp hz with rfl | hz
      · exact hxy
      · exact h.trans hx hy (hys' z hz) hxy (hbelow z hz)

theorem pairwise_sortBy (h : StrictOrder p same lt) (hxs : ∀ x ∈ xs, p x)
    (hdistinct : xs.Pairwise fun a b => same a b = false)
    (hcomparable : xs.Pairwise fun a b => (lt a b).isSome = true) :
    (sortBy (fun a b => lt a b == some true) xs).Pairwise fun a b => lt a b = some true := by
  induction xs with
  | nil => exact .nil
  | cons x xs ih =>
    obtain ⟨hne, hdistinct'⟩ := List.pairwise_cons.mp hdistinct
    obtain ⟨hwith, hcomparable'⟩ := List.pairwise_cons.mp hcomparable
    have hx := hxs x List.mem_cons_self
    have hxs' : ∀ y ∈ xs, p y := fun y hy => hxs y (List.mem_cons_of_mem x hy)
    have hmem {y : α} (hy : y ∈ sortBy (fun a b => lt a b == some true) xs) : y ∈ xs :=
      (sortBy_perm _ xs).mem_iff.mp hy
    refine h.pairwise_insertBy hx (fun y hy => hxs' y (hmem hy)) (fun y hy => ?_)
      (ih hxs' hdistinct' hcomparable')
    have hxy := hne y (hmem hy)
    rw [h.same_comm y x, h.isSome_comm hx (hxs' y (hmem hy)) hxy]
    exact ⟨hxy, hwith y (hmem hy)⟩

theorem sort?_of_pairwise (h : StrictOrder p same lt) (hxs : ∀ x ∈ xs, p x)
    (hsorted : xs.Pairwise fun a b => lt a b = some true) : sort? lt xs = some xs := by
  have hcomparable : xs.Pairwise fun a b => (lt a b).isSome = true :=
    hsorted.imp fun hab => Option.isSome_of_eq_some hab
  have hstays : sortBy (fun a b => lt a b == some true) xs = xs := by
    have hdistinct := hsorted.imp_of_mem fun ha _ hab => h.same_eq_false_of_lt (hxs _ ha) hab
    refine List.Perm.eq_of_pairwise (fun a b ha hb hab hba => ?_)
      (h.pairwise_sortBy hxs hdistinct hcomparable) hsorted (sortBy_perm _ xs)
    exact absurd hba (h.asymm (hxs a ((sortBy_perm _ xs).mem_iff.mp ha)) (hxs b hb) hab)
  rw [sort?, if_pos ((allComparable_iff lt xs).mpr hcomparable), hstays]

/-- Different values have one sorted form, whatever order they are given in. -/
theorem sort?_perm (h : StrictOrder p same lt) (hxs : ∀ x ∈ xs, p x)
    (hdistinct : xs.Pairwise fun a b => same a b = false) (hperm : zs.Perm xs)
    (hsort : sort? lt xs = some ys) : sort? lt zs = some ys := by
  obtain ⟨hcomparable, hys⟩ := sort?_eq_some_iff.mp hsort
  have hzs : ∀ z ∈ zs, p z := fun z hz => hxs z (hperm.mem_iff.mp hz)
  -- both conditions on two items hold the other way round as well
  have hboth : xs.Pairwise fun a b =>
      (p a ∧ p b) ∧ same a b = false ∧ (lt a b).isSome = true :=
    (hdistinct.and hcomparable).imp_of_mem fun ha hb hab => ⟨⟨hxs _ ha, hxs _ hb⟩, hab⟩
  have hboth' := (hperm.pairwise_iff fun {a b} hab =>
    ⟨hab.1.symm, by rw [h.same_comm, hab.2.1], by
      rw [h.isSome_comm hab.1.1 hab.1.2 hab.2.1, hab.2.2]⟩).mpr hboth
  have hdistinct' := hboth'.imp fun hab => hab.2.1
  have hcomparable' := hboth'.imp fun hab => hab.2.2
  refine sort?_eq_some_iff.mpr ⟨hcomparable', ?_⟩
  rw [← hys]
  refine List.Perm.eq_of_pairwise (fun a b ha hb hab hba => ?_)
    (h.pairwise_sortBy hzs hdistinct' hcomparable') (h.pairwise_sortBy hxs hdistinct hcomparable)
    ((sortBy_perm _ zs).trans (hperm.trans (sortBy_perm _ xs).symm))
  have hpa := hzs a ((sortBy_perm _ zs).mem_iff.mp ha)
  have hpb := hxs b ((sortBy_perm _ xs).mem_iff.mp hb)
  exact absurd hba (h.asymm hpa hpb hab)

end StrictOrder

/-! ## Sorted lists of equal items -/

section Counterparts

variable [BEq α]

/-- The order puts two items of the first list as it puts the items of the second that equal them. -/
def OrderedAlike (lt : α → α → Option Bool) (xs ys : List α) : Prop :=
  ∀ a ∈ xs, ∀ b ∈ xs, ∀ a' ∈ ys, ∀ b' ∈ ys, (a == a') = true → (b == b') = true →
    (lt a b = some true ↔ lt a' b' = some true)

theorem OrderedAlike.of_perm {lt : α → α → Option Bool} {xs' ys' : List α}
    (hxs : xs'.Perm xs) (hys : ys'.Perm ys) (h : OrderedAlike lt xs ys) : OrderedAlike lt xs' ys' :=
  fun a ha b hb a' ha' b' hb' => h a (hxs.mem_iff.mp ha) b (hxs.mem_iff.mp hb) a'
    (hys.mem_iff.mp ha') b' (hys.mem_iff.mp hb')

theorem StrictOrder.orderedAlike {p : α → Prop} {same : α → α → Bool}
    {lt : α → α → Option Bool} (h : StrictOrder p same lt)
    (hsame : ∀ a ∈ xs, ∀ b ∈ ys, (a == b) = true → same a b = true) : OrderedAlike lt xs ys := by
  intro a ha b hb a' ha' b' hb' haa hbb
  rw [h.congr (hsame a ha a' ha' haa) (hsame b hb b' hb' hbb)]

/-- The items ascend, and no two of them are equal. -/
structure InOrder (lt : α → α → Option Bool) (xs : List α) : Prop where
  ascending : xs.Pairwise fun a b => lt a b = some true
  distinct : xs.Pairwise fun a b => (a == b) = false

namespace InOrder

variable {lt : α → α → Option Bool}

theorem tail (h : InOrder lt (x :: xs)) : InOrder lt xs :=
  ⟨h.ascending.of_cons, h.distinct.of_cons⟩

theorem lt_of_mem {y : α} (h : InOrder lt (x :: xs)) (hy : y ∈ xs) : lt x y = some true :=
  List.rel_of_pairwise_cons h.ascending hy

theorem beq_eq_false_of_mem {y : α} (h : InOrder lt (x :: xs)) (hy : y ∈ xs) : (x == y) = false :=
  List.rel_of_pairwise_cons h.distinct hy

theorem eq_of_beq_head {y : α} (h : InOrder lt (x :: xs)) (hy : y ∈ x :: xs)
    (hxy : (x == y) = true) : y = x := by
  rcases List.mem_cons.mp hy with rfl | hy
  · rfl
  · rw [h.beq_eq_false_of_mem hy] at hxy
    cases hxy

variable [EquivBEq α]

theorem exists_tail_iff {b : α} (h : InOrder lt (x :: xs)) :
    (∃ a ∈ xs, (a == b) = true) ↔ (∃ a ∈ x :: xs, (a == b) = true) ∧ (x == b) = false := by
  constructor
  · rintro ⟨a, ha, hab⟩
    refine ⟨⟨a, List.mem_cons_of_mem x ha, hab⟩, Bool.eq_false_iff.mpr fun hxb => ?_⟩
    have hxa := BEq.trans hxb (BEq.symm hab)
    rw [h.beq_eq_false_of_mem ha] at hxa
    cases hxa
  · rintro ⟨⟨a, ha, hab⟩, hne⟩
    rcases List.mem_cons.mp ha with rfl | ha
    · rw [hab] at hne
      cases hne
    · exact ⟨a, ha, hab⟩

end InOrder

variable [EquivBEq α] {p : α → Prop} {same : α → α → Bool} {lt : α → α → Option Bool}

theorem StrictOrder.orderedAlike_of_beq (h : StrictOrder p same lt) (hxs : ∀ x ∈ xs, p x)
    (hys : ∀ y ∈ ys, p y) (hx : InOrder lt xs) (hy : InOrder lt ys) (hbeq : (xs == ys) = true) :
    OrderedAlike lt xs ys := by
  induction xs generalizing ys with
  | nil => exact fun a ha => absurd ha List.not_mem_nil
  | cons x xs ih =>
    cases ys with
    | nil => cases hbeq
    | cons y ys =>
      obtain ⟨hxy, hrest⟩ := Lists.beq_cons.mp hbeq
      have hpx := hxs x List.mem_cons_self
      have hpy := hys y List.mem_cons_self
      have hpxs : ∀ z ∈ xs, p z := fun z hz => hxs z (List.mem_cons_of_mem x hz)
      have hpys : ∀ z ∈ ys, p z := fun z hz => hys z (List.mem_cons_of_mem y hz)
      -- the counterpart of the first item is the first item, and those of the others come behind it
      have hhead {b : α} (hb : b ∈ y :: ys) (hxb : (x == b) = true) : b = y :=
        hy.eq_of_beq_head hb (BEq.trans (BEq.symm hxy) hxb)
      have htail {a b : α} (ha : a ∈ xs) (hb : b ∈ y :: ys) (hab : (a == b) = true) : b ∈ ys := by
        rcases List.mem_cons.mp hb with rfl | hb
        · have hxa := BEq.trans hxy (BEq.symm hab)
          rw [hx.beq_eq_false_of_mem ha] at hxa
          cases hxa
        · exact hb
      intro a ha b hb a' ha' b' hb' haa hbb
      rcases List.mem_cons.mp ha with rfl | hax
      · obtain rfl := hhead ha' haa
        rcases List.mem_cons.mp hb with rfl | hbx
        · obtain rfl := hhead hb' hbb
          exact iff_of_false (h.not_lt hpx (h.same_refl _)) (h.not_lt hpy (h.same_refl _))
        · exact iff_of_true (hx.lt_of_mem hbx) (hy.lt_of_mem (htail hbx hb' hbb))
      · have hay := htail hax ha' haa
        rcases List.mem_cons.mp hb with rfl | hbx
        · obtain rfl := hhead hb' hbb
          exact iff_of_false (h.asymm hpx (hpxs a hax) (hx.lt_of_mem hax))
            (h.asymm hpy (hpys a' hay) (hy.lt_of_mem hay))
        · exact ih hpxs hpys hx.tail hy.tail hrest a hax b hbx a' hay b' (htail hbx hb' hbb) haa hbb

theorem StrictOrder.beq_of_orderedAlike (h : StrictOrder p same lt) (hys : ∀ y ∈ ys, p y)
    (hx : InOrder lt xs) (hy : InOrder lt ys)
    (hmem : ∀ b, (∃ a ∈ xs, (a == b) = true) ↔ ∃ a ∈ ys, (a == b) = true)
    (halike : OrderedAlike lt xs ys) : (xs == ys) = true := by
  induction xs generalizing ys with
  | nil =>
    cases ys with
    | nil => rfl
    | cons y ys => simpa using (hmem y).mpr ⟨y, List.mem_cons_self, BEq.rfl⟩
  | cons x xs ih =>
    cases ys with
    | nil => simpa using (hmem x).mp ⟨x, List.mem_cons_self, BEq.rfl⟩
    | cons y ys =>
      obtain ⟨y', hy', hyx⟩ := (hmem x).mp ⟨x, List.mem_cons_self, BEq.rfl⟩
      obtain ⟨x', hx', hxy⟩ := (hmem y).mpr ⟨y, List.mem_cons_self, BEq.rfl⟩
      have hfirst : (x == y) = true := by
        rcases List.mem_cons.mp hx' with rfl | hx'
        · exact hxy
        rcases List.mem_cons.mp hy' with rfl | hy'
        · exact BEq.symm hyx
        -- the one first item would be below the other, and the other below it
        have hbelow := (halike x List.mem_cons_self x' (List.mem_cons_of_mem x hx') y'
          (List.mem_cons_of_mem y hy') y List.mem_cons_self (BEq.symm hyx) hxy).mp (hx.lt_of_mem hx')
        exact absurd hbelow (h.asymm (hys y List.mem_cons_self)
          (hys y' (List.mem_cons_of_mem y hy')) (hy.lt_of_mem hy'))
      refine Lists.beq_cons.mpr ⟨hfirst, ih (fun z hz => hys z (List.mem_cons_of_mem y hz)) hx.tail
        hy.tail (fun b => ?_) fun a ha b hb a' ha' b' hb' => halike a (List.mem_cons_of_mem x ha) b
          (List.mem_cons_of_mem x hb) a' (List.mem_cons_of_mem y ha') b' (List.mem_cons_of_mem y hb')⟩
      have hhead : (x == b) = (y == b) :=
        Bool.eq_iff_iff.mpr ⟨BEq.trans (BEq.symm hfirst), BEq.trans hfirst⟩
      rw [hx.exists_tail_iff, hy.exists_tail_iff, hmem, hhead]

theorem StrictOrder.inOrder_of_sort? (h : StrictOrder p same lt) (hxs : ∀ x ∈ xs, p x)
    (hsame : ∀ {a b}, same a b = true → (a == b) = true)
    (hdistinct : xs.Pairwise fun a b => (a == b) = false) (hsort : sort? lt xs = some ys) :
    InOrder lt ys := by
  obtain ⟨hcomparable, hys⟩ := sort?_eq_some_iff.mp hsort
  have hdistinct' : xs.Pairwise fun a b => same a b = false := by
    refine hdistinct.imp fun hne => Bool.eq_false_iff.mpr fun hab => ?_
    rw [hsame hab] at hne
    cases hne
  refine ⟨hys ▸ h.pairwise_sortBy hxs hdistinct' hcomparable, ?_⟩
  exact ((perm_of_sort? hsort).pairwise_iff fun hab => by rw [BEq.comm, hab]).mpr hdistinct

/-- Sorting two equal sets gives lists that are equal item by item exactly when the order puts the items
of the one as those of the other. -/
theorem StrictOrder.sort?_beq_iff (h : StrictOrder p same lt)
    (hsame : ∀ {a b}, same a b = true → (a == b) = true) {s t : OrderedSet α}
    (hs : ∀ a ∈ s.items, p a) (ht : ∀ a ∈ t.items, p a) (hst : (s == t) = true)
    (hxs : sort? lt s.items = some xs) (hys : sort? lt t.items = some ys) :
    (xs == ys) = true ↔ OrderedAlike lt s.items t.items := by
  have hperm := perm_of_sort? hxs
  have hperm' := perm_of_sort? hys
  have hpx : ∀ x ∈ xs, p x := fun x hx => hs x (hperm.mem_iff.mp hx)
  have hpy : ∀ y ∈ ys, p y := fun y hy => ht y (hperm'.mem_iff.mp hy)
  have hx := h.inOrder_of_sort? hs hsame s.distinct hxs
  have hy := h.inOrder_of_sort? ht hsame t.distinct hys
  constructor
  · intro hbeq
    exact (h.orderedAlike_of_beq hpx hpy hx hy hbeq).of_perm hperm.symm hperm'.symm
  · intro halike
    refine h.beq_of_orderedAlike hpy hx hy (fun b => ?_) (halike.of_perm hperm hperm')
    simp only [hperm.mem_iff, hperm'.mem_iff, ← OrderedSet.mem_iff_exists]
    exact OrderedSet.beq_iff.mp hst b

end Counterparts

end EpsilonAutomata.Sorting
