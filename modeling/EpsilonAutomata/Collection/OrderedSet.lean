/-!
# Ordered sets

Finite sets over a type with an equivalence `==`, kept as a list in the order in which members came
in. Of several equal values the first one is kept, so a union keeps the members of its left side.
Membership is membership up to `==`; each operation has one lemma that says what its members are.
-/

namespace EpsilonAutomata

/-- A list without two equal members. -/
structure OrderedSet (α : Type) [BEq α] where
  items : List α
  distinct : items.Pairwise fun a b => (a == b) = false

namespace OrderedSet

variable {α : Type} [BEq α]

/-- Some member equals the value. -/
def contains (s : OrderedSet α) (a : α) : Bool :=
  s.items.any (· == a)

instance : Membership α (OrderedSet α) := ⟨fun s a => s.contains a = true⟩

instance (a : α) (s : OrderedSet α) : Decidable (a ∈ s) :=
  inferInstanceAs (Decidable (s.contains a = true))

/-- The set without members. -/
def empty : OrderedSet α := ⟨[], .nil⟩

instance : EmptyCollection (OrderedSet α) := ⟨empty⟩

instance : Inhabited (OrderedSet α) := ⟨empty⟩

/-- The number of members. -/
def size (s : OrderedSet α) : Nat := s.items.length

/-- The set has no members. -/
def isEmpty (s : OrderedSet α) : Bool := s.items.isEmpty

/-- The set with one more member; a member that equals it stays as it is. -/
def insert (s : OrderedSet α) (a : α) : OrderedSet α :=
  if h : s.contains a = true then s
  else ⟨s.items ++ [a], by
    refine List.pairwise_append.2 ⟨s.distinct, List.pairwise_singleton .., fun b hb c hc => ?_⟩
    obtain rfl := List.mem_singleton.1 hc
    simpa using fun hbc => h (List.any_eq_true.2 ⟨b, hb, hbc⟩)⟩

/-- The set with further members, taken in order. -/
def insertAll (s : OrderedSet α) (xs : List α) : OrderedSet α :=
  xs.foldl insert s

/-- The members of a list, the first of equal ones. -/
def ofList (xs : List α) : OrderedSet α :=
  insertAll empty xs

/-- The union, which keeps the members of its left side. -/
def union (s t : OrderedSet α) : OrderedSet α :=
  s.insertAll t.items

instance : Union (OrderedSet α) := ⟨union⟩

/-- The members that satisfy a test. -/
def filter (p : α → Bool) (s : OrderedSet α) : OrderedSet α :=
  ⟨s.items.filter p, s.distinct.filter p⟩

/-- The members of the first set that are not in the second. -/
def diff (s t : OrderedSet α) : OrderedSet α :=
  s.filter fun a => !t.contains a

instance : SDiff (OrderedSet α) := ⟨diff⟩

/-- Every member of the first set is in the second. -/
def subset (s t : OrderedSet α) : Bool :=
  s.items.all t.contains

/-- The two sets have no member in common. -/
def disjoint (s t : OrderedSet α) : Bool :=
  !s.items.any t.contains

/-- Sets are equal when they have the same members. -/
def same (s t : OrderedSet α) : Bool :=
  s.subset t && t.subset s

instance : BEq (OrderedSet α) := ⟨same⟩

/-! ## Members -/

theorem mem_def {s : OrderedSet α} {a : α} : a ∈ s ↔ s.contains a = true := Iff.rfl

theorem mem_iff_exists {s : OrderedSet α} {a : α} : a ∈ s ↔ ∃ b ∈ s.items, (b == a) = true := by
  rw [mem_def, contains, List.any_eq_true]

theorem contains_eq_false_iff {s : OrderedSet α} {a : α} : s.contains a = false ↔ a ∉ s := by
  rw [mem_def, Bool.not_eq_true]

@[simp] theorem not_mem_empty (a : α) : a ∉ (∅ : OrderedSet α) := by
  simp [mem_iff_exists, EmptyCollection.emptyCollection, empty]

theorem mem_of_mem_items [ReflBEq α] {s : OrderedSet α} {a : α} (h : a ∈ s.items) : a ∈ s :=
  mem_iff_exists.2 ⟨a, h, BEq.rfl⟩

theorem mem_congr [PartialEquivBEq α] {s : OrderedSet α} {a b : α} (h : (a == b) = true) :
    a ∈ s ↔ b ∈ s := by
  simp only [mem_iff_exists]
  exact ⟨fun ⟨c, hc, hca⟩ => ⟨c, hc, BEq.trans hca h⟩,
    fun ⟨c, hc, hcb⟩ => ⟨c, hc, BEq.trans hcb (BEq.symm h)⟩⟩

theorem isEmpty_iff {s : OrderedSet α} : s.isEmpty = true ↔ s.items = [] := by
  rw [isEmpty, List.isEmpty_iff]

theorem eq_empty_of_isEmpty {s : OrderedSet α} (h : s.isEmpty = true) : s = ∅ := by
  obtain ⟨items, distinct⟩ := s
  obtain rfl := isEmpty_iff.mp h
  rfl

theorem isEmpty_iff_forall_not_mem [ReflBEq α] {s : OrderedSet α} :
    s.isEmpty = true ↔ ∀ a, a ∉ s := by
  rw [isEmpty_iff]
  constructor
  · intro h a ha
    obtain ⟨b, hb, _⟩ := mem_iff_exists.1 ha
    simp [h] at hb
  · intro h
    exact List.eq_nil_iff_forall_not_mem.2 fun a ha => h a (mem_of_mem_items ha)

theorem mem_insert [EquivBEq α] {s : OrderedSet α} {a b : α} :
    b ∈ s.insert a ↔ b ∈ s ∨ (a == b) = true := by
  unfold insert
  split
  · next h =>
    exact ⟨.inl, fun hb => hb.elim id fun hab => (mem_congr hab).1 h⟩
  · simp [mem_iff_exists, or_and_right, exists_or]

theorem items_insert_of_not_mem {s : OrderedSet α} {a : α} (h : a ∉ s) :
    (s.insert a).items = s.items ++ [a] := by
  rw [insert, dif_neg (mt mem_def.2 h)]

theorem size_insert_le (s : OrderedSet α) (a : α) : (s.insert a).size ≤ s.size + 1 := by
  unfold insert
  split
  · omega
  · simp [size]

theorem mem_insertAll [EquivBEq α] {s : OrderedSet α} {xs : List α} {b : α} :
    b ∈ s.insertAll xs ↔ b ∈ s ∨ ∃ a ∈ xs, (a == b) = true := by
  unfold insertAll
  induction xs generalizing s with
  | nil => simp
  | cons x xs ih => simp [ih, mem_insert, or_assoc]

theorem mem_ofList [EquivBEq α] {xs : List α} {b : α} :
    b ∈ ofList xs ↔ ∃ a ∈ xs, (a == b) = true := by
  rw [ofList, mem_insertAll]
  exact ⟨fun h => h.elim (fun h => absurd h (not_mem_empty b)) id, .inr⟩

theorem mem_singleton [EquivBEq α] {a b : α} : b ∈ ofList [a] ↔ (a == b) = true := by
  simp only [mem_ofList, List.mem_singleton, exists_eq_left]

theorem mem_union [EquivBEq α] {s t : OrderedSet α} {b : α} : b ∈ s ∪ t ↔ b ∈ s ∨ b ∈ t := by
  show b ∈ s.insertAll t.items ↔ _
  rw [mem_insertAll, mem_iff_exists (s := t)]

theorem mem_filter [PartialEquivBEq α] {s : OrderedSet α} {p : α → Bool} {b : α}
    (hp : ∀ a a', (a == a') = true → p a = p a') : b ∈ s.filter p ↔ b ∈ s ∧ p b = true := by
  simp only [mem_iff_exists, filter, List.mem_filter]
  constructor
  · rintro ⟨a, ⟨ha, hpa⟩, hab⟩
    exact ⟨⟨a, ha, hab⟩, hp a b hab ▸ hpa⟩
  · rintro ⟨⟨a, ha, hab⟩, hpb⟩
    exact ⟨a, ⟨ha, (hp a b hab).symm ▸ hpb⟩, hab⟩

theorem contains_congr [PartialEquivBEq α] {s : OrderedSet α} {a b : α} (h : (a == b) = true) :
    s.contains a = s.contains b :=
  Bool.eq_iff_iff.2 (mem_congr h)

theorem mem_sdiff [PartialEquivBEq α] {s t : OrderedSet α} {b : α} :
    b ∈ s \ t ↔ b ∈ s ∧ b ∉ t := by
  show b ∈ s.filter _ ↔ _
  rw [mem_filter fun a a' h => by rw [contains_congr h], mem_def (s := t)]
  simp

theorem mem_items_sdiff {s t : OrderedSet α} {a : α} :
    a ∈ (s \ t).items ↔ a ∈ s.items ∧ a ∉ t := by
  show a ∈ s.items.filter _ ↔ _
  rw [List.mem_filter, mem_def (s := t)]
  simp

theorem mem_items_of_mem_items_insert {s : OrderedSet α} {a b : α} (h : b ∈ (s.insert a).items) :
    b ∈ s.items ∨ b = a := by
  unfold insert at h
  split at h
  · exact .inl h
  · exact (List.mem_append.1 h).imp_right List.mem_singleton.1

theorem mem_items_of_mem_items_insertAll {s : OrderedSet α} {xs : List α} {a : α}
    (h : a ∈ (s.insertAll xs).items) : a ∈ s.items ∨ a ∈ xs := by
  unfold insertAll at h
  induction xs generalizing s with
  | nil => exact .inl h
  | cons x xs ih =>
    rcases ih (s := s.insert x) h with h | h
    · rcases mem_items_of_mem_items_insert h with h | rfl
      · exact .inl h
      · exact .inr List.mem_cons_self
    · exact .inr (List.mem_cons_of_mem x h)

theorem mem_of_mem_items_ofList {xs : List α} {a : α} (h : a ∈ (ofList xs).items) : a ∈ xs :=
  (mem_items_of_mem_items_insertAll h).elim (fun h => absurd h (by simp [empty])) id

theorem eq_of_mem_items_singleton {a b : α} (h : b ∈ (ofList [a]).items) : b = a :=
  List.mem_singleton.1 (mem_of_mem_items_ofList h)

theorem items_insertAll_of_distinct {s : OrderedSet α} {xs : List α}
    (h : (s.items ++ xs).Pairwise fun a b => (a == b) = false) :
    (s.insertAll xs).items = s.items ++ xs := by
  unfold insertAll
  induction xs generalizing s with
  | nil => simp
  | cons x xs ih =>
    have hnew : x ∉ s := by
      rw [mem_iff_exists]
      rintro ⟨b, hb, hbx⟩
      rw [(List.pairwise_append.1 h).2.2 b hb x List.mem_cons_self] at hbx
      cases hbx
    have hitems := items_insert_of_not_mem hnew
    rw [List.foldl_cons, ih (by simpa [hitems] using h), hitems, List.append_assoc]
    rfl

theorem items_ofList_of_distinct {xs : List α} (h : xs.Pairwise fun a b => (a == b) = false) :
    (ofList xs).items = xs :=
  items_insertAll_of_distinct (s := empty) h

theorem items_insertAll_of_new [PartialEquivBEq α] {s : OrderedSet α} {xs : List α}
    (hxs : xs.Pairwise fun a b => (a == b) = false) (hnew : ∀ x ∈ xs, x ∉ s) :
    (s.insertAll xs).items = s.items ++ xs := by
  apply items_insertAll_of_distinct
  refine List.pairwise_append.2 ⟨s.distinct, hxs, fun a ha x hx => ?_⟩
  rw [Bool.eq_false_iff]
  exact fun hax => hnew x hx (mem_iff_exists.2 ⟨a, ha, hax⟩)

theorem ofList_items (s : OrderedSet α) : ofList s.items = s := by
  have h := items_ofList_of_distinct s.distinct
  cases hs : ofList s.items
  cases s
  simp_all

theorem subset_iff [EquivBEq α] {s t : OrderedSet α} : s.subset t = true ↔ ∀ a, a ∈ s → a ∈ t := by
  rw [subset, List.all_eq_true]
  constructor
  · intro h a ha
    obtain ⟨b, hb, hba⟩ := mem_iff_exists.1 ha
    exact (mem_congr hba).1 (h b hb)
  · intro h a ha
    exact h a (mem_of_mem_items ha)

theorem disjoint_iff [EquivBEq α] {s t : OrderedSet α} :
    s.disjoint t = true ↔ ∀ a, a ∈ s → a ∉ t := by
  simp only [disjoint, Bool.not_eq_true', List.any_eq_false]
  constructor
  · intro h a ha hat
    obtain ⟨b, hb, hba⟩ := mem_iff_exists.1 ha
    exact h b hb ((mem_congr hba).2 hat)
  · intro h a ha
    exact h a (mem_of_mem_items ha)

theorem items_union_of_disjoint [EquivBEq α] {s t : OrderedSet α} (h : s.disjoint t = true) :
    (s ∪ t).items = s.items ++ t.items :=
  items_insertAll_of_new t.distinct fun a ha has =>
    disjoint_iff.1 h a has (mem_of_mem_items ha)

theorem beq_iff [EquivBEq α] {s t : OrderedSet α} : (s == t) = true ↔ ∀ a, a ∈ s ↔ a ∈ t := by
  show (s.subset t && t.subset s) = true ↔ _
  rw [Bool.and_eq_true, subset_iff, subset_iff]
  exact ⟨fun h a => ⟨h.1 a, h.2 a⟩, fun h => ⟨fun a => (h a).1, fun a => (h a).2⟩⟩

theorem union_assoc [EquivBEq α] (r s t : OrderedSet α) : ((r ∪ s) ∪ t == r ∪ (s ∪ t)) = true := by
  rw [beq_iff]
  intro a
  simp only [mem_union, or_assoc]

theorem union_congr [EquivBEq α] {s t s' t' : OrderedSet α} (hs : (s == s') = true)
    (ht : (t == t') = true) : (s ∪ t == s' ∪ t') = true := by
  rw [beq_iff] at *
  intro a
  rw [mem_union, mem_union, hs, ht]

theorem length_le_of_distinct [EquivBEq α] {xs ys : List α}
    (hxs : xs.Pairwise fun a b => (a == b) = false) (h : ∀ x ∈ xs, ∃ y ∈ ys, (y == x) = true) :
    xs.length ≤ ys.length := by
  induction xs generalizing ys with
  | nil => exact Nat.zero_le _
  | cons x xs ih =>
    obtain ⟨hx, hxs⟩ := List.pairwise_cons.1 hxs
    obtain ⟨y, hy, hyx⟩ := h x (by simp)
    obtain ⟨l, r, rfl⟩ := List.append_of_mem hy
    -- no later value of the list equals `y`, so each of them equals one of the others
    have hrest : ∀ x' ∈ xs, ∃ y' ∈ l ++ r, (y' == x') = true := by
      intro x' hx'
      obtain ⟨y', hy', hyx'⟩ := h x' (by simp [hx'])
      rcases List.mem_append.1 hy' with hy' | hy'
      · exact ⟨y', by simp [hy'], hyx'⟩
      · rcases List.mem_cons.1 hy' with rfl | hy'
        · have hne := hx x' hx'
          rw [BEq.trans (BEq.symm hyx) hyx'] at hne
          cases hne
        · exact ⟨y', by simp [hy'], hyx'⟩
    have := ih hxs hrest
    simp only [List.length_append, List.length_cons] at this ⊢
    omega

theorem length_le_size [EquivBEq α] {s : OrderedSet α} {xs : List α}
    (hxs : xs.Pairwise fun a b => (a == b) = false) (h : ∀ x ∈ xs, x ∈ s) : xs.length ≤ s.size :=
  length_le_of_distinct hxs fun x hx => mem_iff_exists.1 (h x hx)

/-- The number of values of a list that are not in the set: what a search has left to find. -/
def missing (s : OrderedSet α) (xs : List α) : Nat :=
  xs.countP fun a => !s.contains a

theorem missing_le {s t : OrderedSet α} {xs : List α} (h : ∀ a ∈ xs, a ∈ s → a ∈ t) :
    t.missing xs ≤ s.missing xs := by
  refine List.countP_mono_left fun a ha hat => ?_
  simp only [Bool.not_eq_true', contains_eq_false_iff] at hat ⊢
  exact fun has => hat (h a ha has)

theorem missing_lt {s t : OrderedSet α} {xs : List α} {a : α} (h : ∀ b ∈ xs, b ∈ s → b ∈ t)
    (ha : a ∈ xs) (has : a ∉ s) (hat : a ∈ t) : t.missing xs < s.missing xs := by
  obtain ⟨l, r, rfl⟩ := List.append_of_mem ha
  have hl : t.missing l ≤ s.missing l := missing_le fun b hb => h b (by simp [hb])
  have hr : t.missing r ≤ s.missing r := missing_le fun b hb => h b (by simp [hb])
  simp only [missing, List.countP_append, List.countP_cons] at hl hr ⊢
  rw [mem_def] at hat
  rw [← contains_eq_false_iff] at has
  simp only [hat, has, Bool.not_true, Bool.not_false, if_true]
  simp only [Bool.false_eq_true, if_false]
  omega

instance [EquivBEq α] : EquivBEq (OrderedSet α) where
  rfl := beq_iff.2 fun _ => Iff.rfl
  symm h := beq_iff.2 fun a => (beq_iff.1 h a).symm
  trans h₁ h₂ := beq_iff.2 fun a => (beq_iff.1 h₁ a).trans (beq_iff.1 h₂ a)

end OrderedSet

end EpsilonAutomata
