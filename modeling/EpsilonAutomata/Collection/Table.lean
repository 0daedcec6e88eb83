import EpsilonAutomata.Collection.OrderedSet

/-!
# Tables

A table assigns a set to each key, the empty set to all but finitely many. It is filled entry by
entry; main statement `mem_get_add`: an entry adds one member to the set of its key and changes no
other set.
-/

namespace EpsilonAutomata

/-- Rows of a key and its set. -/
structure Table (κ α : Type) [BEq κ] [BEq α] where
  rows : List (κ × OrderedSet α)

namespace Table

variable {κ α : Type} [BEq κ] [BEq α]

/-- The table that assigns the empty set to every key. -/
def empty : Table κ α := ⟨[]⟩

/-- The set in the first row of the key. -/
def getRow (k : κ) : List (κ × OrderedSet α) → OrderedSet α
  | [] => ∅
  | (k', s) :: rows => if k' == k then s else getRow k rows

/-- The set of a key. -/
def get (t : Table κ α) (k : κ) : OrderedSet α :=
  getRow k t.rows

/-- Adds a member to the first row of the key, or a row at the end. -/
def addRow (k : κ) (a : α) : List (κ × OrderedSet α) → List (κ × OrderedSet α)
  | [] => [(k, OrderedSet.empty.insert a)]
  | (k', s) :: rows => if k' == k then (k', s.insert a) :: rows else (k', s) :: addRow k a rows

/-- The rows with the set of a key replaced, or a row at the end. -/
def setRow (k : κ) (s : OrderedSet α) : List (κ × OrderedSet α) → List (κ × OrderedSet α)
  | [] => [(k, s)]
  | (k', s') :: rows => if k' == k then (k', s) :: rows else (k', s') :: setRow k s rows

/-- The table with one more member in the set of a key. -/
def add (t : Table κ α) (k : κ) (a : α) : Table κ α :=
  ⟨addRow k a t.rows⟩

/-- Every member of every set, row by row. -/
def targets (t : Table κ α) : List α :=
  t.rows.flatMap fun r => r.2.items

/-- The number of members in those rows of a list whose key is not in a set. -/
def rowsOutside (done : OrderedSet κ) : List (κ × OrderedSet α) → Nat
  | [] => 0
  | r :: rows => (if done.contains r.1 then 0 else r.2.size) + rowsOutside done rows

/-- The number of members of the sets whose key is not done yet. -/
def weightOutside (done : OrderedSet κ) (t : Table κ α) : Nat :=
  rowsOutside done t.rows

/-! ## Laws -/

@[simp] theorem not_mem_get_empty (k : κ) (b : α) : b ∉ (empty : Table κ α).get k := by
  simp [get, empty, getRow]

theorem mem_get_add [EquivBEq κ] [EquivBEq α] {t : Table κ α} {k k' : κ} {a b : α} :
    b ∈ (t.add k a).get k' ↔ b ∈ t.get k' ∨ ((k == k') = true ∧ (a == b) = true) := by
  unfold get add
  induction t.rows with
  | nil =>
    simp only [addRow, getRow]
    split
    · next h =>
      rw [OrderedSet.mem_insert]
      simp only [h, true_and]
      rfl
    · next h => simp [h]
  | cons r rows ih =>
    obtain ⟨c, s⟩ := r
    simp only [addRow]
    split
    · next hck =>
      simp only [getRow]
      by_cases hk : (k == k') = true
      · have hck' : (c == k') = true := BEq.trans hck hk
        simp [hck', hk, OrderedSet.mem_insert]
      · have hck' : ¬ (c == k') = true := fun h => hk (BEq.trans (BEq.symm hck) h)
        simp [hck', hk]
    · next hck =>
      simp only [getRow]
      split
      · next hck' =>
        have hk : ¬ (k == k') = true := fun h => hck (BEq.trans hck' (BEq.symm h))
        simp [hk]
      · exact ih

theorem exists_row_of_mem_getRow {k : κ} {a : α} {rows : List (κ × OrderedSet α)}
    (h : a ∈ (getRow k rows).items) : ∃ r ∈ rows, a ∈ r.2.items := by
  induction rows with
  | nil => exact absurd h (by simp [getRow, EmptyCollection.emptyCollection, OrderedSet.empty])
  | cons r rows ih =>
    obtain ⟨c, s⟩ := r
    rw [getRow] at h
    split at h
    · exact ⟨(c, s), by simp, h⟩
    · obtain ⟨r, hr, ha⟩ := ih h
      exact ⟨r, by simp [hr], ha⟩

theorem mem_targets_of_mem_get {t : Table κ α} {k : κ} {a : α} (h : a ∈ (t.get k).items) :
    a ∈ t.targets :=
  List.mem_flatMap.2 (exists_row_of_mem_getRow h)

theorem mem_targets_add {t : Table κ α} {k : κ} {a b : α} (h : b ∈ (t.add k a).targets) :
    b ∈ t.targets ∨ b = a := by
  obtain ⟨rows⟩ := t
  show b ∈ rows.flatMap (fun r => r.2.items) ∨ b = a
  replace h : b ∈ (addRow k a rows).flatMap fun r => r.2.items := h
  induction rows with
  | nil =>
    rw [addRow, List.flatMap_singleton] at h
    exact .inr ((OrderedSet.mem_items_of_mem_items_insert h).resolve_left List.not_mem_nil)
  | cons r rows ih =>
    obtain ⟨c, s⟩ := r
    rw [addRow] at h
    rw [List.flatMap_cons, List.mem_append]
    split at h
    · rcases List.mem_append.1 h with h | h
      · exact (OrderedSet.mem_items_of_mem_items_insert h).imp_left .inl
      · exact .inl (.inr h)
    · rcases List.mem_append.1 h with h | h
      · exact .inl (.inl h)
      · exact (ih h).imp_left .inr

theorem exists_of_mem_targets_foldl {τ : Type} {fill : Table κ α → τ → Table κ α} {target : τ → α}
    (hfill : ∀ table t, ∀ b ∈ (fill table t).targets, b ∈ table.targets ∨ b = target t)
    {ts : List τ} {b : α} (h : b ∈ (ts.foldl fill empty).targets) : ∃ t ∈ ts, target t = b := by
  revert b
  refine List.foldlRecOn (motive := fun table => ∀ {b}, b ∈ table.targets → ∃ t ∈ ts, target t = b)
    ts fill ?_ ?_
  · intro b hb
    cases hb
  · intro table ih t ht b hb
    rcases hfill table t b hb with hb | rfl
    · exact ih hb
    · exact ⟨t, ht, rfl⟩

theorem rowsOutside_insert_le [EquivBEq κ] (done : OrderedSet κ) (k : κ)
    (rows : List (κ × OrderedSet α)) :
    rowsOutside (done.insert k) rows ≤ rowsOutside done rows := by
  induction rows with
  | nil => exact Nat.le_refl _
  | cons r rows ih =>
    have hr : (if (done.insert k).contains r.1 then 0 else r.2.size) ≤
        if done.contains r.1 then 0 else r.2.size := by
      by_cases hd : r.1 ∈ done
      · have hk : (done.insert k).contains r.1 = true := OrderedSet.mem_insert.2 (.inl hd)
        simp [hk]
      · rw [← OrderedSet.contains_eq_false_iff] at hd
        rw [hd]
        split <;> simp
    simp only [rowsOutside]
    omega

theorem weightOutside_insert_add_size_le [EquivBEq κ] {t : Table κ α} {done : OrderedSet κ}
    {k : κ} (h : k ∉ done) :
    t.weightOutside (done.insert k) + (t.get k).size ≤ t.weightOutside done := by
  unfold weightOutside get
  induction t.rows with
  | nil => simp [getRow, EmptyCollection.emptyCollection, OrderedSet.empty, OrderedSet.size,
      rowsOutside]
  | cons r rows ih =>
    obtain ⟨c, s⟩ := r
    simp only [getRow, rowsOutside]
    by_cases hc : (c == k) = true
    · have hnew : (done.insert k).contains c = true :=
        OrderedSet.mem_insert.2 (.inr (BEq.symm hc))
      have hold : done.contains c = false :=
        OrderedSet.contains_eq_false_iff.2 fun h' => h ((OrderedSet.mem_congr hc).1 h')
      have := rowsOutside_insert_le done k rows
      simp only [hc, hnew, hold, if_true, Bool.false_eq_true, if_false]
      omega
    · have := rowsOutside_insert_le done k [(c, s)]
      simp only [rowsOutside, Nat.add_zero] at this
      simp only [hc, Bool.false_eq_true, if_false]
      omega

end Table

end EpsilonAutomata
