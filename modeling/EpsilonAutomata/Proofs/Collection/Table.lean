import EpsilonAutomata.Collection.Table
import EpsilonAutomata.Proofs.Outcome

/-!
# Keys and rows of tables

A table that is filled entry by entry has different keys, each of them the key of some entry
(`keyed_foldl`), and no more members than entries (`weightOutside_add_le`). Rows with different keys are put back one behind the other (`foldl_setRow`), and rows
that stand for others assign the same to every key (`mem_getRow_congr`).
-/

namespace EpsilonAutomata

namespace Table

variable {κ α : Type} [BEq κ] [BEq α]

def keys (t : Table κ α) : List κ := t.rows.map (·.1)

theorem keys_add (t : Table κ α) (k : κ) (a : α) :
    (t.add k a).keys = t.keys ∨
      (∀ c ∈ t.keys, (c == k) = false) ∧ (t.add k a).keys = t.keys ++ [k] := by
  obtain ⟨rows⟩ := t
  show (addRow k a rows).map (·.1) = rows.map (·.1) ∨
    (∀ c ∈ rows.map (·.1), (c == k) = false) ∧ (addRow k a rows).map (·.1) = rows.map (·.1) ++ [k]
  induction rows with
  | nil => exact .inr ⟨by simp, rfl⟩
  | cons r rows ih =>
    obtain ⟨c, s⟩ := r
    rw [addRow]
    split
    · exact .inl rfl
    · next hck =>
      rcases ih with hkeys | ⟨hnew, hkeys⟩
      · exact .inl (by rw [List.map_cons, hkeys, List.map_cons])
      · refine .inr ⟨List.forall_mem_cons.mpr ⟨by simpa using hck, hnew⟩, ?_⟩
        rw [List.map_cons, hkeys, List.map_cons, List.cons_append]

/-- The keys are different, and each is as required. -/
structure Keyed (p : κ → Prop) (t : Table κ α) : Prop where
  distinct : t.keys.Pairwise fun c d => (c == d) = false
  keys : ∀ k ∈ t.keys, p k

theorem Keyed.add {p : κ → Prop} {t : Table κ α} (h : t.Keyed p) {k : κ} (hk : p k) (a : α) :
    (t.add k a).Keyed p := by
  rcases keys_add t k a with hkeys | ⟨hnew, hkeys⟩
  · exact ⟨hkeys ▸ h.distinct, hkeys ▸ h.keys⟩
  · constructor
    · rw [hkeys]
      refine List.pairwise_append.mpr ⟨h.distinct, List.pairwise_singleton .., fun c hc d hd => ?_⟩
      obtain rfl := List.mem_singleton.mp hd
      exact hnew c hc
    · rw [hkeys]
      intro d hd
      rcases List.mem_append.mp hd with hd | hd
      · exact h.keys d hd
      · obtain rfl := List.mem_singleton.mp hd
        exact hk

theorem keyed_foldl {τ : Type} {p : κ → Prop} {fill : Table κ α → τ → Table κ α} {ts : List τ}
    (hfill : ∀ table, table.Keyed p → ∀ t ∈ ts, (fill table t).Keyed p) :
    (ts.foldl fill empty).Keyed p :=
  List.foldlRecOn ts fill ⟨.nil, by simp [empty, Table.keys]⟩ hfill

/-- An entry adds one at most to the members of the rows, whichever rows count. -/
theorem weightOutside_add_le (done : OrderedSet κ) (t : Table κ α) (k : κ) (a : α) :
    (t.add k a).weightOutside done ≤ t.weightOutside done + 1 := by
  obtain ⟨rows⟩ := t
  show rowsOutside done (addRow k a rows) ≤ rowsOutside done rows + 1
  induction rows with
  | nil =>
    have hone := (OrderedSet.empty : OrderedSet α).size_insert_le a
    have hempty : (OrderedSet.empty : OrderedSet α).size = 0 := rfl
    simp only [addRow, rowsOutside]
    split <;> omega
  | cons r rows ih =>
    obtain ⟨c, s⟩ := r
    have hone := s.size_insert_le a
    rw [addRow]
    split <;> simp only [rowsOutside]
    · split <;> omega
    · omega

/-! ## Rows that are put back -/

theorem setRow_of_new {k : κ} {s : OrderedSet α} {rows : List (κ × OrderedSet α)}
    (h : ∀ r ∈ rows, (r.1 == k) = false) : setRow k s rows = rows ++ [(k, s)] := by
  induction rows with
  | nil => rfl
  | cons r rows ih =>
    obtain ⟨hr, hrest⟩ := List.forall_mem_cons.mp h
    rw [setRow, if_neg (by simp [hr]), ih hrest]
    rfl

theorem foldl_setRow {rows new : List (κ × OrderedSet α)}
    (h : (rows ++ new).Pairwise fun r r' => (r.1 == r'.1) = false) :
    new.foldl (fun rows r => setRow r.1 r.2 rows) rows = rows ++ new := by
  induction new generalizing rows with
  | nil => simp
  | cons r new ih =>
    have hnew : ∀ r' ∈ rows, (r'.1 == r.1) = false :=
      fun r' hr' => (List.pairwise_append.mp h).2.2 r' hr' r List.mem_cons_self
    rw [List.foldl_cons, setRow_of_new hnew, ih (by simpa using h), List.append_assoc]
    rfl

/-- A row that stands for another: the keys are equal, and the sets are. -/
def SameRow (r r' : κ × OrderedSet α) : Prop :=
  (r.1 == r'.1) = true ∧ (r.2 == r'.2) = true

variable [EquivBEq κ] {rows rows' : List (κ × OrderedSet α)}

theorem distinct_of_sameRow (h : List.Forall₂ SameRow rows' rows)
    (hrows : (rows.map (·.1)).Pairwise fun c d => (c == d) = false) :
    rows'.Pairwise fun r r' => (r.1 == r'.1) = false := by
  induction h with
  | nil => exact .nil
  | @cons r' r rows' rows hr hrest ih =>
    obtain ⟨hhead, htail⟩ := List.pairwise_cons.mp hrows
    refine List.pairwise_cons.mpr ⟨fun q' hq' => ?_, ih htail⟩
    obtain ⟨q, hq, hsame⟩ := Outcome.exists_of_forall₂ hrest hq'
    rw [Bool.eq_false_iff]
    intro h
    have hkeys : (r.1 == q.1) = true := BEq.trans (BEq.symm hr.1) (BEq.trans h hsame.1)
    rw [hhead q.1 (List.mem_map_of_mem hq)] at hkeys
    cases hkeys

theorem mem_getRow_congr [EquivBEq α] (h : List.Forall₂ SameRow rows' rows) {k : κ} {a : α} :
    a ∈ getRow k rows' ↔ a ∈ getRow k rows := by
  induction h with
  | nil => exact Iff.rfl
  | @cons r' r rows' rows hr _ ih =>
    obtain ⟨c', s'⟩ := r'
    obtain ⟨c, s⟩ := r
    have hkey : (c' == k) = (c == k) :=
      Bool.eq_iff_iff.mpr ⟨BEq.trans (BEq.symm hr.1), BEq.trans hr.1⟩
    rw [getRow, getRow, hkey]
    split
    · exact OrderedSet.beq_iff.mp hr.2 a
    · exact ih

end Table

end EpsilonAutomata
