import EpsilonAutomata.Proofs.Automaton.Document

/-!
# Which automata can be stored

Text, numbers, truth values and tuples of them can be stored (`Value.isStorable`), and of anything else
the part that cannot is reported (`Value.toJson_eq_error`). But each field of a document is put in order
before it is written. So an automaton whose parts can all be stored is stored exactly if its states can
be compared with each other and its symbols too, and in every other case the first field that is in the
way decides: the states before the symbols, their order before their form
(`Automaton.toDocument_outcome`). Start, transitions and final states hold nothing but states and
symbols, and are never in the way.
-/

namespace EpsilonAutomata

open Outcome

/-! ## Values -/

namespace Value

mutual

/-- The value is text, a number, a truth value or a tuple of such values. -/
def isStorable : Value → Bool
  | bool _ => true
  | int _ => true
  | double _ => true
  | text _ => true
  | tuple xs => allStorable xs
  | _ => false

def allStorable : List Value → Bool
  | [] => true
  | x :: xs => isStorable x && allStorable xs

end

theorem allStorable_eq_all (xs : List Value) : allStorable xs = xs.all isStorable := by
  induction xs with
  | nil => rfl
  | cons x xs ih => rw [allStorable, ih, List.all_cons]

/-- The first value is the second one, or stands within it, in a tuple. -/
inductive IsPartOf (v : Value) : Value → Prop
  | refl : IsPartOf v v
  | item {x : Value} {xs : List Value} (hx : x ∈ xs) (h : IsPartOf v x) : IsPartOf v (tuple xs)

/-- A value that cannot be stored, by reason of the given part. -/
structure Unstorable (a v : Value) : Prop where
  part : v.IsPartOf a
  refused : v.isStorable = false
  toJson_eq : a.toJson = .error (.unstorable v)

theorem toJson_of_isStorable {a : Value} (h : a.isStorable = true) : ∃ j, a.toJson = .ok j := by
  match a with
  | bool b => exact ⟨.bool b, by rw [toJson]⟩
  | int i => exact ⟨.int i, by rw [toJson]⟩
  | double x => exact ⟨.double x, by rw [toJson]⟩
  | text s => exact ⟨.text s, by rw [toJson]⟩
  | tuple xs =>
    rw [isStorable, allStorable_eq_all, List.all_eq_true] at h
    obtain ⟨js, hjs⟩ := exists_mapM fun x hx => toJson_of_isStorable (h x hx)
    exact ⟨.array js, by rw [toJson, toJsonAll_eq_mapM, hjs]; rfl⟩
  | null | list _ | set _ | frozenSet _ | mapping _ | epsilon | marker _ _ => cases h
termination_by sizeOf a
decreasing_by
  simp_wf
  exact Nat.lt_trans (List.sizeOf_lt_of_mem hx) (by omega)

theorem toJson_eq_error {a : Value} (h : a.isStorable = false) : ∃ v, a.Unstorable v := by
  match a with
  | null | list _ | set _ | frozenSet _ | mapping _ | epsilon | marker _ _ =>
    exact ⟨_, .refl, h, by simp [toJson]⟩
  | tuple xs =>
    rw [isStorable, allStorable_eq_all, ← Bool.not_eq_true, List.all_eq_true] at h
    obtain ⟨x, hfirst⟩ : ∃ x, xs.find? (fun x => !x.isStorable) = some x := by
      rw [← Option.isSome_iff_exists, List.find?_isSome]
      simpa using h
    have hx := List.mem_of_find?_eq_some hfirst
    obtain ⟨v, hv⟩ := toJson_eq_error (a := x) (by simpa using List.find?_some hfirst)
    have hitems : xs.mapM toJson = .error (.unstorable v) :=
      mapM_eq_error_of_find? (fun y _ hy => toJson_of_isStorable (by simpa using hy)) hfirst hv.toJson_eq
    refine ⟨v, .item hx hv.part, hv.refused, ?_⟩
    rw [toJson, toJsonAll_eq_mapM, hitems]
    rfl
  | bool _ | int _ | double _ | text _ => cases h
termination_by sizeOf a
decreasing_by
  simp_wf
  exact Nat.lt_trans (List.sizeOf_lt_of_mem hx) (by omega)

/-! ### Equal values -/

theorem allStorable_congr {xs ys : List Value}
    (h : ∀ x ∈ xs, ∀ y, same x y = true → x.isStorable = y.isStorable)
    (hitems : sameItems xs ys = true) : allStorable xs = allStorable ys := by
  induction xs generalizing ys with
  | nil => cases ys <;> simp_all [sameItems]
  | cons x xs ih =>
    cases ys with
    | nil => simp [sameItems] at hitems
    | cons y ys =>
      rw [sameItems, Bool.and_eq_true] at hitems
      rw [allStorable, allStorable, h x List.mem_cons_self y hitems.1,
        ih (fun z hz => h z (List.mem_cons_of_mem x hz)) hitems.2]

theorem isStorable_congr {a b : Value} (h : same a b = true) : a.isStorable = b.isStorable := by
  match a with
  | null | bool _ | int _ | double _ | text _ | epsilon | marker _ _ =>
    have hscalar := scalar?_congr h
    cases b <;> simp_all [scalar?, isStorable]
  | tuple xs =>
    obtain ⟨ys, hys, hitems⟩ := (same_iff_of_sequence rfl b).mp h
    rcases eq_of_sequence hys with ⟨rfl, -⟩ | ⟨-, hk⟩
    · rw [isStorable, isStorable, allStorable_congr (fun x hx y => isStorable_congr) hitems]
    · cases hk
  | list _ | set _ | frozenSet _ | mapping _ =>
    cases b <;> simp_all [same, sameScalar, scalar?, members?, isStorable]
termination_by sizeOf a
decreasing_by
  simp_wf
  exact Nat.lt_trans (List.sizeOf_lt_of_mem hx) (by omega)

/-! ### The order of labels -/

theorem isSome_labelLt?_comm (a b : Value) : (labelLt? a b).isSome = (labelLt? b a).isSome := by
  rw [labelLt?_eq, labelLt?_eq, @BEq.comm _ _ _ b a, @BEq.comm _ _ _ b.labelPlace]
  split
  · split
    · rfl
    · exact isSome_lt?_comm a b
  · rfl

theorem labelLt?_tuple {xs ys : List Value} (h : (tuple xs == tuple ys) = false) :
    labelLt? (tuple xs) (tuple ys) = lt? (tuple xs) (tuple ys) := by
  simp [labelLt?, isEpsilon, kindRank, h]

theorem isSome_lt?_of_kindRank {a b : Value} (ha : a.isStorable = true) (hb : b.isStorable = true)
    (hkind : a.kindRank = b.kindRank) (htuple : ∀ xs, a ≠ tuple xs) : (lt? a b).isSome = true := by
  cases a <;> cases b <;> simp_all [isStorable, kindRank, lt?, ltNumbers?, quantity?, scalar?]

theorem eq_tuple_of_kindRank {a : Value} {xs : List Value} (h : (tuple xs).kindRank = a.kindRank) :
    ∃ ys, a = tuple ys := by
  cases a <;> simp_all [kindRank]

theorem eq_tuple_of_beq {a : Value} {xs : List Value} (h : (a == tuple xs) = true) :
    ∃ ys, a = tuple ys := by
  obtain ⟨ys, hys, -⟩ := (same_iff_of_sequence rfl a).mp (BEq.symm h)
  rcases eq_of_sequence hys with ⟨rfl, -⟩ | ⟨-, hk⟩
  · exact ⟨ys, rfl⟩
  · cases hk

end Value

/-! ## Lists in order -/

namespace Sorting

variable {α : Type} {lt : α → α → Option Bool} {store : α → Except Fault Json} {xs : List α}

/-- The items of a list, put in order and then stored one by one. -/
def storeInOrder (lt : α → α → Option Bool) (store : α → Except Fault Json) (xs : List α) :
    Except Fault (List Json) := do
  (← sorted lt xs).mapM store

theorem storeInOrder_eq_ok (h : xs.Pairwise fun a b => (lt a b).isSome = true)
    (hstore : ∀ x ∈ xs, ∃ j, store x = .ok j) : ∃ js, storeInOrder lt store xs = .ok js := by
  obtain ⟨ys, hys⟩ := sorted_eq_ok h
  obtain ⟨js, hjs⟩ := exists_mapM fun y hy => hstore y ((perm_of_sorted hys).mem_iff.mp hy)
  exact ⟨js, by rw [storeInOrder, hys]; exact hjs⟩

theorem storeInOrder_eq_incomparable (h : ¬ xs.Pairwise fun a b => (lt a b).isSome = true) :
    storeInOrder lt store xs = .error .incomparable := by
  rw [storeInOrder, sorted_eq_error h]
  rfl

theorem storeInOrder_eq_unstorable {lt : Value → Value → Option Bool} {xs : List Value}
    (h : xs.Pairwise fun a b => (lt a b).isSome = true) (hxs : ∃ x ∈ xs, x.isStorable = false) :
    ∃ x ∈ xs, ∃ v, x.Unstorable v ∧
      storeInOrder lt Value.toJson xs = .error (.unstorable v) := by
  obtain ⟨ys, hys⟩ := sorted_eq_ok h
  have hperm := perm_of_sorted hys
  obtain ⟨y, hfirst⟩ : ∃ y, ys.find? (fun y => !y.isStorable) = some y := by
    rw [← Option.isSome_iff_exists, List.find?_isSome]
    obtain ⟨x, hx, hrefused⟩ := hxs
    exact ⟨x, hperm.mem_iff.mpr hx, by simp [hrefused]⟩
  obtain ⟨v, hv⟩ := Value.toJson_eq_error (a := y) (by simpa using List.find?_some hfirst)
  refine ⟨y, hperm.mem_iff.mp (List.mem_of_find?_eq_some hfirst), v, hv, ?_⟩
  rw [storeInOrder, hys]
  exact mapM_eq_error_of_find? (fun z _ hz => Value.toJson_of_isStorable (by simpa using hz)) hfirst
    hv.toJson_eq

end Sorting

/-! ## Shapes -/

theorem ValueSet.Comparable.isSome_lt? {s : ValueSet} (h : Comparable s) {a b : Value} (ha : a ∈ s)
    (hb : b ∈ s) (hne : (a == b) = false) : (a.lt? b).isSome = true := by
  have hpair : Comparable (OrderedSet.ofList [a, b]) := by
    refine comparable_of_mem h fun c hc => OrderedSet.mem_iff_exists.mp ?_
    have hc := OrderedSet.mem_of_mem_items_ofList hc
    simp only [List.mem_cons, List.not_mem_nil, or_false] at hc
    rcases hc with rfl | rfl
    · exact ha
    · exact hb
  have hitems : (OrderedSet.ofList [a, b]).items = [a, b] :=
    OrderedSet.items_ofList_of_distinct (by simpa using hne)
  rw [Comparable, hitems] at hpair
  simpa using hpair

namespace Shape

variable {s : Shape}

/-- Every two symbols can be compared as labels. -/
def SymbolsComparable (s : Shape) : Prop :=
  s.alphabet.items.Pairwise fun x y => (x.labelLt? y).isSome = true

/-- Every state can be stored. -/
def StatesStorable (s : Shape) : Prop :=
  ∀ a ∈ s.states.items, a.isStorable = true

/-- Every symbol can be stored. -/
def SymbolsStorable (s : Shape) : Prop :=
  ∀ x ∈ s.alphabet.items, x.isStorable = true

instance (s : Shape) : Decidable s.SymbolsComparable :=
  inferInstanceAs (Decidable (s.alphabet.items.Pairwise _))

instance (s : Shape) : Decidable s.StatesStorable :=
  inferInstanceAs (Decidable (∀ a ∈ s.states.items, a.isStorable = true))

instance (s : Shape) : Decidable s.SymbolsStorable :=
  inferInstanceAs (Decidable (∀ x ∈ s.alphabet.items, x.isStorable = true))

theorem StatesStorable.isStorable (h : s.StatesStorable) {a : Value} (ha : a ∈ s.states) :
    a.isStorable = true := by
  obtain ⟨b, hb, hba⟩ := OrderedSet.mem_iff_exists.mp ha
  rw [← Value.isStorable_congr hba, h b hb]

theorem SymbolsStorable.isStorable (h : s.SymbolsStorable) {x : Value} (hx : x ∈ s.alphabet) :
    x.isStorable = true := by
  obtain ⟨y, hy, hyx⟩ := OrderedSet.mem_iff_exists.mp hx
  rw [← Value.isStorable_congr hyx, h y hy]

/-- Labels may have other kinds than the symbols that they equal, but tuples equal tuples only. -/
theorem SymbolsComparable.isSome_labelLt? (h : s.SymbolsComparable) (hstorable : s.SymbolsStorable)
    {x y : Value} (hx : x.isEpsilon = true ∨ x ∈ s.alphabet)
    (hy : y.isEpsilon = true ∨ y ∈ s.alphabet) : (x.labelLt? y).isSome = true := by
  unfold Value.labelLt?
  cases hepsilon : x.isEpsilon <;> cases hepsilon' : y.isEpsilon <;> try rfl
  replace hx := hx.resolve_left (by simp [hepsilon])
  replace hy := hy.resolve_left (by simp [hepsilon'])
  simp only
  split
  · next hkind =>
    split
    · rfl
    next hne =>
    by_cases htuple : ∃ xs, x = .tuple xs
    · -- the two symbols that these labels equal are tuples as well
      obtain ⟨xs, rfl⟩ := htuple
      obtain ⟨ys, rfl⟩ := Value.eq_tuple_of_kindRank hkind
      obtain ⟨a, ha, hax⟩ := OrderedSet.mem_iff_exists.mp hx
      obtain ⟨b, hb, hby⟩ := OrderedSet.mem_iff_exists.mp hy
      obtain ⟨as, rfl⟩ := Value.eq_tuple_of_beq hax
      obtain ⟨bs, rfl⟩ := Value.eq_tuple_of_beq hby
      have hab : (Value.tuple as == Value.tuple bs) = false := by
        rw [Bool.eq_false_iff]
        exact fun hab => hne (BEq.trans (BEq.symm hax) (BEq.trans hab hby))
      have hsymm : Std.Symm fun x y : Value => (x.labelLt? y).isSome = true :=
        ⟨fun x y hxy => Value.isSome_labelLt?_comm x y ▸ hxy⟩
      have hcomparable := h.forall ha hb fun heq => by simp [heq] at hab
      rw [Value.labelLt?_tuple hab] at hcomparable
      rwa [← Value.lt?_congr _ _ _ _ hax hby]
    · exact Value.isSome_lt?_of_kindRank (hstorable.isStorable hx) (hstorable.isStorable hy) hkind
        fun xs hxs => htuple ⟨xs, hxs⟩
  · rfl

theorem isSome_transition_lt? {t u : Transition}
    (hsource : (t.source == u.source) = false → (t.source.lt? u.source).isSome = true)
    (hlabel : (t.label.labelLt? u.label).isSome = true)
    (htarget : (t.target == u.target) = false → (t.target.lt? u.target).isSome = true) :
    (t.lt? u).isSome = true := by
  unfold Transition.lt?
  split
  · split
    · split
      · rfl
      · next hne => exact htarget (by simpa using hne)
    · exact hlabel
  · next hne => exact hsource (by simpa using hne)

theorem Sound.transitions_comparable (hs : s.Sound) (hstates : ValueSet.Comparable s.states)
    (hsymbols : s.SymbolsComparable) (hstorable : s.SymbolsStorable) :
    s.transitions.items.Pairwise fun t u => (t.lt? u).isSome = true := by
  refine s.transitions.distinct.imp_of_mem fun {t u} ht hu _ => ?_
  obtain ⟨hsource, htarget, hlabel⟩ := hs.move_mem t (OrderedSet.mem_of_mem_items ht)
  obtain ⟨hsource', htarget', hlabel'⟩ := hs.move_mem u (OrderedSet.mem_of_mem_items hu)
  exact isSome_transition_lt? (hstates.isSome_lt? hsource hsource')
    (hsymbols.isSome_labelLt? hstorable hlabel hlabel') (hstates.isSome_lt? htarget htarget')

theorem Sound.exists_transitionToJson (hs : s.Sound) (hstates : s.StatesStorable)
    (hsymbols : s.SymbolsStorable) {t : Transition} (ht : t ∈ s.transitions.items) :
    ∃ j, Automaton.transitionToJson t = .ok j := by
  obtain ⟨hsource, htarget, hlabel⟩ := hs.move_mem t (OrderedSet.mem_of_mem_items ht)
  obtain ⟨source, hsource⟩ := Value.toJson_of_isStorable (hstates.isStorable hsource)
  obtain ⟨target, htarget⟩ := Value.toJson_of_isStorable (hstates.isStorable htarget)
  obtain ⟨label, hlabel⟩ : ∃ j, t.label.labelToJson = .ok j := by
    unfold Value.labelToJson
    split
    · exact ⟨.null, rfl⟩
    · next hsymbol => exact Value.toJson_of_isStorable (hsymbols.isStorable (hlabel.resolve_left hsymbol))
  exact ⟨.array [source, label, target], by
    rw [Automaton.transitionToJson, hsource, hlabel, htarget]; rfl⟩

end Shape

/-! ## Automata -/

namespace Automaton

open Sorting (storeInOrder storeInOrder_eq_ok storeInOrder_eq_incomparable storeInOrder_eq_unstorable)

variable {n : Automaton}

theorem toDocument_eq (n : Automaton) : n.toDocument = (do
    let states ← storeInOrder Value.lt? Value.toJson n.states.items
    let alphabet ← storeInOrder Value.labelLt? Value.toJson n.alphabet.items
    let start ← n.initial.toJson
    let transitions ← storeInOrder Transition.lt? transitionToJson n.transitions.items
    let finals ← storeInOrder Value.lt? Value.toJson n.finals.items
    return document states alphabet start transitions finals) := by
  simp only [toDocument, storeInOrder, bind_assoc]
  rfl

theorem toDocument_eq_ok (hn : n.Valid) (hcomparable : ValueSet.Comparable n.states)
    (hstates : n.StatesStorable) (hcomparable' : n.SymbolsComparable) (hsymbols : n.SymbolsStorable) :
    ∃ d, n.toDocument = .ok d := by
  have hfinal {f : Value} (hf : f ∈ n.finals.items) : f ∈ n.states :=
    hn.sound.final_mem f (OrderedSet.mem_of_mem_items hf)
  obtain ⟨states, h₁⟩ := storeInOrder_eq_ok hcomparable fun a ha =>
    Value.toJson_of_isStorable (hstates a ha)
  obtain ⟨alphabet, h₂⟩ := storeInOrder_eq_ok hcomparable' fun x hx =>
    Value.toJson_of_isStorable (hsymbols x hx)
  obtain ⟨start, h₃⟩ := Value.toJson_of_isStorable (hstates.isStorable hn.sound.start_mem)
  obtain ⟨transitions, h₄⟩ := storeInOrder_eq_ok
    (hn.sound.transitions_comparable hcomparable hcomparable' hsymbols) fun t ht =>
      hn.sound.exists_transitionToJson hstates hsymbols ht
  obtain ⟨finals, h₅⟩ := storeInOrder_eq_ok
    (ValueSet.comparable_of_mem hcomparable fun f hf => OrderedSet.mem_iff_exists.mp (hfinal hf))
    fun f hf => Value.toJson_of_isStorable (hstates.isStorable (hfinal hf))
  exact ⟨document states alphabet start transitions finals, by
    rw [toDocument_eq, h₁, h₂, h₃, h₄, h₅]; rfl⟩

/-- A state or a symbol that cannot be stored, by reason of the given part. -/
def Refuses (n : Automaton) (v : Value) : Prop :=
  ∃ a, (a ∈ n.states.items ∨ a ∈ n.alphabet.items) ∧ a.Unstorable v

theorem toDocument_of_states (hcomparable : ValueSet.Comparable n.states)
    (hstates : ¬ n.StatesStorable) : ∃ v, n.Refuses v ∧ n.toDocument = .error (.unstorable v) := by
  obtain ⟨a, ha, v, hv, hstore⟩ := storeInOrder_eq_unstorable hcomparable
    (by simpa [Shape.StatesStorable] using hstates)
  exact ⟨v, ⟨a, .inl ha, hv⟩, by rw [toDocument_eq, hstore]; rfl⟩

theorem toDocument_of_symbols (hcomparable : ValueSet.Comparable n.states)
    (hstates : n.StatesStorable) (hcomparable' : n.SymbolsComparable)
    (hsymbols : ¬ n.SymbolsStorable) :
    ∃ v, n.Refuses v ∧ n.toDocument = .error (.unstorable v) := by
  obtain ⟨states, hstored⟩ := storeInOrder_eq_ok hcomparable fun a ha =>
    Value.toJson_of_isStorable (hstates a ha)
  obtain ⟨x, hx, v, hv, hstore⟩ := storeInOrder_eq_unstorable hcomparable'
    (by simpa [Shape.SymbolsStorable] using hsymbols)
  exact ⟨v, ⟨x, .inr hx, hv⟩, by rw [toDocument_eq, hstored, hstore]; rfl⟩

theorem toDocument_of_states_incomparable (h : ¬ ValueSet.Comparable n.states) :
    n.toDocument = .error .incomparable := by
  rw [toDocument_eq, storeInOrder_eq_incomparable h]
  rfl

theorem toDocument_of_symbols_incomparable (hcomparable : ValueSet.Comparable n.states)
    (hstates : n.StatesStorable) (h : ¬ n.SymbolsComparable) :
    n.toDocument = .error .incomparable := by
  obtain ⟨states, hstored⟩ := storeInOrder_eq_ok hcomparable fun a ha =>
    Value.toJson_of_isStorable (hstates a ha)
  rw [toDocument_eq, hstored, storeInOrder_eq_incomparable h]
  rfl

/-- An automaton is stored exactly if its states and symbols can be stored and compared. Otherwise it
is refused with a part that cannot be stored, unless the order is in the way first: that of the states,
or that of the symbols where all states can be stored. -/
theorem toDocument_outcome (hn : n.Valid) :
    ((∃ d, n.toDocument = .ok d) ↔ (n.StatesStorable ∧ n.SymbolsStorable) ∧
      ValueSet.Comparable n.states ∧ n.SymbolsComparable) ∧
    ((∃ v, n.Refuses v ∧ n.toDocument = .error (.unstorable v)) ↔
      ¬ (n.StatesStorable ∧ n.SymbolsStorable) ∧
        ValueSet.Comparable n.states ∧ (n.StatesStorable → n.SymbolsComparable)) ∧
    (n.toDocument = .error .incomparable ↔
      ¬ ValueSet.Comparable n.states ∨ n.StatesStorable ∧ ¬ n.SymbolsComparable) := by
  by_cases hcomparable : ValueSet.Comparable n.states
  · by_cases hstates : n.StatesStorable
    · by_cases hcomparable' : n.SymbolsComparable
      · by_cases hsymbols : n.SymbolsStorable
        · obtain ⟨d, hd⟩ := toDocument_eq_ok hn hcomparable hstates hcomparable' hsymbols
          simp [hd, hcomparable, hstates, hcomparable', hsymbols]
        · obtain ⟨v, hv, hd⟩ := toDocument_of_symbols hcomparable hstates hcomparable' hsymbols
          simp [hd, hv, hcomparable, hstates, hcomparable', hsymbols]
      · have hd := toDocument_of_symbols_incomparable hcomparable hstates hcomparable'
        simp [hd, hcomparable, hstates, hcomparable']
    · obtain ⟨v, hv, hd⟩ := toDocument_of_states hcomparable hstates
      simp [hd, hv, hcomparable, hstates]
  · have hd := toDocument_of_states_incomparable hcomparable
    simp [hd, hcomparable]

/-- Two moves side by side whose symbols are tuples of one item. -/
def tupled (x y : Value) : Shape where
  states := .ofList [.int 1, .int 2]
  alphabet := .ofList [.tuple [x], .tuple [y]]
  initial := .int 1
  transitions := .ofList [⟨.int 1, .tuple [x], .int 2⟩, ⟨.int 1, .tuple [y], .int 2⟩]
  finals := .ofList [.int 2]

theorem tupled_made {x y : Value}
    (h : Shape.ofValues (.list [.int 1, .int 2]) (.list [.tuple [x], .tuple [y]]) (.int 1)
      (.list [.tuple [.int 1, .tuple [x], .int 2], .tuple [.int 1, .tuple [y], .int 2]])
      (.list [.int 2]) = .ok (tupled x y))
    (hsound : (tupled x y).violations.isEmpty = true) : (ofShape (tupled x y)).Made :=
  made_ofShape _ _ _ _ _ h (List.isEmpty_iff.mp hsound) rfl

/-- An automaton that is stored, and one that is refused: a null stands two tuples deep within a symbol
that can be compared with the other one. -/
theorem toDocument_outcome_nested :
    let n := ofShape mixed
    let m := ofShape (tupled (.tuple [.null]) (.tuple []))
    (n.Valid ∧ m.Valid) ∧ (∃ d, n.toDocument = .ok d) ∧
      ∃ v, m.Refuses v ∧ m.toDocument = .error (.unstorable v) := by
  intro n m
  have hn : n.Valid := mixed_made.valid
  have hm : m.Valid := (tupled_made rfl (by decide +kernel)).valid
  refine ⟨⟨hn, hm⟩, (toDocument_outcome hn).1.mpr ?_, (toDocument_outcome hm).2.1.mpr ?_⟩
  · exact ⟨⟨by decide +kernel, by decide +kernel⟩, by decide +kernel, by decide +kernel⟩
  · exact ⟨by decide +kernel, by decide +kernel, by decide +kernel⟩

/-- A text and a number in tuples can both be stored, and a null cannot. But neither of them can be
compared with the number, and that is what is reported of either automaton. -/
theorem toDocument_incomparable :
    let n := ofShape (tupled (.text "a") (.int 1))
    let m := ofShape (tupled .null (.int 1))
    (n.Made ∧ n.StatesStorable ∧ n.SymbolsStorable ∧ n.toDocument = .error .incomparable) ∧
      (m.Made ∧ ¬ m.SymbolsStorable ∧ m.toDocument = .error .incomparable) ∧
      Fault.incomparable.family ≠ .automaton := by
  intro n m
  have hn : n.toDocument = .error .incomparable :=
    toDocument_of_symbols_incomparable (by decide +kernel) (by decide +kernel) (by decide +kernel)
  have hm : m.toDocument = .error .incomparable :=
    toDocument_of_symbols_incomparable (by decide +kernel) (by decide +kernel) (by decide +kernel)
  exact ⟨⟨tupled_made rfl (by decide +kernel), by decide +kernel, by decide +kernel, hn⟩,
    ⟨tupled_made rfl (by decide +kernel), by decide +kernel, hm⟩, by decide⟩

end Automaton

end EpsilonAutomata
