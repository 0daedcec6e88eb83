import EpsilonAutomata.Proofs.Automaton.Alike
import EpsilonAutomata.Proofs.Automaton.Invariants
import EpsilonAutomata.Proofs.Collection.Table
import EpsilonAutomata.Proofs.Value.Restored

/-!
# Copies from a snapshot

A copy comes back without being asked for its invariants, and with the lookup tables that were in use.
If all scalars in an automaton last then the parts of the copy equal those that were there
(`Shape.restored_settles`), and a table that comes back assigns to each key what it did
(`Table.restored_settles`). So the copy keeps the invariants and is closed as an automaton made anew from
its parts (`snapshot_beq_iff`). If one does not last then the copy is another automaton. An undefined
number comes back as another one; a marker that has the name of the mark of the empty move comes back as
the mark, which may be no symbol (`snapshot_disguised`).
-/

namespace EpsilonAutomata

open Outcome

/-! ## Parts that come back -/

theorem ValueSet.restored_settles {s : ValueSet}
    (h : ∀ x ∈ Value.scalarsOf s.items, x.isLasting = true) :
    Settles (ValueSet.restored s) fun s' => (s' == s) = true ∧
      ((∀ a ∈ s.items, a.hashable = true) → ∀ a ∈ s'.items, a.hashable = true) := by
  apply (Value.restoredAll_settles s.items h).map
  rintro ys ⟨hitems, hhash⟩
  constructor
  · have hsame := (SameMembers.of_beq (Value.sameItems_iff_beq.mp hitems)).ofList
    rwa [OrderedSet.ofList_items] at hsame
  · intro hs a ha
    rw [← Value.allHashable_iff, ← hhash, Value.allHashable_iff] at hs
    exact hs a (OrderedSet.mem_of_mem_items_ofList ha)

theorem ValueSet.restored_renewed (first : Nat) (s : ValueSet) :
    Yields first (ValueSet.restored s) fun s' =>
      ∀ x ∈ Value.scalarsOf s'.items, x.isRenewed first = true :=
  (Value.restoredAll_renewed first s.items).map fun ys hys x hx =>
    hys x (Value.scalarsOf_ofList ys hx)

theorem ValueSet.scalars_subset {s s' : ValueSet} (h : (s' == s) = true) :
    Value.scalarsOf s.items ⊆ Value.scalarsOf s'.items := by
  intro x hx
  obtain ⟨a, ha, hxa⟩ := Value.mem_scalarsOf.mp hx
  obtain ⟨b, hb, hba⟩ := OrderedSet.mem_iff_exists.mp
    ((OrderedSet.beq_iff.mp h a).mpr (OrderedSet.mem_of_mem_items ha))
  exact Value.mem_scalarsOf.mpr ⟨b, hb, Value.scalars_subset a b (BEq.symm hba) hxa⟩

namespace Transition

variable {t u : Transition}

def scalars (t : Transition) : List Scalar :=
  t.source.scalars ++ t.label.scalars ++ t.target.scalars

def Lasting (t : Transition) : Prop :=
  ∀ x ∈ t.scalars, x.isLasting = true

theorem lasting_iff : t.Lasting ↔ t.source.Lasting ∧ t.label.Lasting ∧ t.target.Lasting := by
  rw [Lasting, scalars, List.forall_mem_append, List.forall_mem_append, and_assoc]
  rfl

theorem restored_settles (h : t.Lasting) :
    Settles t.restored fun t' => (t' == t) = true ∧ t'.hashable = t.hashable := by
  obtain ⟨hsource, hlabel, htarget⟩ := lasting_iff.mp h
  apply (Value.restored_settles _ hsource).bind
  intro a ha
  apply (Value.restored_settles _ hlabel).bind
  intro x hx
  apply (Value.restored_settles _ htarget).bind
  intro b hb
  refine settles_pure ⟨beq_iff.mpr ⟨ha.beq, hx.beq, hb.beq⟩, ?_⟩
  rw [hashable, hashable, ha.hashable, hx.hashable, hb.hashable]

theorem restored_renewed (first : Nat) (t : Transition) :
    Yields first t.restored fun t' => ∀ x ∈ t'.scalars, x.isRenewed first = true := by
  refine (Value.restored_renewed first t.source).bind fun a ha => ?_
  refine (Value.restored_renewed first t.label).bind fun x hx => ?_
  refine (Value.restored_renewed first t.target).bind fun b hb => ?_
  exact yields_pure (List.forall_mem_append.mpr ⟨List.forall_mem_append.mpr ⟨ha, hx⟩, hb⟩)

theorem scalars_subset (h : (t == u) = true) : t.scalars ⊆ u.scalars := by
  obtain ⟨hsource, hlabel, htarget⟩ := beq_iff.mp h
  have hparts {a b : Value} (hab : (a == b) = true) : a.scalars ⊆ b.scalars :=
    Value.scalars_subset a b hab
  intro x hx
  simp only [scalars, List.mem_append] at hx ⊢
  exact hx.imp (Or.imp (hparts hsource ·) (hparts hlabel ·)) (hparts htarget ·)

end Transition

namespace Shape

variable {s s' : Shape}

/-- The scalars in the five parts. -/
def scalars (s : Shape) : List Scalar :=
  Value.scalarsOf s.states.items ++ Value.scalarsOf s.alphabet.items ++ s.initial.scalars ++
    s.transitions.items.flatMap Transition.scalars ++ Value.scalarsOf s.finals.items

/-- Whatever is in the five parts comes back as what it was. -/
def Lasting (s : Shape) : Prop :=
  ∀ x ∈ s.scalars, x.isLasting = true

instance : Decidable s.Lasting :=
  inferInstanceAs (Decidable (∀ x ∈ s.scalars, x.isLasting = true))

theorem mem_scalars {x : Scalar} : x ∈ s.scalars ↔
    x ∈ Value.scalarsOf s.states.items ∨ x ∈ Value.scalarsOf s.alphabet.items ∨
      x ∈ s.initial.scalars ∨ (∃ t ∈ s.transitions.items, x ∈ t.scalars) ∨
      x ∈ Value.scalarsOf s.finals.items := by
  simp only [scalars, List.mem_append, List.mem_flatMap, or_assoc]

theorem forall_mem_scalars {p : Scalar → Prop} : (∀ x ∈ s.scalars, p x) ↔
    (∀ x ∈ Value.scalarsOf s.states.items, p x) ∧ (∀ x ∈ Value.scalarsOf s.alphabet.items, p x) ∧
      (∀ x ∈ s.initial.scalars, p x) ∧ (∀ t ∈ s.transitions.items, ∀ x ∈ t.scalars, p x) ∧
      ∀ x ∈ Value.scalarsOf s.finals.items, p x := by
  simp only [scalars, List.forall_mem_append, List.forall_mem_flatMap, and_assoc]

theorem Lasting.parts_of_mem (h : s.Lasting) {t : Transition} (ht : t ∈ s.transitions.items) :
    t.source.Lasting ∧ t.label.Lasting ∧ t.target.Lasting :=
  Transition.lasting_iff.mp ((forall_mem_scalars.mp h).2.2.2.1 t ht)

theorem scalars_subset (h : (s' == s) = true) : s.scalars ⊆ s'.scalars := by
  obtain ⟨hstates, halphabet, hinitial, htransitions, hfinals⟩ := beq_iff.mp h
  have hmoves : ∀ t ∈ s.transitions.items, ∀ x ∈ t.scalars,
      ∃ u ∈ s'.transitions.items, x ∈ u.scalars := by
    intro t ht x hx
    obtain ⟨u, hu, hut⟩ := OrderedSet.mem_iff_exists.mp
      ((OrderedSet.beq_iff.mp htransitions t).mpr (OrderedSet.mem_of_mem_items ht))
    exact ⟨u, hu, Transition.scalars_subset (BEq.symm hut) hx⟩
  refine forall_mem_scalars.mpr ⟨fun x hx => ?_, fun x hx => ?_, fun x hx => ?_, fun t ht x hx => ?_,
    fun x hx => ?_⟩ <;> rw [mem_scalars]
  · exact .inl (ValueSet.scalars_subset hstates hx)
  · exact .inr (.inl (ValueSet.scalars_subset halphabet hx))
  · exact .inr (.inr (.inl (Value.scalars_subset _ _ (BEq.symm hinitial) hx)))
  · exact .inr (.inr (.inr (.inl (hmoves t ht x hx))))
  · exact .inr (.inr (.inr (.inr (ValueSet.scalars_subset hfinals hx))))

theorem restored_settles (h : s.Lasting) :
    Settles s.restored fun s' => (s' == s) = true ∧ (s.Hashable → s'.Hashable) := by
  obtain ⟨hstates, halphabet, hinitial, htransitions, hfinals⟩ := forall_mem_scalars.mp h
  apply (ValueSet.restored_settles hstates).bind
  rintro states ⟨hstates, hstates'⟩
  apply (ValueSet.restored_settles halphabet).bind
  rintro alphabet ⟨halphabet, halphabet'⟩
  apply (Value.restored_settles _ hinitial).bind
  intro initial hinitial
  apply (Settles.mapM fun t ht => Transition.restored_settles (htransitions t ht)).bind
  intro transitions htransitions
  apply (ValueSet.restored_settles hfinals).bind
  rintro finals ⟨hfinals, hfinals'⟩
  refine settles_pure ⟨beq_iff.mpr ⟨hstates, halphabet, hinitial.beq, ?_, hfinals⟩, fun hs => ?_⟩
  · rw [OrderedSet.beq_iff]
    intro t
    rw [OrderedSet.mem_ofList, OrderedSet.mem_iff_exists]
    constructor
    · rintro ⟨u', hu', hut⟩
      obtain ⟨u, hu, hsame, -⟩ := exists_of_forall₂ htransitions hu'
      exact ⟨u, hu, BEq.trans (BEq.symm hsame) hut⟩
    · rintro ⟨u, hu, hut⟩
      obtain ⟨u', hu', hsame, -⟩ := exists_of_forall₂ (.flip htransitions) hu
      exact ⟨u', hu', BEq.trans hsame hut⟩
  · refine ⟨hstates' hs.states, halphabet' hs.alphabet, hinitial.hashable.trans hs.start, ?_,
      hfinals' hs.finals⟩
    intro t ht
    obtain ⟨u, hu, -, hhash⟩ :=
      exists_of_forall₂ htransitions (OrderedSet.mem_of_mem_items_ofList ht)
    rw [hhash]
    exact hs.transitions u hu

theorem restored_renewed (first : Nat) (s : Shape) :
    Yields first s.restored fun s' => ∀ x ∈ s'.scalars, x.isRenewed first = true := by
  refine (ValueSet.restored_renewed first s.states).bind fun states hstates => ?_
  refine (ValueSet.restored_renewed first s.alphabet).bind fun alphabet halphabet => ?_
  refine (Value.restored_renewed first s.initial).bind fun initial hinitial => ?_
  refine (Yields.mapM fun t _ => Transition.restored_renewed first t).bind
    fun transitions htransitions => ?_
  refine (ValueSet.restored_renewed first s.finals).bind fun finals hfinals => ?_
  exact yields_pure (forall_mem_scalars.mpr ⟨hstates, halphabet, hinitial,
    fun t ht => htransitions t (OrderedSet.mem_of_mem_items_ofList ht), hfinals⟩)

/-! ## Tables that come back -/

theorem keyed_epsilonTable {p : Value → Prop} (h : ∀ t ∈ s.transitions.items, p t.source) :
    s.epsilonTable.Keyed p := by
  refine Table.keyed_foldl fun table htable t ht => ?_
  split
  · exact htable.add (h t ht) t.target
  · exact htable

theorem keyed_symbolTable {p : Reading → Prop}
    (h : ∀ t ∈ s.transitions.items, p ⟨t.source, t.label⟩) : s.symbolTable.Keyed p := by
  refine Table.keyed_foldl fun table htable t ht => ?_
  split
  · exact htable
  · exact htable.add (h t ht) t.target

end Shape

/-- A table whose keys come back as equal ones, and whose members come back, assigns the same. -/
theorem Table.restored_settles {κ : Type} [BEq κ] [EquivBEq κ] {key : κ → Restoring κ}
    {t : Table κ Value} (hkeyed : t.Keyed fun k => Settles (key k) fun k' => (k' == k) = true)
    (htargets : ∀ a ∈ t.targets, a.Lasting) :
    Settles (t.restored key) fun t' => ∀ k a, a ∈ t'.get k ↔ a ∈ t.get k := by
  have hrows : Settles (t.rows.mapM fun r => do
      let k ← key r.1
      let s ← ValueSet.restored r.2
      return (k, s)) fun rows => List.Forall₂ SameRow rows t.rows := by
    refine Settles.mapM fun r hr => ?_
    apply (hkeyed.keys r.1 (List.mem_map_of_mem hr)).bind
    intro k hk
    have hmembers : ∀ x ∈ Value.scalarsOf r.2.items, x.isLasting = true := by
      intro x hx
      obtain ⟨a, ha, hxa⟩ := Value.mem_scalarsOf.mp hx
      exact htargets a (List.mem_flatMap.mpr ⟨r, hr, ha⟩) x hxa
    apply (ValueSet.restored_settles hmembers).bind
    rintro s ⟨hs, -⟩
    exact settles_pure ⟨hk, hs⟩
  refine hrows.bind fun rows hsame => settles_pure fun k a => ?_
  -- the keys that come back are different, so no row replaces another
  have hput : rows.foldl (fun rows r => setRow r.1 r.2 rows) [] = rows :=
    foldl_setRow (distinct_of_sameRow hsame hkeyed.distinct)
  show a ∈ getRow k (rows.foldl (fun rows r => setRow r.1 r.2 rows) []) ↔ a ∈ getRow k t.rows
  rw [hput]
  exact mem_getRow_congr hsame

/-! ## Automata -/

namespace Automaton

variable {s s' : Shape} {n copy : Automaton} {used : TablesUsed} {tag : Nat}

theorem restoredEpsilonMoves_settles (h : s.Lasting)
    (hmoves : ∀ t : Transition, t ∈ s'.transitions ↔ t ∈ s.transitions) (used : Bool) :
    Settles ((ofShape s).restoredEpsilonMoves s' used) fun moves => ∀ a d,
      d ∈ moves.get.get a ↔ (⟨a, .epsilon, d⟩ : Transition) ∈ s'.transitions := by
  rw [restoredEpsilonMoves]
  split
  · have hkeyed := Shape.keyed_epsilonTable (s := s)
      (p := fun k => Settles k.restored fun k' => (k' == k) = true) fun t ht =>
        (Value.restored_settles _ (h.parts_of_mem ht).1).mono fun k' hk => hk.beq
    have htargets : ∀ a ∈ s.epsilonTable.targets, a.Lasting := by
      intro a ha
      obtain ⟨t, ht, rfl⟩ := Shape.exists_of_mem_epsilonTable ha
      exact (h.parts_of_mem ht).2.2
    apply (Table.restored_settles hkeyed htargets).map
    intro table htable a d
    exact (htable a d).trans (Shape.mem_epsilonTable.trans (hmoves _).symm)
  · exact settles_pure fun a d => Shape.mem_epsilonTable

theorem restoredSymbolMoves_settles (h : s.Lasting)
    (hmoves : ∀ t : Transition, t ∈ s'.transitions ↔ t ∈ s.transitions) (used : Bool) :
    Settles ((ofShape s).restoredSymbolMoves s' used) fun moves => ∀ a x d, x.isEpsilon = false →
      (d ∈ moves.get.get ⟨a, x⟩ ↔ (⟨a, x, d⟩ : Transition) ∈ s'.transitions) := by
  rw [restoredSymbolMoves]
  split
  · have hkeyed := Shape.keyed_symbolTable (s := s)
      (p := fun k => Settles k.restored fun k' => (k' == k) = true) fun t ht =>
        (Value.restored_settles _ (h.parts_of_mem ht).1).bind fun a ha =>
          (Value.restored_settles _ (h.parts_of_mem ht).2.1).bind fun x hx =>
            settles_pure (Reading.beq_iff.mpr ⟨ha.beq, hx.beq⟩)
    have htargets : ∀ a ∈ s.symbolTable.targets, a.Lasting := by
      intro a ha
      obtain ⟨t, ht, rfl⟩ := Shape.exists_of_mem_symbolTable ha
      exact (h.parts_of_mem ht).2.2
    apply (Table.restored_settles hkeyed htargets).map
    intro table htable a x d hx
    exact (htable ⟨a, x⟩ d).trans ((Shape.mem_symbolTable hx).trans (hmoves _).symm)
  · exact settles_pure fun a x d hx => Shape.mem_symbolTable hx

theorem restored_settles (hs : s.Sound) (hhash : s.Hashable) (h : s.Lasting) (used : TablesUsed) :
    Settles ((ofShape s).restored used) fun copy => copy.Valid ∧ (copy.toShape == s) = true := by
  apply (Shape.restored_settles h).bind
  rintro s' ⟨hsame, hhash'⟩
  have hmoves : ∀ t : Transition, t ∈ s'.transitions ↔ t ∈ s.transitions :=
    OrderedSet.beq_iff.mp (Shape.beq_iff.mp hsame).2.2.2.1
  apply (restoredEpsilonMoves_settles h hmoves used.epsilon).bind
  intro epsilonMoves hepsilonMoves
  apply (restoredSymbolMoves_settles h hmoves used.symbol).bind
  intro symbolMoves hsymbolMoves
  exact settles_pure ⟨⟨.of_beq hsame hs, hhash' hhash, hepsilonMoves, hsymbolMoves⟩, hsame⟩

theorem snapshot_eq_ok_iff :
    n.snapshot used tag = .ok copy ↔ ∃ last, (n.restored used).run tag = some (copy, last) := by
  rw [snapshot]
  cases (n.restored used).run tag with
  | none => simp
  | some r => simp [Prod.ext_iff]

theorem exists_restored_shape (h : n.snapshot used tag = .ok copy) :
    ∃ next, n.toShape.restored.run tag = some (copy.toShape, next) := by
  obtain ⟨last, hrun⟩ := snapshot_eq_ok_iff.mp h
  obtain ⟨s, next, hshape, hrun⟩ := exists_of_run_bind hrun
  obtain ⟨epsilonMoves, _, -, hrun⟩ := exists_of_run_bind hrun
  obtain ⟨symbolMoves, _, -, hrun⟩ := exists_of_run_bind hrun
  obtain ⟨rfl, -⟩ := Prod.mk.inj (Option.some.inj hrun)
  exact ⟨next, hshape⟩

/-- An automaton with a scalar that does not last never comes back as an equal one. -/
theorem lasting_of_snapshot_beq (hbefore : ∀ x ∈ n.scalars, x.isBefore tag = true)
    (h : n.snapshot used tag = .ok copy) (hbeq : (copy == n) = true) : n.Lasting := by
  obtain ⟨next, hshape⟩ := exists_restored_shape h
  have hrenewed := (Shape.restored_renewed tag n.toShape (Nat.le_refl tag) hshape).2
  -- a scalar of the automaton is one of the copy too: it was there before and came back
  intro x hx
  exact Scalar.isLasting_of_isRenewed (hbefore x hx) (hrenewed x (Shape.scalars_subset hbeq hx))

theorem ofValues_parts (hs : s.Sound) (hhash : s.Hashable) :
    ofValues (.frozenSet s.states.items) (.frozenSet s.alphabet.items) s.initial
      (.frozenSet (s.transitions.items.map Transition.triple)) (.frozenSet s.finals.items) =
      .ok (ofShape s) := by
  let parts : Parts := ⟨s.states.items, s.alphabet.items, s.initial, s.transitions.items,
    s.finals.items⟩
  have hparts : parts.toShape = s := by
    simp only [parts, Parts.toShape, OrderedSet.ofList_items]
  have htriples : (s.transitions.items.map Transition.triple).mapM Value.items =
      .ok (s.transitions.items.map fun t => [t.source, t.label, t.target]) := by
    rw [List.mapM_map]
    exact mapM_eq_ok_map fun t _ => rfl
  have hyield : parts.YieldedBy (.frozenSet s.states.items) (.frozenSet s.alphabet.items) s.initial
      (.frozenSet (s.transitions.items.map Transition.triple)) (.frozenSet s.finals.items) :=
    ⟨rfl, rfl, rfl, ⟨_, rfl, htriples⟩, rfl, hhash.states, hhash.alphabet,
      Value.isSeekable_of_hashable hhash.start, hhash.transitions, hhash.finals⟩
  have hshape := shape_ofValues hyield
  rw [hparts] at hshape
  exact ofValues_eq_ok hshape hs hhash.start

/-- If all scalars in an automaton last then it comes back, whichever of its tables were in use, and if
it comes back at all then the copy equals it only in that case. The copy then keeps the invariants, and
the closures of states of the copy are those in an automaton that is made from its five parts. -/
theorem snapshot_beq_iff (made : n.Made) (hbefore : ∀ x ∈ n.scalars, x.isBefore tag = true)
    (used : TablesUsed) :
    (n.Lasting → ∃ copy, n.snapshot used tag = .ok copy) ∧
    ∀ copy, n.snapshot used tag = .ok copy →
      ((copy == n) = true ↔ n.Lasting) ∧
      (n.Lasting → copy.violations = [] ∧
        ∃ fresh, ofValues (.frozenSet copy.states.items) (.frozenSet copy.alphabet.items) copy.initial
            (.frozenSet (copy.transitions.items.map Transition.triple))
            (.frozenSet copy.finals.items) = .ok fresh ∧
          ∀ a, (∀ b ∈ a.named, copy.IsState b) → ∃ r r', copy.eclose a = .ok r ∧
            fresh.eclose a = .ok r' ∧ (r == r') = true) := by
  have hn := made.valid
  have hback (h : n.Lasting) : ∃ copy, n.snapshot used tag = .ok copy ∧ copy.Valid ∧
      (copy == n) = true := by
    obtain ⟨copy, ⟨hvalid, hsame⟩, hrun⟩ := restored_settles hn.sound hn.hashable h used
    rw [← made.eq_ofShape] at hrun
    exact ⟨copy, snapshot_eq_ok_iff.mpr ⟨tag, hrun tag⟩, hvalid, hsame⟩
  refine ⟨fun h => (hback h).imp fun _ hcopy => hcopy.1, fun copy hcopy => ?_⟩
  -- restoring gives one copy only, so what holds of that one holds of the given one
  have hlasting (h : n.Lasting) : copy.Valid ∧ (copy == n) = true := by
    obtain ⟨copy', hcopy', hvalid⟩ := hback h
    obtain rfl := Except.ok.inj (hcopy.symm.trans hcopy')
    exact hvalid
  refine ⟨⟨lasting_of_snapshot_beq hbefore hcopy, fun h => (hlasting h).2⟩, fun h => ?_⟩
  have hvalid := (hlasting h).1
  have hfresh := valid_ofShape hvalid.sound hvalid.hashable
  refine ⟨Shape.violations_eq_nil_iff.mpr hvalid.sound, _,
    ofValues_parts hvalid.sound hvalid.hashable, fun a ha => ?_⟩
  have ha' : ∀ b ∈ a.named, (ofShape copy.toShape).IsState b :=
    fun b hb => ⟨(ha b hb).hashable, (ha b hb).mem⟩
  obtain ⟨r, hr, hclosure⟩ := close_named hvalid .rounds ha
  obtain ⟨r', hr', hclosure'⟩ := close_named hfresh .rounds ha'
  refine ⟨r, r', hr, hr', OrderedSet.beq_iff.mpr fun b => ?_⟩
  rw [hclosure b, hclosure' b]
  rfl

/-- With numbers of different forms inside tuples, and only the table of empty moves in use. -/
theorem snapshot_beq_iff_mixed :
    let n := ofShape mixed
    (n.Made ∧ (∀ x ∈ n.scalars, x.isBefore 0 = true) ∧ n.Lasting) ∧
    ∃ copy, n.snapshot ⟨true, false⟩ 0 = .ok copy ∧ (copy == n) = true ∧ copy.violations = [] ∧
      ∃ fresh, ofValues (.frozenSet copy.states.items) (.frozenSet copy.alphabet.items) copy.initial
          (.frozenSet (copy.transitions.items.map Transition.triple))
          (.frozenSet copy.finals.items) = .ok fresh ∧
        ∀ a, (∀ b ∈ a.named, copy.IsState b) → ∃ r r', copy.eclose a = .ok r ∧
          fresh.eclose a = .ok r' ∧ (r == r') = true := by
  intro n
  have hbefore : ∀ x ∈ n.scalars, x.isBefore 0 = true := by decide +kernel
  have hlasting : n.Lasting := by decide +kernel
  obtain ⟨hreturns, hcopies⟩ := snapshot_beq_iff mixed_made hbefore ⟨true, false⟩
  obtain ⟨copy, hcopy⟩ := hreturns hlasting
  obtain ⟨hbeq, hclosures⟩ := hcopies copy hcopy
  exact ⟨⟨mixed_made, hbefore, hlasting⟩, copy, hcopy, hbeq.mpr hlasting, hclosures hlasting⟩

/-- A move whose label is a marker with the name of the mark of the empty move. -/
def disguised : Shape where
  states := .ofList [.int 1, .int 2]
  alphabet := .ofList [.marker 0 "EPSILON"]
  initial := .int 1
  transitions := .ofList [⟨.int 1, .marker 0 "EPSILON", .int 2⟩]
  finals := .ofList [.int 2]

theorem disguised_made : (ofShape disguised).Made :=
  made_ofShape (.list [.int 1, .int 2]) (.list [.marker 0 "EPSILON"]) (.int 1)
    (.list [.tuple [.int 1, .marker 0 "EPSILON", .int 2]]) (.list [.int 2]) rfl
    (List.isEmpty_iff.mp (by decide +kernel)) rfl

/-- The same move without a symbol to read, which breaks an invariant. -/
def unmasked : Shape where
  states := .ofList [.int 1, .int 2]
  alphabet := .ofList [.epsilon]
  initial := .int 1
  transitions := .ofList [⟨.int 1, .epsilon, .int 2⟩]
  finals := .ofList [.int 2]

/-- The copy is another automaton, which has the mark of the empty move among its symbols. -/
theorem snapshot_disguised :
    let n := ofShape disguised
    let copy := ofShape unmasked
    n.Made ∧ n.snapshot .none 0 = .ok copy ∧ (copy == n) = false ∧
      copy.violations = [.epsilonInAlphabet] := by
  intro n copy
  exact ⟨disguised_made, by with_unfolding_all rfl, by decide +kernel, by with_unfolding_all rfl⟩

end Automaton

end EpsilonAutomata
