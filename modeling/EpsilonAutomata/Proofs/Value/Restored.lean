import EpsilonAutomata.Automaton.Snapshot
import EpsilonAutomata.Proofs.Outcome
import EpsilonAutomata.Proofs.Value.Collections

/-!
# Values that come back from a snapshot

Some scalars last: all but undefined numbers and markers. A value all of whose scalars last comes back,
and what comes back equals it (`restored_settles`). What comes back from any value has no marker in it,
and only undefined numbers that were not there before (`restored_renewed`). Equal values have the same
scalars (`scalars_subset`), so a value with a scalar that does not last never comes back as one that
equals it.

`Settles` and `Yields` say what restoring gives: that it gives something and uses up no tag, and what
holds of all that it may give.
-/

namespace EpsilonAutomata

/-! ## What restoring gives -/

section Restoring

variable {α β : Type} {x : Restoring α} {p : α → Prop} {q : β → Prop}

/-- The work gives the same result at every tag, uses up no tag, and the result is as required. -/
def Settles (work : Restoring α) (p : α → Prop) : Prop :=
  ∃ a, p a ∧ ∀ tag, work.run tag = some (a, tag)

theorem settles_pure {a : α} (h : p a) : Settles (pure a) p :=
  ⟨a, h, fun _ => rfl⟩

theorem Settles.bind {f : α → Restoring β} (h : Settles x p) (hnext : ∀ a, p a → Settles (f a) q) :
    Settles (x >>= f) q := by
  obtain ⟨a, ha, hx⟩ := h
  obtain ⟨b, hb, hf⟩ := hnext a ha
  refine ⟨b, hb, fun tag => ?_⟩
  rw [StateT.run_bind, hx]
  exact hf tag

theorem Settles.mono {p' : α → Prop} (h : Settles x p) (hp : ∀ a, p a → p' a) : Settles x p' := by
  obtain ⟨a, ha, hx⟩ := h
  exact ⟨a, hp a ha, hx⟩

theorem Settles.map {f : α → β} (h : Settles x p) (hnext : ∀ a, p a → q (f a)) :
    Settles (f <$> x) q := by
  obtain ⟨a, ha, hx⟩ := h
  refine ⟨f a, hnext a ha, fun tag => ?_⟩
  rw [StateT.run_map, hx]
  rfl

theorem Settles.mapM {γ : Type} {f : γ → Restoring β} {r : β → γ → Prop} {xs : List γ}
    (h : ∀ x ∈ xs, Settles (f x) fun y => r y x) :
    Settles (xs.mapM f) fun ys => List.Forall₂ r ys xs := by
  induction xs with
  | nil => exact settles_pure .nil
  | cons x xs ih =>
    rw [List.mapM_cons]
    apply (h x List.mem_cons_self).bind
    intro y hy
    apply (ih fun z hz => h z (List.mem_cons_of_mem x hz)).bind
    intro ys hys
    exact settles_pure (.cons hy hys)

theorem exists_of_run_bind {f : α → Restoring β} {tag last : Nat} {b : β}
    (h : (x >>= f).run tag = some (b, last)) :
    ∃ a next, x.run tag = some (a, next) ∧ (f a).run next = some (b, last) := by
  rw [StateT.run_bind] at h
  obtain ⟨⟨a, next⟩, hx, hf⟩ := Option.bind_eq_some_iff.mp h
  exact ⟨a, next, hx, hf⟩

/-- Begun at the given tag or a later one, the work ends at such a tag too, and whatever it gives is as
required. -/
def Yields (first : Nat) (work : Restoring α) (p : α → Prop) : Prop :=
  ∀ ⦃tag a next⦄, first ≤ tag → work.run tag = some (a, next) → first ≤ next ∧ p a

variable {first : Nat}

theorem yields_pure {a : α} (h : p a) : Yields first (pure a) p := by
  intro tag b next htag hrun
  obtain ⟨rfl, rfl⟩ : a = b ∧ tag = next := Prod.mk.inj (Option.some.inj hrun)
  exact ⟨htag, h⟩

theorem yields_failure : Yields first (failure : Restoring α) p := by
  intro tag a next _ hrun
  cases hrun

theorem Yields.bind {f : α → Restoring β} (h : Yields first x p)
    (hnext : ∀ a, p a → Yields first (f a) q) : Yields first (x >>= f) q := by
  intro tag b last htag hrun
  obtain ⟨a, next, hx, hf⟩ := exists_of_run_bind hrun
  obtain ⟨hle, ha⟩ := h htag hx
  exact hnext a ha hle hf

theorem Yields.map {f : α → β} (h : Yields first x p) (hnext : ∀ a, p a → q (f a)) :
    Yields first (f <$> x) q := by
  rw [map_eq_pure_bind]
  exact h.bind fun a ha => yields_pure (hnext a ha)

theorem Yields.mapM {γ : Type} {f : γ → Restoring β} {xs : List γ}
    (h : ∀ x ∈ xs, Yields first (f x) q) : Yields first (xs.mapM f) fun ys => ∀ y ∈ ys, q y := by
  induction xs with
  | nil => exact yields_pure (by simp)
  | cons x xs ih =>
    rw [List.mapM_cons]
    refine (h x List.mem_cons_self).bind fun y hy => ?_
    refine (ih fun z hz => h z (List.mem_cons_of_mem x hz)).bind fun ys hys => ?_
    exact yields_pure (List.forall_mem_cons.mpr ⟨hy, hys⟩)

end Restoring

namespace SameMembers

variable {xs ys zs : List Value}

theorem trans (h : SameMembers xs ys) (h' : SameMembers ys zs) : SameMembers xs zs :=
  fun b => (h b).trans (h' b)

theorem within (h : SameMembers xs ys) : Value.within xs ys = true := by
  rw [Value.within_eq_all, List.all_eq_true]
  intro x hx
  obtain ⟨y, hy, hxy⟩ := h.exists_of_mem hx
  exact List.any_eq_true.mpr ⟨y, hy, hxy⟩

theorem items_ofList (xs : List Value) :
    SameMembers (OrderedSet.ofList xs : ValueSet).items xs := by
  intro b
  rw [← OrderedSet.mem_iff_exists, OrderedSet.mem_ofList]

end SameMembers

namespace Value

variable {a b : Value} {xs ys : List Value}

/-! ## Scalars -/

mutual

/-- The scalars in the value. -/
def scalars : Value → List Scalar
  | tuple xs => scalarsOf xs
  | list xs => scalarsOf xs
  | set xs => scalarsOf xs
  | frozenSet xs => scalarsOf xs
  | mapping es => scalarsOfEntries es
  | a => a.scalar?.toList

def scalarsOf : List Value → List Scalar
  | [] => []
  | x :: xs => scalars x ++ scalarsOf xs

def scalarsOfEntries : List (Value × Value) → List Scalar
  | [] => []
  | (k, v) :: es => scalars k ++ scalars v ++ scalarsOfEntries es

end

theorem scalars_eq_singleton {x : Scalar} (h : a.scalar? = some x) : a.scalars = [x] := by
  cases a <;> simp_all [scalar?, scalars]

theorem mem_scalarsOf {x : Scalar} : x ∈ scalarsOf xs ↔ ∃ a ∈ xs, x ∈ a.scalars := by
  induction xs with
  | nil => simp [scalarsOf]
  | cons a xs ih => simp [scalarsOf, ih]

theorem mem_scalarsOfEntries {x : Scalar} {es : List (Value × Value)} :
    x ∈ scalarsOfEntries es ↔ ∃ e ∈ es, x ∈ e.1.scalars ++ e.2.scalars := by
  induction es with
  | nil => simp [scalarsOfEntries]
  | cons e es ih => simp [scalarsOfEntries, ih, or_assoc]

theorem scalarsOf_ofList (xs : List Value) :
    scalarsOf (OrderedSet.ofList xs : ValueSet).items ⊆ scalarsOf xs := by
  intro x hx
  obtain ⟨a, ha, hxa⟩ := mem_scalarsOf.mp hx
  exact mem_scalarsOf.mpr ⟨a, OrderedSet.mem_of_mem_items_ofList ha, hxa⟩

mutual

theorem scalars_subset (a b : Value) (h : same a b = true) : a.scalars ⊆ b.scalars := by
  match a with
  | tuple xs | list xs =>
    obtain ⟨ys, hys, hsame⟩ := (same_iff_of_sequence rfl b).mp h
    have hsub := scalarsOf_subset xs ys (SameMembers.of_beq (sameItems_iff_beq.mp hsame)).within
    rcases eq_of_sequence hys with ⟨rfl, -⟩ | ⟨rfl, -⟩ <;> exact hsub
  | set xs | frozenSet xs =>
    obtain ⟨ys, hys, hwithin, -⟩ := (same_iff_of_members rfl b).mp h
    have hsub := scalarsOf_subset xs ys hwithin
    cases b <;> simp only [members?, Option.some.injEq, reduceCtorEq] at hys <;> subst hys <;>
      exact hsub
  | mapping es =>
    cases b with
    | mapping fs =>
      rw [same, Bool.and_eq_true] at h
      exact scalarsOfEntries_subset es fs h.1
    | _ => simp [same, sameScalar, scalar?] at h
  | null | bool _ | int _ | double _ | text _ | epsilon | marker _ _ =>
    rw [scalars_eq_singleton ((same_iff_scalar? rfl b).mp h)]
    exact List.Subset.refl _

theorem scalarsOf_subset (xs ys : List Value) (h : within xs ys = true) :
    scalarsOf xs ⊆ scalarsOf ys := by
  match xs with
  | [] => exact List.nil_subset _
  | x :: xs =>
    rw [within, Bool.and_eq_true, List.any_eq_true] at h
    obtain ⟨⟨y, hy, hxy⟩, hrest⟩ := h
    have hhead : x.scalars ⊆ scalarsOf ys :=
      fun k hk => mem_scalarsOf.mpr ⟨y, hy, scalars_subset x y hxy hk⟩
    exact List.append_subset.mpr ⟨hhead, scalarsOf_subset xs ys hrest⟩

theorem scalarsOfEntries_subset (es fs : List (Value × Value)) (h : entriesWithin es fs = true) :
    scalarsOfEntries es ⊆ scalarsOfEntries fs := by
  match es with
  | [] => exact List.nil_subset _
  | (k, v) :: es =>
    rw [entriesWithin, Bool.and_eq_true, List.any_eq_true] at h
    obtain ⟨⟨f, hf, hsame⟩, hrest⟩ := h
    rw [Bool.and_eq_true] at hsame
    have hhead : k.scalars ++ v.scalars ⊆ scalarsOfEntries fs := fun x hx =>
      mem_scalarsOfEntries.mpr ⟨f, hf, (List.mem_append.mp hx).elim
        (fun hx => List.mem_append_left _ (scalars_subset k f.1 hsame.1 hx))
        (fun hx => List.mem_append_right _ (scalars_subset v f.2 hsame.2 hx))⟩
    exact List.append_subset.mpr ⟨hhead, scalarsOfEntries_subset es fs hrest⟩

end

end Value

namespace Scalar

/-- The scalar comes back as what it was: it is no undefined number and no marker. -/
def isLasting : Scalar → Bool
  | number (.undefined _) => false
  | marker _ => false
  | _ => true

/-- If the scalar is an undefined number then its tag is below the given one. -/
def isBefore (tag : Nat) : Scalar → Bool
  | number (.undefined t) => t < tag
  | _ => true

/-- The scalar may come back once the next tag is the given one. -/
def isRenewed (tag : Nat) : Scalar → Bool
  | number (.undefined t) => tag ≤ t
  | marker _ => false
  | _ => true

theorem isLasting_of_isRenewed {x : Scalar} {tag : Nat} (hbefore : x.isBefore tag = true)
    (hrenewed : x.isRenewed tag = true) : x.isLasting = true := by
  match x with
  | number (.undefined t) =>
    have hlt : t < tag := of_decide_eq_true hbefore
    have hle : tag ≤ t := of_decide_eq_true hrenewed
    omega
  | marker _ => cases hrenewed
  | null | text _ | epsilon | number (.finite _) | number (.infinite _) => rfl

end Scalar

namespace Value

variable {a b : Value} {xs ys : List Value}

/-- Whatever is in the value comes back as what it was. -/
def Lasting (a : Value) : Prop :=
  ∀ x ∈ a.scalars, x.isLasting = true

/-! ## What comes back -/

mutual

theorem restored_renewed (first : Nat) (a : Value) :
    Yields first a.restored fun b => ∀ x ∈ b.scalars, x.isRenewed first = true := by
  match a with
  | marker id name =>
    rw [restored]
    split
    · exact yields_pure (by simp [scalars, scalar?, Scalar.isRenewed])
    · exact yields_failure
  | double (.undefined t) =>
    intro tag b next htag hrun
    obtain ⟨rfl, rfl⟩ : double (.undefined tag) = b ∧ tag + 1 = next :=
      Prod.mk.inj (Option.some.inj hrun)
    exact ⟨by omega, by simpa [scalars, scalar?, Double.quantity, Scalar.isRenewed] using htag⟩
  | tuple xs | list xs =>
    rw [restored]
    exact (restoredAll_renewed first xs).map fun ys hys => hys
  | set xs | frozenSet xs =>
    rw [restored]
    exact (restoredAll_renewed first xs).map fun ys hys x hx => hys x (scalarsOf_ofList ys hx)
  | mapping es =>
    rw [restored]
    exact (restoredEntries_renewed first es).map fun ds hds => hds
  | null | bool _ | int _ | text _ | epsilon | double (.finite _) | double .negativeZero
  | double (.infinite _) =>
    exact yields_pure (by simp [scalars, scalar?, Quantity.ofInt, Double.quantity, Scalar.isRenewed])

theorem restoredAll_renewed (first : Nat) (xs : List Value) :
    Yields first (restoredAll xs) fun ys => ∀ x ∈ scalarsOf ys, x.isRenewed first = true := by
  match xs with
  | [] => exact yields_pure (by simp [scalarsOf])
  | x :: xs =>
    rw [restoredAll]
    refine (restored_renewed first x).bind fun y hy => ?_
    refine (restoredAll_renewed first xs).bind fun ys hys => ?_
    exact yields_pure (List.forall_mem_append.mpr ⟨hy, hys⟩)

theorem restoredEntries_renewed (first : Nat) (es : List (Value × Value)) :
    Yields first (restoredEntries es) fun ds =>
      ∀ x ∈ scalarsOfEntries ds, x.isRenewed first = true := by
  match es with
  | [] => exact yields_pure (by simp [scalarsOfEntries])
  | (k, v) :: es =>
    rw [restoredEntries]
    refine (restored_renewed first k).bind fun k' hk => ?_
    refine (restored_renewed first v).bind fun v' hv => ?_
    refine (restoredEntries_renewed first es).bind fun ds hds => ?_
    exact yields_pure (List.forall_mem_append.mpr ⟨List.forall_mem_append.mpr ⟨hk, hv⟩, hds⟩)

end

/-- A value that comes back equals the one that was there and can be looked up if that can. -/
structure Back (b a : Value) : Prop where
  beq : (b == a) = true
  hashable : b.hashable = a.hashable

theorem Back.refl (a : Value) : Back a a := ⟨BEq.rfl, rfl⟩

theorem within_of_sameItems (h : sameItems ys xs = true) :
    within (OrderedSet.ofList ys : ValueSet).items xs = true ∧
      within xs (OrderedSet.ofList ys : ValueSet).items = true := by
  have hsame := (SameMembers.items_ofList ys).trans (.of_beq (sameItems_iff_beq.mp h))
  exact ⟨hsame.within, hsame.symm.within⟩

mutual

theorem restored_settles (a : Value) (h : a.Lasting) : Settles a.restored fun b => Back b a := by
  match a with
  | marker id name => cases h (.marker id) List.mem_cons_self
  | double (.undefined t) => cases h (.number (.undefined t)) List.mem_cons_self
  | tuple xs =>
    rw [restored]
    apply (restoredAll_settles xs h).map
    rintro ys ⟨hitems, hhash⟩
    exact ⟨by rw [beq_def, same, hitems], hhash⟩
  | list xs =>
    rw [restored]
    apply (restoredAll_settles xs h).map
    rintro ys ⟨hitems, -⟩
    exact ⟨by rw [beq_def, same, hitems], rfl⟩
  | set xs | frozenSet xs =>
    rw [restored]
    apply (restoredAll_settles xs h).map
    rintro ys ⟨hitems, -⟩
    exact ⟨(same_iff_of_members rfl _).mpr ⟨xs, rfl, within_of_sameItems hitems⟩, rfl⟩
  | mapping es =>
    rw [restored]
    apply (restoredEntries_settles es h).map
    intro ds hds
    refine ⟨?_, rfl⟩
    rw [beq_def, same, entriesWithin_eq_all, Bool.and_eq_true, List.all_eq_true, List.all_eq_true]
    constructor
    · intro d hd
      obtain ⟨e, he, hk, hv⟩ := Outcome.exists_of_forall₂ hds hd
      exact List.any_eq_true.mpr ⟨e, he, Bool.and_eq_true_iff.mpr ⟨hk.beq, hv.beq⟩⟩
    · intro e he
      obtain ⟨d, hd, hk, hv⟩ := Outcome.exists_of_forall₂ (.flip hds) he
      rw [entryAmong_eq_any]
      exact List.any_eq_true.mpr ⟨d, hd, Bool.and_eq_true_iff.mpr ⟨hk.beq, hv.beq⟩⟩
  | null | bool _ | int _ | text _ | epsilon | double (.finite _) | double .negativeZero
  | double (.infinite _) => exact settles_pure (.refl _)

theorem restoredAll_settles (xs : List Value) (h : ∀ x ∈ scalarsOf xs, x.isLasting = true) :
    Settles (restoredAll xs) fun ys =>
      sameItems ys xs = true ∧ allHashable ys = allHashable xs := by
  match xs with
  | [] => exact settles_pure ⟨by rw [sameItems], rfl⟩
  | x :: xs =>
    obtain ⟨hhead, htail⟩ := List.forall_mem_append.mp h
    rw [restoredAll]
    apply (restored_settles x hhead).bind
    intro y hy
    apply (restoredAll_settles xs htail).bind
    rintro ys ⟨hitems, hhash⟩
    refine settles_pure ⟨?_, by rw [allHashable, allHashable, hy.hashable, hhash]⟩
    rw [sameItems, hitems, Bool.and_true]
    exact hy.beq

theorem restoredEntries_settles (es : List (Value × Value))
    (h : ∀ x ∈ scalarsOfEntries es, x.isLasting = true) : Settles (restoredEntries es) fun ds =>
      List.Forall₂ (fun d e => Back d.1 e.1 ∧ Back d.2 e.2) ds es := by
  match es with
  | [] => exact settles_pure .nil
  | (k, v) :: es =>
    obtain ⟨hhead, htail⟩ := List.forall_mem_append.mp h
    obtain ⟨hkey, hvalue⟩ := List.forall_mem_append.mp hhead
    rw [restoredEntries]
    apply (restored_settles k hkey).bind
    intro k' hk
    apply (restored_settles v hvalue).bind
    intro v' hv
    apply (restoredEntries_settles es htail).bind
    intro ds hds
    exact settles_pure (.cons ⟨hk, hv⟩ hds)

end

end Value

end EpsilonAutomata
