import Mathlib.Data.List.Forall2
import EpsilonAutomata.Collection.Lists
import EpsilonAutomata.Log

/-!
# Outcomes of work that may fail and report

How an outcome is taken apart: one that is not a fault comes from parts that are none
(`bind_eq_ok_iff`, `mapM_eq_ok_iff`), a fault is the fault of one part (`bind_eq_error_iff`,
`exists_of_mapM_eq_error`), and work with a log runs part by part
(`Logged.runWith_bind`). A report can only fail by the message it makes up (`runWith_report`). Two
outcomes are compared by their results, or by the classes of their faults (`Related`, `Alike`).
-/

namespace EpsilonAutomata

namespace Outcome

variable {α β : Type}

theorem bind_eq_ok_iff {x : Except Fault α} {f : α → Except Fault β} {b : β} :
    (x >>= f) = .ok b ↔ ∃ a, x = .ok a ∧ f a = .ok b := by
  cases x <;> simp [bind, Except.bind]

theorem bind_eq_error_iff {x : Except Fault α} {f : α → Except Fault β} {e : Fault} :
    (x >>= f) = .error e ↔ x = .error e ∨ ∃ a, x = .ok a ∧ f a = .error e := by
  cases x <;> simp [bind, Except.bind]

theorem bind_congr_of_ok {x : Except Fault α} {f g : α → Except Fault β}
    (h : ∀ a, x = .ok a → f a = g a) : (x >>= f) = (x >>= g) := by
  cases x with
  | ok a => exact h a rfl
  | error e => rfl

theorem pure_eq_ok_iff {a b : α} : (pure a : Except Fault α) = .ok b ↔ a = b := by
  simp [pure, Except.pure]

theorem mapM_eq_ok_iff {f : α → Except Fault β} {xs : List α} {ys : List β} :
    xs.mapM f = .ok ys ↔ List.Forall₂ (fun x y => f x = .ok y) xs ys := by
  induction xs generalizing ys with
  | nil => simp [pure, Except.pure, eq_comm]
  | cons x xs ih =>
    rw [List.mapM_cons, bind_eq_ok_iff, List.forall₂_cons_left_iff]
    constructor
    · rintro ⟨y, hy, h⟩
      obtain ⟨zs, hzs, h⟩ := bind_eq_ok_iff.mp h
      exact ⟨y, zs, hy, ih.mp hzs, (pure_eq_ok_iff.mp h).symm⟩
    · rintro ⟨y, zs, hy, hzs, rfl⟩
      exact ⟨y, hy, bind_eq_ok_iff.mpr ⟨zs, ih.mpr hzs, rfl⟩⟩

theorem mapM_congr {f g : α → Except Fault β} {xs : List α} (h : ∀ x ∈ xs, f x = g x) :
    xs.mapM f = xs.mapM g := by
  induction xs with
  | nil => rfl
  | cons x xs ih =>
    rw [List.mapM_cons, List.mapM_cons, h x List.mem_cons_self,
      ih fun y hy => h y (List.mem_cons_of_mem x hy)]

theorem mapM_eq_ok_map {f : α → Except Fault β} {g : α → β} {xs : List α}
    (h : ∀ x ∈ xs, f x = .ok (g x)) : xs.mapM f = .ok (xs.map g) := by
  induction xs with
  | nil => rfl
  | cons x xs ih =>
    rw [List.mapM_cons, h x (by simp), ih fun z hz => h z (by simp [hz])]
    rfl

theorem exists_mapM {f : α → Except Fault β} {xs : List α} (h : ∀ x ∈ xs, ∃ y, f x = .ok y) :
    ∃ ys, xs.mapM f = .ok ys := by
  induction xs with
  | nil => exact ⟨[], rfl⟩
  | cons x xs ih =>
    obtain ⟨y, hy⟩ := h x List.mem_cons_self
    obtain ⟨ys, hys⟩ := ih fun z hz => h z (List.mem_cons_of_mem x hz)
    exact ⟨y :: ys, mapM_eq_ok_iff.mpr (.cons hy (mapM_eq_ok_iff.mp hys))⟩

theorem mapM_eq_error_of_find? {f : α → Except Fault β} {xs : List α} {p : α → Bool} {x : α} {e : Fault}
    (hrest : ∀ y ∈ xs, p y = false → ∃ z, f y = .ok z) (hfirst : xs.find? p = some x)
    (hx : f x = .error e) : xs.mapM f = .error e := by
  induction xs with
  | nil => cases hfirst
  | cons y ys ih =>
    rw [List.mapM_cons]
    cases hy : p y with
    | true =>
      rw [List.find?_cons_of_pos hy] at hfirst
      obtain rfl := Option.some.inj hfirst
      rw [hx]
      rfl
    | false =>
      rw [List.find?_cons_of_neg (by simp [hy])] at hfirst
      obtain ⟨z, hz⟩ := hrest y List.mem_cons_self hy
      rw [hz, ih (fun w hw => hrest w (List.mem_cons_of_mem y hw)) hfirst]
      rfl

theorem exists_of_mapM_eq_error {f : α → Except Fault β} {xs : List α} {e : Fault}
    (h : xs.mapM f = .error e) : ∃ x ∈ xs, f x = .error e := by
  induction xs with
  | nil => cases h
  | cons x xs ih =>
    rw [List.mapM_cons, bind_eq_error_iff] at h
    obtain h | ⟨y, -, h⟩ := h
    · exact ⟨x, List.mem_cons_self, h⟩
    · obtain h | ⟨ys, -, h⟩ := bind_eq_error_iff.mp h
      · obtain ⟨z, hz, hze⟩ := ih h
        exact ⟨z, List.mem_cons_of_mem x hz, hze⟩
      · cases h

theorem exists_of_forall₂ {r : α → β → Prop} {xs : List α} {ys : List β} (h : List.Forall₂ r xs ys)
    {x : α} (hx : x ∈ xs) : ∃ y ∈ ys, r x y := by
  induction h with
  | nil => cases hx
  | @cons z y xs ys hzy _ ih =>
    rcases List.mem_cons.mp hx with rfl | hx
    · exact ⟨y, List.mem_cons_self, hzy⟩
    · obtain ⟨y', hy', hxy⟩ := ih hx
      exact ⟨y', List.mem_cons_of_mem y hy', hxy⟩

theorem exists_of_mem_mapM {f : α → Except Fault β} {xs : List α} {ys : List β}
    (h : xs.mapM f = .ok ys) {y : β} (hy : y ∈ ys) : ∃ x ∈ xs, f x = .ok y :=
  exists_of_forall₂ (.flip (mapM_eq_ok_iff.mp h)) hy

theorem exists_mem_of_mapM {f : α → Except Fault β} {xs : List α} {ys : List β}
    (h : xs.mapM f = .ok ys) {x : α} (hx : x ∈ xs) : ∃ y ∈ ys, f x = .ok y :=
  exists_of_forall₂ (mapM_eq_ok_iff.mp h) hx

theorem map_of_mapM {f : α → Except Fault β} {g : β → α} {xs : List α} {ys : List β}
    (h : xs.mapM f = .ok ys) (hback : ∀ x ∈ xs, ∀ y, f x = .ok y → g y = x) : ys.map g = xs := by
  have hall := mapM_eq_ok_iff.mp h
  clear h
  induction hall with
  | nil => rfl
  | @cons x y xs ys hxy _ ih =>
    rw [List.map_cons, hback x List.mem_cons_self y hxy,
      ih fun z hz => hback z (List.mem_cons_of_mem x hz)]

theorem mapM_of_mapM {γ : Type} {f : α → Except Fault β} {g : β → Except Fault γ} {r : α → γ}
    {xs : List α} {ys : List β} (h : xs.mapM f = .ok ys)
    (hnext : ∀ x ∈ xs, ∀ y, f x = .ok y → g y = .ok (r x)) : ys.mapM g = .ok (xs.map r) := by
  have hall := mapM_eq_ok_iff.mp h
  clear h
  induction hall with
  | nil => rfl
  | @cons x y xs ys hxy _ ih =>
    rw [List.mapM_cons, hnext x List.mem_cons_self y hxy,
      ih fun z hz => hnext z (List.mem_cons_of_mem x hz)]
    rfl

theorem beq_map_of_mapM {γ : Type} [BEq α] [BEq γ] {f : α → Except Fault β} {g : β → γ}
    {xs ys : List α} {js ks : List β} (hxs : xs.mapM f = .ok js) (hys : ys.mapM f = .ok ks)
    (h : ∀ x ∈ xs, ∀ j, f x = .ok j → ∀ y k, f y = .ok k → ((g j == g k) = true ↔ (x == y) = true)) :
    (js.map g == ks.map g) = true ↔ (xs == ys) = true := by
  have hall := mapM_eq_ok_iff.mp hxs
  have hall' := mapM_eq_ok_iff.mp hys
  clear hxs hys
  induction hall generalizing ys ks with
  | nil => cases hall' <;> simp
  | @cons x j xs js hj _ ih =>
    cases hall' with
    | nil => simp
    | @cons y k ys ks hk hrest =>
      rw [List.map_cons, List.map_cons, Lists.beq_cons, Lists.beq_cons]
      exact and_congr (h x List.mem_cons_self j hj y k hk)
        (ih (fun z hz => h z (List.mem_cons_of_mem x hz)) hrest)

/-! ## Faults that do not occur -/

/-- The outcome is no fault of the class. -/
def Avoids (c : Fault.Family) (x : Except Fault α) : Prop :=
  ∀ e, x = .error e → e.family ≠ c

namespace Avoids

variable {c : Fault.Family}

theorem ok (a : α) : Avoids c (.ok a) := nofun

theorem error {e : Fault} (h : e.family ≠ c) : Avoids c (.error e : Except Fault α) := by
  rintro _ ⟨rfl⟩
  exact h

theorem bind {x : Except Fault α} {f : α → Except Fault β} (hx : Avoids c x)
    (hf : ∀ a, Avoids c (f a)) : Avoids c (x >>= f) := by
  cases x with
  | ok a => exact hf a
  | error e => exact error (hx e rfl)

theorem mapM {f : α → Except Fault β} (hf : ∀ a, Avoids c (f a)) (xs : List α) :
    Avoids c (xs.mapM f) := by
  induction xs with
  | nil => exact ok []
  | cons x xs ih =>
    rw [List.mapM_cons]
    exact (hf x).bind fun y => ih.bind fun ys => ok (y :: ys)

end Avoids

/-! ## Two outcomes side by side -/

/-- Two outcomes that are related results, or faults of one class. -/
inductive Related (R : α → β → Prop) : Except Fault α → Except Fault β → Prop
  | ok {a : α} {b : β} (h : R a b) : Related R (.ok a) (.ok b)
  | error {e f : Fault} (h : e.family = f.family) : Related R (.error e) (.error f)

namespace Related

variable {γ δ : Type} {R : α → β → Prop} {S : γ → δ → Prop} {x : Except Fault α}
  {y : Except Fault β}

theorem bind (h : Related R x y) {f : α → Except Fault γ} {g : β → Except Fault δ}
    (hnext : ∀ a b, R a b → Related S (f a) (g b)) : Related S (x >>= f) (y >>= g) := by
  cases h with
  | ok h => exact hnext _ _ h
  | error h => exact .error h

theorem map (h : Related R x y) {f : α → γ} {g : β → δ} (hnext : ∀ a b, R a b → S (f a) (g b)) :
    Related S (x.map f) (y.map g) := by
  cases h with
  | ok h => exact .ok (hnext _ _ h)
  | error h => exact .error h

theorem mono {R' : α → β → Prop} (h : Related R x y) (hR : ∀ a b, R a b → R' a b) :
    Related R' x y := by
  cases h with
  | ok h => exact .ok (hR _ _ h)
  | error h => exact .error h

theorem ok_or_error (h : Related R x y) : (∃ a b, x = .ok a ∧ y = .ok b ∧ R a b) ∨
    ∃ e f, x = .error e ∧ y = .error f ∧ e.family = f.family := by
  cases h with
  | ok h => exact .inl ⟨_, _, rfl, rfl, h⟩
  | error h => exact .inr ⟨_, _, rfl, rfl, h⟩

end Related

/-- Two outcomes that tell a caller the same: equal results, or faults of one class. -/
def Alike [BEq α] (x y : Except Fault α) : Prop :=
  Related (fun a b => (a == b) = true) x y

end Outcome

namespace Logged

variable {α β : Type}

@[simp] theorem runWith_pure (a : α) (log : Log) :
    (pure a : Logged α).runWith log = (.ok a, log) := rfl

@[simp] theorem runWith_quiet (r : Except Fault α) (log : Log) :
    (quiet r).runWith log = (r, log) := rfl

theorem runWith_bind (x : Logged α) (f : α → Logged β) (log : Log) :
    (x >>= f).runWith log = match x.runWith log with
      | (.ok a, after) => (f a).runWith after
      | (.error e, after) => (.error e, after) := by
  simp only [runWith, ExceptT.run, StateT.run, bind, ExceptT.bind, ExceptT.mk, StateT.bind]
  cases x log with
  | mk result after => cases result <;> rfl

theorem runWith_bind_ok {x : Logged α} {f : α → Logged β} {log after : Log} {a : α}
    (h : x.runWith log = (.ok a, after)) : (x >>= f).runWith log = (f a).runWith after := by
  rw [runWith_bind, h]

theorem fst_runWith_quiet_bind (r : Except Fault α) (f : α → Logged β) (log : Log) :
    ((quiet r >>= f).runWith log).1 = r >>= fun a => ((f a).runWith log).1 := by
  rw [runWith_bind]
  cases r <;> rfl

theorem quiet_bind_congr {r : Except Fault α} {f g : α → Logged β}
    (h : ∀ a, r = .ok a → f a = g a) : (quiet r >>= f) = (quiet r >>= g) := by
  cases r with
  | ok a =>
    show (pure a >>= f) = (pure a >>= g)
    rw [pure_bind, pure_bind, h a rfl]
  | error e => rfl

@[simp] theorem runWith_get (log : Log) : (get : Logged Log).runWith log = (.ok log, log) := rfl

theorem runWith_report_on (message : Unit → Except Fault String) (messages : List String) :
    (report message).runWith ⟨true, messages⟩ = match message () with
      | .ok text => (.ok (), ⟨true, messages ++ [text]⟩)
      | .error e => (.error e, ⟨true, messages⟩) := by
  rw [report, runWith_bind_ok (runWith_get _), if_pos rfl]
  cases message () <;> rfl

theorem runWith_report (message : Unit → Except Fault String) {text : String}
    (h : message () = .ok text) (log : Log) :
    ∃ after, (report message).runWith log = (.ok (), after) := by
  obtain ⟨enabled, messages⟩ := log
  cases enabled with
  | false => exact ⟨_, rfl⟩
  | true => exact ⟨⟨true, messages ++ [text]⟩, by rw [runWith_report_on, h]⟩

end Logged

end EpsilonAutomata
