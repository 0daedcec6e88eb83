import EpsilonAutomata.Expr.Language
import EpsilonAutomata.Proofs.Outcome

/-!
# Words of a language

What the members of a language are, for each way to put languages together, and which expressions
have one.
-/

namespace EpsilonAutomata

open Outcome

theorem Lists.exists_of_append_beq {u v w : Word} (h : ((u ++ v) == w) = true) :
    ∃ u' v', w = u' ++ v' ∧ (u == u') = true ∧ (v == v') = true := by
  induction u generalizing w with
  | nil => exact ⟨[], w, rfl, rfl, h⟩
  | cons x u ih =>
    cases w with
    | nil => cases h
    | cons y w =>
      obtain ⟨hxy, hrest⟩ := Lists.beq_cons.mp h
      obtain ⟨u', v', rfl, hu, hv⟩ := ih hrest
      exact ⟨y :: u', v', rfl, Lists.beq_cons.mpr ⟨hxy, hu⟩, hv⟩

theorem Lists.append_beq {u v u' v' : Word} (hu : (u == u') = true) (hv : (v == v') = true) :
    ((u ++ v) == (u' ++ v')) = true := by
  induction u generalizing u' with
  | nil =>
    cases u' with
    | nil => exact hv
    | cons y u' => cases hu
  | cons x u ih =>
    cases u' with
    | nil => cases hu
    | cons y u' =>
      obtain ⟨hxy, hrest⟩ := Lists.beq_cons.mp hu
      exact Lists.beq_cons.mpr ⟨hxy, ih hrest⟩

theorem Language.mem_concat {l m : Language} {w : Word} :
    w ∈ l.concat m ↔ ∃ u v, w = u ++ v ∧ u ∈ l ∧ v ∈ m := by
  rw [concat, OrderedSet.mem_ofList]
  constructor
  · rintro ⟨uv, huv, h⟩
    obtain ⟨u, hu, huv⟩ := List.mem_flatMap.mp huv
    obtain ⟨v, hv, rfl⟩ := List.mem_map.mp huv
    obtain ⟨u', v', rfl, huu, hvv⟩ := Lists.exists_of_append_beq h
    exact ⟨u', v', rfl, OrderedSet.mem_iff_exists.mpr ⟨u, hu, huu⟩,
      OrderedSet.mem_iff_exists.mpr ⟨v, hv, hvv⟩⟩
  · rintro ⟨u, v, rfl, hu, hv⟩
    obtain ⟨u', hu', huu⟩ := OrderedSet.mem_iff_exists.mp hu
    obtain ⟨v', hv', hvv⟩ := OrderedSet.mem_iff_exists.mp hv
    exact ⟨u' ++ v', List.mem_flatMap.mpr ⟨u', hu', List.mem_map.mpr ⟨v', hv', rfl⟩⟩,
      Lists.append_beq huu hvv⟩

theorem Language.concat_congr {l m l' m' : Language} (hl : (l == l') = true) (hm : (m == m') = true) :
    (l.concat m == l'.concat m') = true := by
  rw [OrderedSet.beq_iff] at *
  intro w
  simp only [mem_concat, hl, hm]

namespace Regex

/-- The expression is built from the five kinds of nodes, and its symbols can be members of a set. No
symbol is the mark of the empty move, which no symbol node is made of. -/
def Compilable : Regex → Prop
  | empty => True
  | eps => True
  | symb x => x.hashable = true ∧ x.isEpsilon = false
  | seq a b => a.Compilable ∧ b.Compilable
  | alt a b => a.Compilable ∧ b.Compilable
  | bare => False

/-- Both have a language, and these are equal. -/
def SameLanguage (l m : Except Fault Language) : Prop :=
  ∃ k k', l = .ok k ∧ m = .ok k' ∧ (k == k') = true

theorem SameLanguage.join {l m l' m' : Except Fault Language} {join : Language → Language → Language}
    (hjoin : ∀ {k n k' n' : Language}, (k == k') = true → (n == n') = true →
      (join k n == join k' n') = true)
    (hl : SameLanguage l l') (hm : SameLanguage m m') :
    SameLanguage (do return join (← l) (← m)) (do return join (← l') (← m')) := by
  obtain ⟨k, k', rfl, rfl, hk⟩ := hl
  obtain ⟨n, n', rfl, rfl, hn⟩ := hm
  exact ⟨join k n, join k' n', rfl, rfl, hjoin hk hn⟩

theorem language_congr {a b : Regex} (ha : a.Compilable) (hb : b.Compilable)
    (hab : same a b = true) : SameLanguage a.language b.language := by
  induction a generalizing b with
  | empty | eps =>
    cases b <;> simp only [same, Bool.false_eq_true] at hab
    exact ⟨_, _, rfl, rfl, BEq.rfl⟩
  | symb x =>
    cases b <;> simp only [same, Bool.false_eq_true] at hab
    refine ⟨_, _, if_pos ha.1, if_pos hb.1, OrderedSet.beq_iff.mpr fun w => ?_⟩
    rw [OrderedSet.mem_singleton, OrderedSet.mem_singleton]
    have hword := Lists.beq_cons.mpr ⟨hab, BEq.rfl (a := ([] : Word))⟩
    exact ⟨BEq.trans (BEq.symm hword), BEq.trans hword⟩
  | seq a₁ a₂ ih₁ ih₂ =>
    cases b <;> simp only [same, Bool.and_eq_true, Bool.false_eq_true] at hab
    exact (ih₁ ha.1 hb.1 hab.1).join Language.concat_congr (ih₂ ha.2 hb.2 hab.2)
  | alt a₁ a₂ ih₁ ih₂ =>
    cases b <;> simp only [same, Bool.and_eq_true, Bool.false_eq_true] at hab
    exact (ih₁ ha.1 hb.1 hab.1).join OrderedSet.union_congr (ih₂ ha.2 hb.2 hab.2)
  | bare => exact absurd ha id

end Regex

end EpsilonAutomata
