import EpsilonAutomata.Proofs.Build.Equality

/-!
# Sequences, however they are grouped

Concatenation of shapes is associative up to `==`, links included (`Shape.concat_assoc`), and the numbers
are issued from left to right in whatever way a sequence is grouped. So expressions that differ in the
grouping of their sequences (`Regex.Regrouped`) are laid out alike. The automaton of a word is that of the
sequence of its symbols grouped to the left (`Build.runWith_string_cons`), to which every sequence that
spells the word can be regrouped (`Regex.Spells.regrouped`).
-/

namespace EpsilonAutomata

/-! ## Concatenation -/

namespace Shape

variable {r s t s' t' : Shape} {a b : Value}

theorem concat_congr (hs : (s == s') = true) (ht : (t == t') = true) :
    (s.concat t == s'.concat t') = true :=
  image_beq_iff.mp (.concat .beq (image_beq_iff.mpr hs) (image_beq_iff.mpr ht))

theorem union_congr (hs : (s == s') = true) (ht : (t == t') = true) (hab : (a == b) = true) :
    (s.union t a == s'.union t' b) = true :=
  image_beq_iff.mp (.union .beq hab (image_beq_iff.mpr hs) (image_beq_iff.mpr ht))

theorem concat_assoc (r s t : Shape) :
    ((r.concat s).concat t == r.concat (s.concat t)) = true := by
  refine beq_iff.mpr ⟨OrderedSet.union_assoc .., OrderedSet.union_assoc .., BEq.rfl, ?_, BEq.rfl⟩
  rw [OrderedSet.beq_iff]
  intro u
  have hfinals : (r.concat s).finals = s.finals := rfl
  have hstart : (s.concat t).initial = s.initial := rfl
  simp only [mem_transitions_concat, hfinals, hstart]
  -- either way there are the moves of the three and the links from each to the next
  tauto

end Shape

/-! ## Regrouping -/

namespace Regex

/-- The expressions differ only in how their sequences are grouped, at any depth. -/
inductive Regrouped : Regex → Regex → Prop
  | refl (a : Regex) : Regrouped a a
  | symm {a b : Regex} (h : Regrouped a b) : Regrouped b a
  | trans {a b c : Regex} (h : Regrouped a b) (k : Regrouped b c) : Regrouped a c
  | seq {a b a' b' : Regex} (h : Regrouped a a') (k : Regrouped b b') :
      Regrouped (.seq a b) (.seq a' b')
  | alt {a b a' b' : Regex} (h : Regrouped a a') (k : Regrouped b b') :
      Regrouped (.alt a b) (.alt a' b')
  | assoc (a b c : Regex) : Regrouped (.seq (.seq a b) c) (.seq a (.seq b c))

variable {a b r : Regex}

theorem Regrouped.sameLayout (h : Regrouped a b) : SameLayout a b := by
  induction h with
  | refl a => exact ⟨rfl, fun _ => BEq.rfl⟩
  | symm _ ih => exact ⟨ih.stateCount.symm, fun c => BEq.symm (ih.layout c)⟩
  | trans _ _ ih ik =>
    exact ⟨ih.stateCount.trans ik.stateCount, fun c => BEq.trans (ih.layout c) (ik.layout c)⟩
  | @seq a b a' b' _ _ ih ik =>
    refine ⟨congrArg₂ (· + ·) ih.stateCount ik.stateCount, fun c => ?_⟩
    rw [layout, layout, ← ih.stateCount]
    exact Shape.concat_congr (ih.layout c) (ik.layout _)
  | @alt a b a' b' _ _ ih ik =>
    refine ⟨congrArg₂ (fun i j => i + j + 1) ih.stateCount ik.stateCount, fun c => ?_⟩
    rw [layout, layout, ← ih.stateCount, ← ik.stateCount]
    exact Shape.union_congr (ih.layout c) (ik.layout _) BEq.rfl
  | assoc a b d =>
    refine ⟨Nat.add_assoc .., fun c => ?_⟩
    have hplace : c + ((a.stateCount + b.stateCount : Nat) : Int) =
        c + a.stateCount + b.stateCount := by omega
    simp only [layout, stateCount, hplace]
    exact Shape.concat_assoc ..

/-! ## Words -/

/-- The expression is a sequence of symbols, grouped in any way, and these are the word. -/
inductive Spells : Regex → Word → Prop
  | symb (x : Value) : Spells (.symb x) [x]
  | seq {a b : Regex} {u v : Word} (h : Spells a u) (k : Spells b v) : Spells (.seq a b) (u ++ v)

/-- The expression followed by the symbols of a word, one after the other. -/
def followedBy (r : Regex) (w : Word) : Regex :=
  w.foldl (fun r x => .seq r (.symb x)) r

@[simp] theorem followedBy_nil (r : Regex) : r.followedBy [] = r := rfl

@[simp] theorem followedBy_cons (r : Regex) (x : Value) (w : Word) :
    r.followedBy (x :: w) = (Regex.seq r (.symb x)).followedBy w := rfl

theorem followedBy_append (r : Regex) (u v : Word) :
    r.followedBy (u ++ v) = (r.followedBy u).followedBy v :=
  List.foldl_append

namespace Spells

variable {u v w : Word} {x : Value}

theorem ne_nil (h : Spells r w) : w ≠ [] := by
  induction h with
  | symb x => exact List.cons_ne_nil x []
  | seq _ _ ih _ => exact fun happend => ih (List.append_eq_nil_iff.mp happend).1

theorem compilable (h : Spells r w) (hw : ∀ x ∈ w, x.hashable = true ∧ x.isEpsilon = false) :
    r.Compilable := by
  induction h with
  | symb x => exact hw x List.mem_cons_self
  | seq _ _ ih ik =>
    exact ⟨ih fun x hx => hw x (List.mem_append_left _ hx),
      ik fun x hx => hw x (List.mem_append_right _ hx)⟩

theorem regrouped_seq (h : Spells b v) (a : Regex) : Regrouped (.seq a b) (a.followedBy v) := by
  induction h generalizing a with
  | symb x => exact .refl _
  | @seq b₁ b₂ u v _ _ ih ik =>
    rw [followedBy_append]
    have hleft : Regrouped (.seq (.seq a b₁) b₂) (.seq (a.followedBy u) b₂) :=
      .seq (ih a) (.refl b₂)
    exact (Regrouped.assoc a b₁ b₂).symm.trans (hleft.trans (ik _))

/-- What spells a word can be grouped to the left. -/
theorem regrouped (h : Spells r (x :: w)) : Regrouped r ((Regex.symb x).followedBy w) := by
  generalize hv : x :: w = v at h
  induction h generalizing w with
  | symb y =>
    obtain ⟨rfl, rfl⟩ := List.cons.inj hv
    exact .refl _
  | @seq a b u v ha hb ih _ =>
    -- the left side has the first symbol, since it spells some part of the word
    obtain ⟨y, u, rfl⟩ := List.exists_cons_of_ne_nil ha.ne_nil
    rw [List.cons_append] at hv
    obtain ⟨rfl, rfl⟩ := List.cons.inj hv
    rw [followedBy_append]
    exact .trans (.seq (ih rfl) (.refl b)) (hb.regrouped_seq _)

end Spells

theorem spells_followedBy {u w : Word} (h : Spells r u) : Spells (r.followedBy w) (u ++ w) := by
  induction w generalizing r u with
  | nil => simpa using h
  | cons x w ih => simpa using ih (.seq h (.symb x))

end Regex

namespace Build

variable {r : Regex} {word x : Value} {w : Word}

theorem regex_followedBy (r : Regex) (w : Word) :
    regex (r.followedBy w) = regex r >>= fun n => appendSymbols n w := by
  induction w generalizing r with
  | nil => exact (bind_pure _).symm
  | cons x w ih =>
    have hstep : regex (.seq r (.symb x)) =
        regex r >>= fun m => symbol x >>= fun part => concat m part := rfl
    rw [Regex.followedBy_cons, ih, hstep]
    simp only [appendSymbols, bind_assoc]

/-- A word is built as the sequence of its symbols, grouped to the left. -/
theorem runWith_string_cons (hitems : word.items = .ok (x :: w)) (ws : Workshop) :
    (string word).runWith ws = (regex ((Regex.symb x).followedBy w)).runWith ws := by
  have hquiet : (quiet word.items).runWith ws = (.ok (x :: w), ws) := by
    rw [hitems, runWith_quiet]
  rw [string, runWith_bind_ok hquiet, regex_followedBy]
  rfl

theorem agree_string (hitems : word.items = .ok w)
    (hw : ∀ x ∈ w, x.hashable = true ∧ x.isEpsilon = false) (hr : r.Spells w) :
    Agree (string word) (regex r) := by
  obtain ⟨x, w, rfl⟩ := List.exists_cons_of_ne_nil hr.ne_nil
  have hchain : ((Regex.symb x).followedBy w).Spells (x :: w) := Regex.spells_followedBy (.symb x)
  have hagree := agree_regex (Regex.compiles_iff.mpr (hchain.compilable hw))
    (Regex.compiles_iff.mpr (hr.compilable hw)) hr.regrouped.symm.sameLayout
  intro ws ws' c hc hc'
  rw [runWith_string_cons hitems]
  exact hagree ws ws' c hc hc'

/-- How sequences are grouped does not show in what is built of an expression, and a word is built like
every sequence of its symbols. -/
theorem agree_of_regrouped :
    (∀ a b : Regex, a.Regrouped b → a.Compiles → b.Compiles → Agree (regex a) (regex b)) ∧
      ∀ (word : Value) (w : Word) (r : Regex), word.items = .ok w →
        (∀ x ∈ w, x.hashable = true ∧ x.isEpsilon = false) → r.Spells w →
        Agree (string word) (regex r) :=
  ⟨fun _ _ h ha hb => agree_regex ha hb h.sameLayout,
    fun _ _ _ hitems hw hr => agree_string hitems hw hr⟩

/-- A sequence of four inside a choice, and a text of three characters. -/
theorem agree_of_regrouped_four :
    let a := Regex.symb (.text "a")
    let b := Regex.symb (.int 1)
    let left := Regex.alt (.seq (.seq (.seq a b) .empty) a) .eps
    let right := Regex.alt (.seq a (.seq (.seq b .empty) a)) .eps
    let word := Value.text "aba"
    let w := [Value.text "a", .text "b", .text "a"]
    let spelled := Regex.seq a (.seq (.symb (.text "b")) a)
    ((left.Regrouped right ∧ left.Compiles ∧ right.Compiles) ∧
      word.items = .ok w ∧ (∀ x ∈ w, x.hashable = true ∧ x.isEpsilon = false) ∧
      spelled.Spells w) ∧
      Agree (regex left) (regex right) ∧ Agree (string word) (regex spelled) := by
  intro a b left right word w spelled
  have hgroup : left.Regrouped right := by
    refine .alt ?_ (.refl .eps)
    have hinner : Regex.Regrouped (.seq (.seq a b) .empty) (.seq a (.seq b .empty)) := .assoc ..
    exact (Regex.Regrouped.seq hinner (.refl a)).trans (.assoc ..)
  have hleft : left.Compiles :=
    Regex.compiles_iff.mpr ⟨⟨⟨⟨⟨rfl, rfl⟩, rfl, rfl⟩, trivial⟩, rfl, rfl⟩, trivial⟩
  have hright : right.Compiles :=
    Regex.compiles_iff.mpr ⟨⟨⟨rfl, rfl⟩, ⟨⟨rfl, rfl⟩, trivial⟩, rfl, rfl⟩, trivial⟩
  have hitems : word.items = .ok w := rfl
  have hw : ∀ x ∈ w, x.hashable = true ∧ x.isEpsilon = false := by
    simp [w, Value.hashable, Value.isEpsilon]
  have hspells : spelled.Spells w := .seq (.symb _) (.seq (.symb _) (.symb _))
  exact ⟨⟨⟨hgroup, hleft, hright⟩, hitems, hw, hspells⟩,
    agree_of_regrouped.1 left right hgroup hleft hright,
    agree_of_regrouped.2 word w spelled hitems hw hspells⟩

end Build

end EpsilonAutomata
