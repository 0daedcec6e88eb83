import EpsilonAutomata.Proofs.Build.Compile
import EpsilonAutomata.Proofs.Build.Relocation

/-!
# Building returns

With the log off and a counter that stands at a whole number, building comes to an end and returns an
automaton that keeps the invariants (`construction_returns`): a fresh number is always found, states
that can be put in order can be moved, and what is put together is sound.
-/

namespace EpsilonAutomata.Build

open Automaton (ofShape valid_ofShape)

variable {m n r j : Automaton} {ws mid after : Workshop} {lo c : Int}

/-- The work ends with an automaton that breaks no invariant. -/
def Returns (work : Build Automaton) (ws : Workshop) : Prop :=
  ∃ n after, work.runWith ws = (.ok n, after) ∧ n.violations = []

theorem returns_of_valid {work : Build Automaton} (h : work.runWith ws = (.ok n, after))
    (hn : n.Valid) : Returns work ws :=
  ⟨n, after, h, Shape.violations_eq_nil_iff.mpr hn.sound⟩

/-! ## Keeping apart -/

theorem separate_returns (hn : n.Valid) (hsort : n.Sortable) (hc : ws.counter.value? = some c)
    (hlog : ws.log.enabled = false) :
    ∃ r after, (separate m n).runWith ws = (.ok r, after) ∧ after.log = ws.log := by
  cases hdisjoint : m.states.disjoint n.states with
  | true => exact ⟨n, ws, separate_of_disjoint hdisjoint, rfl⟩
  | false =>
    obtain ⟨inOrder, hsorted⟩ := hsort.sorted_eq_ok fun _ ha => ha
    obtain ⟨ks, k, after, hlength, -, -, -, hoff, hrun⟩ :=
      separate_eq_remap hn hsorted hc hdisjoint
    obtain ⟨r, hr⟩ := exists_remap_placement hn hsorted hlength
    exact ⟨r, after, by rw [hrun, hr], hoff hlog⟩

/-! ## Joining -/

theorem concat_returns (hm : m.Valid) (hn : n.Valid) (hsort : n.Sortable)
    (hc : ws.counter.value? = some c) (hlog : ws.log.enabled = false) :
    ∃ j after, (concat m n).runWith ws = (.ok j, after) ∧ j.Valid ∧ after.log = ws.log := by
  obtain ⟨r, mid, hseparate, hmid⟩ := separate_returns (m := m) hn hsort hc hlog
  have hr := (separate_spec hn hseparate).valid
  have hrun := concat_of_separate hm hr hseparate (runWith_report_off _ (by rw [hmid, hlog]))
  exact ⟨_, mid, hrun, valid_ofShape (Shape.sound_concat hm.sound hr.sound)
    (Shape.hashable_concat hm.hashable hr.hashable), hmid⟩

theorem union_returns (hm : m.Valid) (hn : n.Valid) (hsort : n.Sortable)
    (hc : ws.counter.value? = some c) (hlog : ws.log.enabled = false) :
    ∃ j after, (union m n).runWith ws = (.ok j, after) ∧ j.Valid := by
  obtain ⟨r, mid, hseparate, hmid⟩ := separate_returns (m := m) hn hsort hc hlog
  obtain ⟨d, -, hd⟩ := separate_counter hc hseparate
  obtain ⟨k, -, hstart⟩ := freshState_returns (m.states ∪ r.states) hd
  have hr := (separate_spec hn hseparate).valid
  have hrun := union_of_separate hm hr hseparate hstart rfl
    (runWith_report_off _ (by rw [← hlog, ← hmid]))
  exact ⟨_, _, hrun, valid_ofShape (Shape.sound_union hm.sound hr.sound)
    (Shape.hashable_union hm.hashable hr.hashable rfl)⟩

/-! ## Making automata from nothing -/

theorem appendSymbols_returns {w : Word} (hn : Numbered lo c n) (hc : ws.counter.value? = some c)
    (hlog : ws.log.enabled = false) (hw : ∀ x ∈ w, x.hashable = true ∧ x.isEpsilon = false) :
    ∃ j after, (appendSymbols n w).runWith ws = (.ok j, after) ∧ j.Valid := by
  induction w generalizing n ws c with
  | nil => exact ⟨n, ws, runWith_pure n ws, hn.valid⟩
  | cons x w ih =>
    obtain ⟨hx, hread⟩ := hw x List.mem_cons_self
    have hpart := Numbered.edge c hx
    let issued : Workshop := { ws with counter := ⟨.int (c + 1 + 1)⟩ }
    have hissued : issued.counter.value? = some (c + 1 + 1) := rfl
    obtain ⟨joined, mid, hjoined, -, hmid⟩ := concat_returns hn.valid hpart.valid hpart.sortable
      hissued hlog
    obtain ⟨d, hd, hnumbers⟩ := hn.concat_next hpart hissued hjoined
    obtain ⟨j, after, hrest, hj⟩ := ih hnumbers hd (by rw [hmid, hlog])
      fun y hy => hw y (List.mem_cons_of_mem x hy)
    refine ⟨j, after, ?_, hj⟩
    rw [appendSymbols, runWith_bind_ok (runWith_symbol hc hx hread), runWith_bind_ok hjoined, hrest]

theorem string_returns {word : Value} {w : Word} (hc : ws.counter.value? = some c)
    (hlog : ws.log.enabled = false) (hitems : word.items = .ok w)
    (hw : ∀ x ∈ w, x.hashable = true ∧ x.isEpsilon = false) : Returns (string word) ws := by
  have hrun : (string word).runWith ws = (match w with
      | [] => epsilon
      | x :: rest => symbol x >>= fun n => appendSymbols n rest).runWith ws := by
    rw [string, hitems]
    cases w <;> rfl
  cases w with
  | nil => exact returns_of_valid (hrun.trans (runWith_epsilon hc)) (Numbered.edge c rfl).valid
  | cons x rest =>
    obtain ⟨hx, hread⟩ := hw x List.mem_cons_self
    have hpart := Numbered.edge c hx
    let issued : Workshop := { ws with counter := ⟨.int (c + 1 + 1)⟩ }
    have hissued : issued.counter.value? = some (c + 1 + 1) := rfl
    obtain ⟨j, after, hrest, hj⟩ := appendSymbols_returns hpart hissued hlog
      fun y hy => hw y (List.mem_cons_of_mem x hy)
    rw [runWith_bind_ok (runWith_symbol hc hx hread), hrest] at hrun
    exact returns_of_valid hrun hj

/-- With the log off and a counter at a whole number, everything that is built from nothing is
returned without a breach, whatever the symbols are that can be members of a set. So is what is put
together from two automata whose states can be put in order, whatever states they share and wherever
their numbers come from. -/
theorem construction_returns (hc : ws.counter.value? = some c) (hlog : ws.log.enabled = false) :
    Returns empty ws ∧ Returns epsilon ws ∧
      (∀ x : Value, x.hashable = true → x.isEpsilon = false → Returns (symbol x) ws) ∧
      (∀ (word : Value) (w : Word), word.items = .ok w →
        (∀ x ∈ w, x.hashable = true ∧ x.isEpsilon = false) → Returns (string word) ws) ∧
      (∀ r : Regex, r.Compilable → Returns (operand (.node r)) ws) ∧
      ∀ m n : Automaton, m.Valid → n.Valid → n.Sortable →
        Returns (concat m n) ws ∧ Returns (union m n) ws := by
  refine ⟨returns_of_valid (runWith_empty hc) (Numbered.lone c).valid,
    returns_of_valid (runWith_epsilon hc) (Numbered.edge c rfl).valid, ?_, ?_, ?_, ?_⟩
  · intro x hx hread
    exact returns_of_valid (runWith_symbol hc hx hread) (Numbered.edge c hx).valid
  · intro word w hitems hw
    exact string_returns hc hlog hitems hw
  · intro r hr
    obtain ⟨n, c', l, after, hrun, -, -, hn⟩ := regex_spec hr hc
    exact returns_of_valid hrun hn.valid
  · intro m n hm hn hsort
    obtain ⟨j, after, hconcat, hj, -⟩ := concat_returns hm hn hsort hc hlog
    obtain ⟨k, after', hunion, hk⟩ := union_returns hm hn hsort hc hlog
    exact ⟨returns_of_valid hconcat hj, returns_of_valid hunion hk⟩

/-- A text, an expression, and an automaton that is joined to itself by a counter that has issued a
number it uses. -/
theorem construction_returns_returning :
    let ws : Workshop := ⟨⟨.bool true⟩, .off⟩
    let n := ofShape returning
    let w := [Value.text "a", .text "b"]
    let r := Regex.alt (.seq (.symb (.tuple [.int 1, .text "a"])) .eps) .empty
    (ws.counter.value? = some 1 ∧ ws.log.enabled = false ∧ (Value.text "ab").items = .ok w ∧
      (∀ x ∈ w, x.hashable = true ∧ x.isEpsilon = false) ∧ r.Compilable ∧ n.Valid ∧ n.Sortable) ∧
      Returns empty ws ∧ Returns epsilon ws ∧ Returns (symbol (.int 0)) ws ∧
        Returns (string (.text "ab")) ws ∧ Returns (operand (.node r)) ws ∧
        Returns (concat n n) ws ∧ Returns (union n n) ws := by
  intro ws n w r
  have hw : ∀ x ∈ w, x.hashable = true ∧ x.isEpsilon = false := by
    simp [w, Value.hashable, Value.isEpsilon]
  have hr : r.Compilable := ⟨⟨⟨rfl, rfl⟩, trivial⟩, trivial⟩
  have hn : n.Valid := returning_made.valid
  have hsort : n.Sortable :=
    (Sorting.allComparable_iff Value.lt? n.states.items).mp (by decide +kernel)
  obtain ⟨hempty, hepsilon, hsymbol, hstring, hbuild, hjoin⟩ := @construction_returns ws 1 rfl rfl
  exact ⟨⟨rfl, rfl, rfl, hw, hr, hn, hsort⟩, hempty, hepsilon, hsymbol _ rfl rfl,
    hstring _ w rfl hw, hbuild r hr, hjoin n n hn hn hsort⟩

end EpsilonAutomata.Build
