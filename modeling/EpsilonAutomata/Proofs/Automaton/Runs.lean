import EpsilonAutomata.Automaton.Run
import EpsilonAutomata.Collection.Lists
import EpsilonAutomata.Proofs.Automaton.Valid

/-!
# Runs, moves and trails

How runs are put together and taken apart: single moves are runs, a run that reads a symbol has one
move that reads it (`Run.read_iff`), runs stay inside the states, and equal words have the same runs
(`Run.congr_word`). A `Trail` is a run with its transitions written out; `run_iff_exists_trail` says
that a word has a run exactly when some trail carries it, empty moves left out.
-/

namespace EpsilonAutomata

theorem Word.not_epsilon_of_mem_visible {w : Word} {x : Value} (h : x ∈ w.visible) :
    x.isEpsilon = false := by
  simpa using (List.mem_filter.mp h).2

theorem Word.mem_of_mem_visible {w : Word} {x : Value} (h : x ∈ w.visible) : x ∈ w :=
  (List.mem_filter.mp h).1

theorem Word.visible_eq_self {w : Word} (h : ∀ x ∈ w, x.isEpsilon = false) : w.visible = w :=
  List.filter_eq_self.mpr fun x hx => by rw [h x hx]; rfl

theorem Word.visible_cons (x : Value) (w : Word) :
    Word.visible (x :: w) = if x.isEpsilon then w.visible else x :: w.visible := by
  unfold Word.visible
  cases h : x.isEpsilon <;> simp [h]

theorem Word.visible_append (u v : Word) : Word.visible (u ++ v) = u.visible ++ v.visible :=
  List.filter_append ..

theorem Word.visible_congr {w w' : Word} (h : (w == w') = true) :
    (w.visible == w'.visible) = true := by
  induction w generalizing w' with
  | nil =>
    cases w' with
    | nil => rfl
    | cons y w' => cases h
  | cons x w ih =>
    cases w' with
    | nil => cases h
    | cons y w' =>
      obtain ⟨hxy, hrest⟩ := Lists.beq_cons.mp h
      rw [visible_cons, visible_cons, Value.isEpsilon_congr hxy]
      split
      · exact ih hrest
      · exact Lists.beq_cons.mpr ⟨hxy, ih hrest⟩

theorem Word.visible_eq_nil_iff {w : Word} : w.visible = [] ↔ ∀ x ∈ w, x.isEpsilon = true := by
  rw [Word.visible, List.filter_eq_nil_iff]
  simp only [Bool.not_eq_true', Bool.not_eq_false]

theorem Word.visible_of_visible_eq_append {u v w : Word} (h : w.visible = u ++ v) :
    w.visible = u.visible ++ v.visible := by
  calc w.visible
      = Word.visible w.visible := (Word.visible_eq_self fun _ => Word.not_epsilon_of_mem_visible).symm
    _ = Word.visible (u ++ v) := by rw [h]
    _ = u.visible ++ v.visible := Word.visible_append u v

namespace Run

variable {s : Shape} {a b c : Value} {u v w : Word}

theorem of_epsilon (h : (⟨a, .epsilon, b⟩ : Transition) ∈ s.transitions) : Run s a [] b :=
  .skip h refl

theorem of_symbol {x : Value} (hx : x.isEpsilon = false)
    (h : (⟨a, x, b⟩ : Transition) ∈ s.transitions) : Run s a [x] b :=
  .read hx h refl

theorem not_epsilon (run : Run s a w b) : ∀ x ∈ w, x.isEpsilon = false := by
  induction run with
  | stop _ => simp
  | skip _ _ ih => exact ih
  | read symbol _ _ ih => simpa using ⟨symbol, ih⟩

/-- A run that reads a symbol first makes empty moves and then the move that reads it. -/
theorem read_iff {x : Value} (hx : x.isEpsilon = false) :
    Run s a (x :: w) b ↔
      ∃ m k, Run s a [] m ∧ (⟨m, x, k⟩ : Transition) ∈ s.transitions ∧ Run s k w b := by
  constructor
  · intro run
    generalize hv : x :: w = v at run
    induction run with
    | stop _ => cases hv
    | @skip a p b v move rest ih =>
      obtain ⟨m, k, hm, hk, hrest⟩ := ih hv
      exact ⟨m, k, .skip move hm, hk, hrest⟩
    | @read a y k b v symbol move rest ih =>
      obtain ⟨rfl, rfl⟩ := List.cons.inj hv
      exact ⟨a, k, refl, move, rest⟩
  · rintro ⟨m, k, hm, hk, hrest⟩
    exact hm.append (.read hx hk hrest)

theorem congr_word (h : (u == v) = true) (run : Run s a u b) : Run s a v b := by
  induction run generalizing v with
  | stop same =>
    cases v with
    | nil => exact .stop same
    | cons x v => cases h
  | skip move _ ih => exact .skip move (ih h)
  | @read a x m b u symbol move rest ih =>
    cases v with
    | nil => cases h
    | cons y v =>
      obtain ⟨hxy, huv⟩ := Lists.beq_cons.mp h
      have hy : y.isEpsilon = false := by rw [← Value.isEpsilon_congr hxy, symbol]
      exact .read hy ((Shape.mem_transitions_congr BEq.rfl hxy BEq.rfl).mp move) (ih huv)

theorem mono {t : Shape} (h : ∀ m : Transition, m ∈ s.transitions → m ∈ t.transitions)
    (run : Run s a w b) : Run t a w b := by
  induction run with
  | stop same => exact .stop same
  | skip move _ ih => exact .skip (h _ move) ih
  | read symbol move _ ih => exact .read symbol (h _ move) ih

theorem mem_states (hs : s.Sound) (run : Run s a w b) (ha : a ∈ s.states) : b ∈ s.states := by
  induction run with
  | stop same => exact (OrderedSet.mem_congr same).mp ha
  | skip move _ ih => exact ih (hs.move_mem _ move).2.1
  | read _ move _ ih => exact ih (hs.move_mem _ move).2.1

theorem mem_alphabet (hs : s.Sound) (run : Run s a w b) : ∀ x ∈ w, x ∈ s.alphabet := by
  induction run with
  | stop _ => simp
  | skip _ _ ih => exact ih
  | @read a x m b w symbol move _ ih =>
    intro y hy
    rcases List.mem_cons.mp hy with rfl | hy
    · exact (hs.move_mem _ move).2.2.resolve_left (by simp [symbol])
    · exact ih y hy

end Run

/-! ## Trails -/

/-- The transitions of the shape lead, one after the other, from one state to another. -/
def Trail (s : Shape) : Value → List Transition → Value → Prop
  | a, [], b => (a == b) = true
  | a, t :: ts, b => (a == t.source) = true ∧ t ∈ s.transitions.items ∧ Trail s t.target ts b

/-- The labels of a trail. -/
def Trail.labels (ts : List Transition) : Word :=
  ts.map Transition.label

theorem Trail.congr_left {s : Shape} {a b c : Value} {ts : List Transition} (h : (a == b) = true)
    (trail : Trail s b ts c) : Trail s a ts c := by
  cases ts with
  | nil => exact BEq.trans h trail
  | cons t ts => exact ⟨BEq.trans h trail.1, trail.2⟩

theorem exists_trail_of_run {s : Shape} {a b : Value} {w : Word} (run : Run s a w b) :
    ∃ ts, Trail s a ts b ∧ ((Trail.labels ts).visible == w) = true := by
  induction run with
  | stop same => exact ⟨[], same, rfl⟩
  | @skip a m b w move rest ih =>
    obtain ⟨ts, htrail, hlabels⟩ := ih
    obtain ⟨t, ht, hmove⟩ := OrderedSet.mem_iff_exists.mp move
    obtain ⟨hsource, hlabel, htarget⟩ := Transition.beq_iff.mp hmove
    have hskip : t.label.isEpsilon = true := by rw [Value.isEpsilon_congr hlabel]; rfl
    refine ⟨t :: ts, ⟨BEq.symm hsource, ht, htrail.congr_left htarget⟩, ?_⟩
    rw [Trail.labels, List.map_cons, Word.visible_cons, if_pos hskip]
    exact hlabels
  | @read a x m b w symbol move rest ih =>
    obtain ⟨ts, htrail, hlabels⟩ := ih
    obtain ⟨t, ht, hmove⟩ := OrderedSet.mem_iff_exists.mp move
    obtain ⟨hsource, hlabel, htarget⟩ := Transition.beq_iff.mp hmove
    have hread : t.label.isEpsilon = false := by rw [Value.isEpsilon_congr hlabel, symbol]
    refine ⟨t :: ts, ⟨BEq.symm hsource, ht, htrail.congr_left htarget⟩, ?_⟩
    rw [Trail.labels, List.map_cons, Word.visible_cons, if_neg (by simp [hread])]
    exact Lists.beq_cons.mpr ⟨hlabel, hlabels⟩

theorem run_of_trail {s : Shape} {a b : Value} {ts : List Transition} (h : Trail s a ts b) :
    Run s a (Trail.labels ts).visible b := by
  induction ts generalizing a with
  | nil => exact .stop h
  | cons t ts ih =>
    obtain ⟨hsource, ht, hrest⟩ := h
    apply Run.congr_left hsource
    have hmove : t ∈ s.transitions := OrderedSet.mem_of_mem_items ht
    rw [Trail.labels, List.map_cons, Word.visible_cons]
    split
    · next hlabel =>
      rw [show t = ⟨t.source, .epsilon, t.target⟩ by
        rw [← Value.eq_epsilon_of_isEpsilon hlabel]] at hmove
      exact .skip hmove (ih hrest)
    · next hlabel => exact .read (by simpa using hlabel) hmove (ih hrest)

theorem run_iff_exists_trail {s : Shape} {a b : Value} {w : Word} :
    Run s a w b ↔ ∃ ts, Trail s a ts b ∧ ((Trail.labels ts).visible == w) = true := by
  constructor
  · exact exists_trail_of_run
  · rintro ⟨ts, htrail, hlabels⟩
    exact (run_of_trail htrail).congr_word hlabels

theorem run_nil_iff_exists_trail {s : Shape} {a b : Value} :
    Run s a [] b ↔ ∃ ts, Trail s a ts b ∧ ∀ t ∈ ts, t.label.isEpsilon = true := by
  rw [run_iff_exists_trail]
  have hlabels (ts : List Transition) :
      ((Trail.labels ts).visible == ([] : Word)) = true ↔ ∀ t ∈ ts, t.label.isEpsilon = true := by
    rw [List.beq_nil_eq, List.isEmpty_iff, Word.visible_eq_nil_iff]
    simp [Trail.labels]
  simp only [hlabels]

end EpsilonAutomata
