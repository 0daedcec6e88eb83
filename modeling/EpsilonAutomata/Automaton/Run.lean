import EpsilonAutomata.Automaton.Basic

/-!
# Runs

What a word does in an automaton, said without any search: a run follows transitions from one state
to another and reads the labels that are no empty moves. States count up to equality, so runs may
begin and end at any value that equals a state (`Run.congr`), and runs compose (`Run.append`).
-/

namespace EpsilonAutomata

/-- A run from one state to another that reads a word. -/
inductive Run (s : Shape) : Value → Word → Value → Prop where
  | stop {a b : Value} (same : (a == b) = true) : Run s a [] b
  | skip {a m b : Value} {w : Word} (move : (⟨a, .epsilon, m⟩ : Transition) ∈ s.transitions)
      (rest : Run s m w b) : Run s a w b
  | read {a x m b : Value} {w : Word} (symbol : x.isEpsilon = false)
      (move : (⟨a, x, m⟩ : Transition) ∈ s.transitions) (rest : Run s m w b) : Run s a (x :: w) b

namespace Run

variable {s : Shape} {a b c : Value} {u v w : Word}

theorem refl : Run s a [] a := .stop BEq.rfl

theorem congr_left (h : (a == b) = true) (run : Run s b w c) : Run s a w c := by
  cases run with
  | stop same => exact .stop (BEq.trans h same)
  | skip move rest =>
    refine .skip ((OrderedSet.mem_congr ?_).1 move) rest
    exact Transition.beq_iff.2 ⟨BEq.symm h, BEq.rfl, BEq.rfl⟩
  | read symbol move rest =>
    refine .read symbol ((OrderedSet.mem_congr ?_).1 move) rest
    exact Transition.beq_iff.2 ⟨BEq.symm h, BEq.rfl, BEq.rfl⟩

theorem congr_right (run : Run s a w b) (h : (b == c) = true) : Run s a w c := by
  induction run with
  | stop same => exact .stop (BEq.trans same h)
  | skip move _ ih => exact .skip move (ih h)
  | read symbol move _ ih => exact .read symbol move (ih h)

theorem append (first : Run s a u b) (second : Run s b v c) : Run s a (u ++ v) c := by
  induction first with
  | stop same => exact congr_left same second
  | skip move _ ih => exact .skip move (ih second)
  | read symbol move _ ih => exact .read symbol move (ih second)

theorem exists_of_append (run : Run s a (u ++ v) c) : ∃ b, Run s a u b ∧ Run s b v c := by
  generalize hw : u ++ v = w at run
  induction run generalizing u with
  | @stop a b same =>
    obtain ⟨rfl, rfl⟩ := List.append_eq_nil_iff.1 hw
    exact ⟨a, refl, .stop same⟩
  | skip move _ ih =>
    obtain ⟨m, h₁, h₂⟩ := ih hw
    exact ⟨m, .skip move h₁, h₂⟩
  | @read a x m b w symbol move rest ih =>
    cases u with
    | nil =>
      subst hw
      exact ⟨a, refl, .read symbol move rest⟩
    | cons y u =>
      obtain ⟨rfl, rfl⟩ := List.cons.inj hw
      obtain ⟨m, h₁, h₂⟩ := ih rfl
      exact ⟨m, .read symbol move h₁, h₂⟩

end Run

/-- The symbols of a word that are read, which the mark of the empty move is not. -/
def Word.visible (w : Word) : Word :=
  w.filter fun x => !x.isEpsilon

/-- A word leads from the start state to a final state. -/
def Shape.Accepts (s : Shape) (w : Word) : Prop :=
  ∃ f, f ∈ s.finals ∧ Run s s.initial (Word.visible w) f

end EpsilonAutomata
