import EpsilonAutomata.Automaton.Closure

/-!
# Paths

Whether a word leads from one state to another, decided by a search through configurations: a state
together with a position in the word. Each configuration is seen at most once, which is why the
search ends.
-/

namespace EpsilonAutomata

/-- A state and the number of symbols read so far. -/
structure Configuration where
  state : Value
  position : Nat

namespace Configuration

instance : BEq Configuration := ⟨fun a b => a.position == b.position && a.state == b.state⟩

theorem beq_iff {a b : Configuration} :
    (a == b) = true ↔ a.position = b.position ∧ (a.state == b.state) = true := by
  show (a.position == b.position && a.state == b.state) = true ↔ _
  simp

instance : EquivBEq Configuration where
  rfl := beq_iff.2 ⟨rfl, BEq.rfl⟩
  symm h :=
    have ⟨h₁, h₂⟩ := beq_iff.1 h
    beq_iff.2 ⟨h₁.symm, BEq.symm h₂⟩
  trans h k :=
    have ⟨h₁, h₂⟩ := beq_iff.1 h
    have ⟨k₁, k₂⟩ := beq_iff.1 k
    beq_iff.2 ⟨h₁.trans k₁, BEq.trans h₂ k₂⟩

end Configuration

namespace Automaton

/-- The configurations one move away: by an empty move at the same position, then by the next symbol
of the word one position further. There are none beyond the end of the word. -/
def movesFrom (n : Automaton) (word : Word) (c : Configuration) :
    Except Fault (List Configuration) :=
  let resting := (n.epsilonTargets c.state).items.map fun s => ⟨s, c.position⟩
  match word.drop c.position with
  | [] => .ok (if c.position = word.length then resting else [])
  | x :: _ =>
    if x.hashable then
      .ok (resting ++ (n.targets c.state x).items.map fun s => ⟨s, c.position + 1⟩)
    else .error .unhashable

/-- Every configuration that a move can lead to while a word is read. -/
def goals (n : Automaton) (word : Word) : List Configuration :=
  (List.range (word.length + 2)).flatMap fun p =>
    (n.epsilonGoals ++ n.symbolMoves.get.targets).map fun s => ⟨s, p⟩

/-- A search in progress: the configurations seen, and among them those still to visit. -/
structure Search where
  seen : OrderedSet Configuration
  stack : List Configuration

/-- Pushes a configuration that was not seen before. -/
def Search.push (s : Search) (c : Configuration) : Search :=
  if s.seen.contains c then s else ⟨s.seen.insert c, c :: s.stack⟩

def Search.pushAll (s : Search) (cs : List Configuration) : Search :=
  cs.foldl Search.push s

/-- What is left of a search: goals not seen yet, and configurations still to visit. -/
def Search.rest (s : Search) (goals : List Configuration) : Nat :=
  s.seen.missing goals + s.stack.length

theorem Search.rest_push_le {s : Search} {goals : List Configuration} {c : Configuration}
    (h : c ∈ goals) : (s.push c).rest goals ≤ s.rest goals := by
  unfold Search.push
  split
  · exact Nat.le_refl _
  · next hc =>
    have : (s.seen.insert c).missing goals < s.seen.missing goals :=
      OrderedSet.missing_lt (fun b _ hb => OrderedSet.mem_insert.2 (.inl hb)) h hc
        (OrderedSet.mem_insert.2 (.inr BEq.rfl))
    simp only [Search.rest, List.length_cons]
    omega

theorem Search.rest_pushAll_le {s : Search} {goals cs : List Configuration}
    (h : ∀ c ∈ cs, c ∈ goals) : (s.pushAll cs).rest goals ≤ s.rest goals := by
  unfold Search.pushAll
  induction cs generalizing s with
  | nil => exact Nat.le_refl _
  | cons c cs ih =>
    exact Nat.le_trans (ih fun d hd => h d (by simp [hd]))
      (Search.rest_push_le (h c (by simp)))

theorem mem_goals {n : Automaton} {word : Word} {s : Value} {p : Nat} (hp : p ≤ word.length + 1)
    (hs : s ∈ n.epsilonGoals ∨ s ∈ n.symbolMoves.get.targets) :
    (⟨s, p⟩ : Configuration) ∈ n.goals word := by
  refine List.mem_flatMap.2 ⟨p, List.mem_range.2 (by omega), List.mem_map.2 ⟨s, ?_, rfl⟩⟩
  exact List.mem_append.2 hs

theorem mem_goals_of_movesFrom {n : Automaton} {word : Word} {c d : Configuration}
    {moves : List Configuration} (h : n.movesFrom word c = .ok moves) (hd : d ∈ moves) :
    d ∈ n.goals word := by
  have resting (hc : c.position ≤ word.length) {d : Configuration}
      (hd : d ∈ (n.epsilonTargets c.state).items.map fun s => (⟨s, c.position⟩ : Configuration)) :
      d ∈ n.goals word := by
    obtain ⟨s, hs, rfl⟩ := List.mem_map.1 hd
    exact mem_goals (by omega) (.inl (mem_epsilonGoals hs))
  simp only [movesFrom] at h
  split at h
  · cases h
    split at hd
    · next hc => exact resting (by omega) hd
    · simp at hd
  · next x rest hdrop =>
    have hlen : (word.drop c.position).length = rest.length + 1 := by rw [hdrop]; rfl
    rw [List.length_drop] at hlen
    split at h
    · cases h
      rcases List.mem_append.1 hd with hd | hd
      · exact resting (by omega) hd
      · obtain ⟨s, hs, rfl⟩ := List.mem_map.1 hd
        refine mem_goals (by omega) ?_
        unfold targets at hs
        split at hs
        · exact .inl (mem_epsilonGoals hs)
        · exact .inr (Table.mem_targets_of_mem_get hs)
    · cases h

/-- Visits configurations, latest first, until the goal is found or none is left. -/
def search (n : Automaton) (word : Word) (goal : Configuration) (seen : OrderedSet Configuration) :
    List Configuration → Except Fault Bool
  | [] => .ok false
  | c :: stack =>
    if c == goal then .ok true
    else match _h : n.movesFrom word c with
      | .error e => .error e
      | .ok moves =>
        let next := (Search.mk seen stack).pushAll moves
        n.search word goal next.seen next.stack
termination_by stack => (Search.mk seen stack).rest (n.goals word)
decreasing_by
  have := Search.rest_pushAll_le (s := ⟨seen, stack⟩)
    (fun d hd => mem_goals_of_movesFrom _h hd)
  simp only [Search.rest, List.length_cons] at this ⊢
  omega

/-- Whether the symbols of a word lead from one state to another. -/
def leadsTo (n : Automaton) (source : Value) (word : Word) (target : Value) : Except Fault Bool :=
  let start : Configuration := ⟨source, 0⟩
  n.search word ⟨target, word.length⟩ (.ofList [start]) [start]

/-- Whether a word leads from one state to another; the mark of the empty move inside it reads
nothing. -/
def path (n : Automaton) (state word dest : Value) : Except Fault Bool := do
  let _ ← n.statesOf (.list [state, dest])
  let symbols ← word.items
  n.leadsTo state (symbols.filter fun x => !x.isEpsilon) dest

end Automaton

end EpsilonAutomata
