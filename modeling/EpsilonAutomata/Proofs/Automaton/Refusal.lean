import EpsilonAutomata.Automaton.Reading
import EpsilonAutomata.Proofs.Automaton.Search

/-!
# Arguments that name no state

A query first looks up the states that its argument names. When one of them is no state, the refusal
tells of the automaton in one line, and that line has the final states in order. So what a caller
sees depends on the final states (`IsRefusal`): where they can be compared it is an invalid state,
and where two of them cannot, the refusal itself fails. All queries refuse an argument with one and
the same fault, before they look at a symbol or a word (`queries_refuse`).
-/

namespace EpsilonAutomata.Automaton

variable {n : Automaton}

/-- What an argument that names no state is answered with. -/
structure IsRefusal (n : Automaton) (e : Fault) : Prop where
  invalid : ValueSet.Comparable n.finals → e.family = .invalidState
  unordered : ¬ ValueSet.Comparable n.finals → e = .incomparable

theorem statesOf_refuses {a : Value} (h : ∃ b ∈ a.named, ¬ n.IsState b) :
    ∃ e, n.IsRefusal e ∧ n.statesOf a = .error e := by
  obtain ⟨fault, hfamily, hrefused⟩ := exists_refusal h
  rw [hrefused]
  by_cases hfinals : ValueSet.Comparable n.finals
  · obtain ⟨text, htext⟩ := Shape.summary_eq_ok hfinals.sorted_eq_ok
    rw [htext]
    exact ⟨fault text, ⟨fun _ => hfamily text, fun hnot => absurd hfinals hnot⟩, rfl⟩
  · rw [Shape.summary_eq_error hfinals]
    exact ⟨.incomparable, ⟨fun hyes => absurd hyes hfinals, fun _ => rfl⟩, rfl⟩

/-- An argument that names something else than states is refused by every query, with one fault
whatever the symbol, the word, the way of closing and the log, and so is a path that begins or ends
outside the states. The fault is an invalid state, unless two final states cannot be compared. -/
theorem queries_refuse (n : Automaton) :
    (∀ a, (∃ b ∈ a.named, ¬ n.IsState b) → ∃ e, n.IsRefusal e ∧
      n.eclose a = .error e ∧ n.ecloseByDepth a = .error e ∧ (∀ x, n.step a x = .error e) ∧
      ∀ word method log, (n.deltaExt a word method).runWith log = (.error e, log)) ∧
    ∀ s d, ¬ n.IsState s ∨ ¬ n.IsState d → ∃ e, n.IsRefusal e ∧
      ∀ word, n.path s word d = .error e := by
  constructor
  · intro a ha
    obtain ⟨e, hrefusal, he⟩ := statesOf_refuses ha
    refine ⟨e, hrefusal, ?_, ?_, ?_, ?_⟩
    · rw [eclose, he]
      rfl
    · rw [ecloseByDepth, he]
      rfl
    · intro x
      rw [step, he]
      rfl
    · intro word method log
      rw [deltaExt, he]
      rfl
  · intro s d hends
    have hpair : ∃ b ∈ (Value.list [s, d]).named, ¬ n.IsState b := by
      rcases hends with hs | hd
      · exact ⟨s, List.mem_cons_self, hs⟩
      · exact ⟨d, List.mem_cons_of_mem s List.mem_cons_self, hd⟩
    obtain ⟨e, hrefusal, he⟩ := statesOf_refuses hpair
    refine ⟨e, hrefusal, ?_⟩
    intro word
    rw [path, he]
    rfl

/-- A mapping, which cannot be looked up, a tuple, which names itself, and a list with a state and a
number that is none; and paths from and to a foreign state. -/
theorem queries_refuse_looping :
    let n := ofShape looping
    (ValueSet.Comparable n.finals ∧ ¬ n.IsState (.int 7)) ∧
      (∀ a ∈ [Value.mapping [], .tuple [.int 0], .list [.int 1, .int 7]],
        (∃ b ∈ a.named, ¬ n.IsState b) ∧ ∃ e, n.IsRefusal e ∧
          n.eclose a = .error e ∧ n.ecloseByDepth a = .error e ∧ (∀ x, n.step a x = .error e) ∧
          ∀ word method log, (n.deltaExt a word method).runWith log = (.error e, log)) ∧
      ∀ s d, s = .int 7 ∨ d = .int 7 → ∃ e, n.IsRefusal e ∧ ∀ word, n.path s word d = .error e := by
  intro n
  have hforeign : ¬ n.IsState (.int 7) := fun h => absurd h.mem (by decide +kernel)
  have hmapping : ¬ n.IsState (.mapping []) := fun h => absurd h.hashable (by decide +kernel)
  have htuple : ¬ n.IsState (.tuple [.int 0]) := fun h => absurd h.mem (by decide +kernel)
  refine ⟨⟨by decide +kernel, hforeign⟩, ?_, ?_⟩
  · have hrefused : ∀ a ∈ [Value.mapping [], .tuple [.int 0], .list [.int 1, .int 7]],
        ∃ b ∈ a.named, ¬ n.IsState b := by
      intro a ha
      simp only [List.mem_cons, List.not_mem_nil, or_false] at ha
      rcases ha with rfl | rfl | rfl
      · exact ⟨.mapping [], List.mem_cons_self, hmapping⟩
      · exact ⟨.tuple [.int 0], List.mem_cons_self, htuple⟩
      · exact ⟨.int 7, List.mem_cons_of_mem _ List.mem_cons_self, hforeign⟩
    exact fun a ha => ⟨hrefused a ha, (queries_refuse n).1 a (hrefused a ha)⟩
  · intro s d hends
    apply (queries_refuse n).2
    rcases hends with rfl | rfl
    · exact .inl hforeign
    · exact .inr hforeign

/-- A number and a text, both final, the second one empty move from the first. -/
def unordered : Shape where
  states := .ofList [.int 1, .text "a"]
  alphabet := ∅
  initial := .int 1
  transitions := .ofList [⟨.int 1, .epsilon, .text "a"⟩]
  finals := .ofList [.int 1, .text "a"]

theorem unordered_made : (ofShape unordered).Made :=
  made_ofShape (.list [.int 1, .text "a"]) (.list []) (.int 1)
    (.list [.tuple [.int 1, .epsilon, .text "a"]]) (.list [.int 1, .text "a"]) rfl
    (List.isEmpty_iff.mp (by decide +kernel)) rfl

/-- Where a number and a text are final, a foreign state is not reported as such. -/
theorem eclose_unordered :
    let n := ofShape unordered
    n.Made ∧ (.int 7 ∉ n.states) ∧ n.eclose (.int 7) = .error .incomparable ∧
      Fault.incomparable.family ≠ .invalidState := by
  intro n
  have hforeign : Value.int 7 ∉ n.states := by decide +kernel
  have hfinals : ¬ ValueSet.Comparable n.finals := by decide +kernel
  obtain ⟨e, hrefusal, he⟩ :=
    statesOf_refuses (n := n) (a := .int 7) ⟨.int 7, List.mem_cons_self, fun h => hforeign h.mem⟩
  refine ⟨unordered_made, hforeign, ?_, by decide⟩
  rw [eclose, he, hrefusal.unordered hfinals]
  rfl

end EpsilonAutomata.Automaton
