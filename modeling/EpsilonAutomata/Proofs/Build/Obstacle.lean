import EpsilonAutomata.Proofs.Build.Layout

/-!
# Expressions without an automaton

An expression has an automaton exactly when it has a language: when no node is bare and every symbol
can be a member of a set (`Regex.Definite`). Both the compiler and the language go through the nodes
from left to right and look at every one of them, also at those beside an empty expression, so in
every other expression the same node stops both (`regex_blocked`).
-/

namespace EpsilonAutomata

namespace Regex

/-- No symbol is the mark of the empty move, which no symbol node is made of. -/
def Readable : Regex → Prop
  | symb x => x.isEpsilon = false
  | seq a b => a.Readable ∧ b.Readable
  | alt a b => a.Readable ∧ b.Readable
  | _ => True

/-- No node is bare, and every symbol can be a member of a set. -/
def Definite : Regex → Prop
  | symb x => x.hashable = true
  | seq a b => a.Definite ∧ b.Definite
  | alt a b => a.Definite ∧ b.Definite
  | bare => False
  | _ => True

variable {r : Regex}

theorem Definite.compilable (h : r.Definite) (hread : r.Readable) : r.Compilable := by
  induction r with
  | empty | eps => trivial
  | symb x => exact ⟨h, hread⟩
  | seq a b iha ihb | alt a b iha ihb => exact ⟨iha h.1 hread.1, ihb h.2 hread.2⟩
  | bare => exact h

theorem Definite.exists_language (h : r.Definite) : ∃ l, r.language = .ok l := by
  induction r with
  | empty | eps => exact ⟨_, rfl⟩
  | symb x => exact ⟨_, if_pos h⟩
  | seq a b iha ihb | alt a b iha ihb =>
    obtain ⟨l, hl⟩ := iha h.1
    obtain ⟨l', hl'⟩ := ihb h.2
    rw [language, hl, hl']
    exact ⟨_, rfl⟩
  | bare => exact absurd h id

end Regex

namespace Build

variable {r a b : Regex} {ws : Workshop} {c : Int}

/-- Why an expression has neither automaton nor language, as the compiler says it and as the language
does: a bare node, or a symbol that cannot be a member of a set. -/
inductive Obstacle : Fault → Fault → Prop
  | bare : Obstacle (.notCompilable none) (.noLanguage none)
  | symbol : Obstacle .unhashable .unhashable

theorem Obstacle.family_eq {e e' : Fault} (h : Obstacle e e') :
    e.family = .form ∧ e'.family = .form := by
  cases h <;> exact ⟨rfl, rfl⟩

/-- Building the expression and finding its language both fail, for one reason. -/
def Blocked (work : Build Automaton) (language : Except Fault Language) (ws : Workshop) : Prop :=
  ∃ e e' after, work.runWith ws = (.error e, after) ∧ language = .error e' ∧ Obstacle e e'

theorem blocked_symbol {x : Value} (hread : x.isEpsilon = false) (hx : ¬ x.hashable = true)
    (hc : ws.counter.value? = some c) : Blocked (symbol x) (Regex.symb x).language ws := by
  have hmember : x.asMember = .error .unhashable := if_neg hx
  refine ⟨.unhashable, .unhashable, { ws with counter := ⟨.int (c + 1 + 1)⟩ }, ?_, if_neg hx,
    .symbol⟩
  rw [symbol, if_neg (by simp [hread]), runWith_two_states hc]
  exact runWith_bind_error (by rw [runWith_quiet, hmember])

theorem blocked_operands {join : Automaton → Automaton → Build Automaton}
    {combine : Language → Language → Except Fault Language} (hread : a.Readable)
    (hnot : ¬ (a.Definite ∧ b.Definite)) (hc : ws.counter.value? = some c)
    (hfirst : ¬ a.Definite → Blocked (regex a) a.language ws)
    (hsecond : ¬ b.Definite → ∀ mid d, Counter.value? mid.counter = some d →
      Blocked (regex b) b.language mid) :
    Blocked (regex a >>= fun m => regex b >>= fun n => join m n)
      (a.language >>= fun l => b.language >>= fun l' => combine l l') ws := by
  by_cases ha : a.Definite
  · have hb : ¬ b.Definite := fun hb => hnot ⟨ha, hb⟩
    obtain ⟨mid, hrun, hmid⟩ := runWith_regex (ha.compilable hread) hc
    obtain ⟨l, hl⟩ := ha.exists_language
    obtain ⟨e, e', after, he, he', hobstacle⟩ := hsecond hb mid _ hmid
    refine ⟨e, e', after, ?_, by rw [hl, he']; rfl, hobstacle⟩
    rw [runWith_bind_ok hrun, runWith_bind_error he]
  · obtain ⟨e, e', after, he, he', hobstacle⟩ := hfirst ha
    exact ⟨e, e', after, runWith_bind_error he, by rw [he']; rfl, hobstacle⟩

theorem regex_blocked (hread : r.Readable) (hnot : ¬ r.Definite)
    (hc : ws.counter.value? = some c) : Blocked (regex r) r.language ws := by
  induction r generalizing ws c with
  | empty | eps => exact absurd trivial hnot
  | symb x => exact blocked_symbol hread hnot hc
  | seq a b iha ihb | alt a b iha ihb =>
    exact blocked_operands hread.1 hnot hc (fun ha => iha hread.1 ha hc)
      fun hb mid d hmid => ihb hread.2 hb hmid
  | bare => exact ⟨_, _, ws, rfl, rfl, .bare⟩

/-- An expression compiles if and only if it has a language, and it does both exactly when no node is
bare and every symbol can be a member of a set; in every other case both fail on the form of the
expression, for one reason. The builder may be any that draws whole numbers, or none, and the log may
be on or off. -/
theorem compile_returns_iff_language (hread : r.Readable) (builder : Option Counter)
    (hbuilder : ∀ k ∈ builder, ∃ c, k.value? = some c) (log : Log) :
    let outcome := ((compile (.node r)).runWith ⟨builder.getD .fresh, log⟩).1
    ((∃ n, outcome = .ok n) ↔ ∃ l, r.language = .ok l) ∧
      ((∃ l, r.language = .ok l) ↔ r.Definite) ∧
      (¬ r.Definite → ∃ e e', outcome = .error e ∧ r.language = .error e' ∧ Obstacle e e' ∧
        e.family = .form ∧ e'.family = .form) := by
  intro outcome
  have hcounter : ∃ c, (builder.getD .fresh).value? = some c := by
    cases builder with
    | none => exact ⟨0, rfl⟩
    | some k => exact hbuilder k rfl
  obtain ⟨c, hc⟩ := hcounter
  have hreturns (h : r.Definite) : ∃ n, outcome = .ok n := by
    obtain ⟨after, hrun, -⟩ :=
      @runWith_compile r ⟨builder.getD .fresh, log⟩ c (h.compilable hread) hc
    exact ⟨_, congrArg Prod.fst hrun⟩
  have hfails (h : ¬ r.Definite) : ∃ e e', outcome = .error e ∧ r.language = .error e' ∧
      Obstacle e e' := by
    obtain ⟨e, e', after, hrun, hlanguage, hobstacle⟩ :=
      @regex_blocked r ⟨builder.getD .fresh, log⟩ c hread h hc
    refine ⟨e, e', ?_, hlanguage, hobstacle⟩
    show ((regex r >>= _).runWith _).1 = _
    rw [runWith_bind_error hrun]
  have houtcome : (∃ n, outcome = .ok n) ↔ r.Definite := by
    refine ⟨fun ⟨n, hn⟩ => ?_, hreturns⟩
    by_contra hnot
    obtain ⟨e, e', he, -⟩ := hfails hnot
    rw [hn] at he
    cases he
  have hlanguage : (∃ l, r.language = .ok l) ↔ r.Definite := by
    refine ⟨fun ⟨l, hl⟩ => ?_, fun h => h.exists_language⟩
    by_contra hnot
    obtain ⟨e, e', -, he', -⟩ := hfails hnot
    rw [hl] at he'
    cases he'
  refine ⟨houtcome.trans hlanguage.symm, hlanguage, fun hnot => ?_⟩
  obtain ⟨e, e', he, he', hobstacle⟩ := hfails hnot
  exact ⟨e, e', he, he', hobstacle, hobstacle.family_eq⟩

/-- A list as a symbol behind an empty expression, which makes it irrelevant to the words, before a
bare node. -/
theorem compile_returns_iff_language_irrelevant :
    let r := Regex.seq (.seq .empty (.symb (.tuple [.list []]))) .bare
    let builder : Option Counter := some ⟨.bool true⟩
    let outcome := ((compile (.node r)).runWith ⟨builder.getD .fresh, .on⟩).1
    (r.Readable ∧ ∀ k ∈ builder, ∃ c, k.value? = some c) ∧
      ((∃ n, outcome = .ok n) ↔ ∃ l, r.language = .ok l) ∧
      ((∃ l, r.language = .ok l) ↔ r.Definite) ∧
      (¬ r.Definite → ∃ e e', outcome = .error e ∧ r.language = .error e' ∧ Obstacle e e' ∧
        e.family = .form ∧ e'.family = .form) := by
  intro r builder
  have hread : r.Readable := ⟨⟨trivial, rfl⟩, trivial⟩
  have hbuilder : ∀ k ∈ builder, ∃ c, k.value? = some c := by
    intro k hk
    obtain rfl := Option.some.inj hk
    exact ⟨1, rfl⟩
  exact ⟨⟨hread, hbuilder⟩, compile_returns_iff_language hread builder hbuilder .on⟩

end Build

end EpsilonAutomata
