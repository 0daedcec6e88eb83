import Mathlib.Data.List.Flatten
import Mathlib.Data.List.Shortlex
import EpsilonAutomata.Automaton.Words
import EpsilonAutomata.Proofs.Automaton.Reading

/-!
# The listing of accepted words

`Word.Precedes` is the order of the listing: shorter words come first, and words of one length are
in the order of the places of their symbols. All words of a length, in this order, are
`wordsOfLength`. A round of the listing works on a `Frontier`: some of these words, in order, each
with what it reaches, and none left out that leads somewhere. A round turns the frontier of one
length into that of the next (`Frontier.next`), so the accepted words come out length by length
(`wordsWithin_spec`).
-/

namespace EpsilonAutomata

open Outcome

/-! ## The order of words -/

namespace Word

variable {symbols : List Value} {u v w : Word} {k : Nat}

/-- The place of a symbol in a list of symbols. -/
def place (symbols : List Value) (x : Value) : Nat :=
  symbols.findIdx (· == x)

/-- The first word is shorter, or as long and its symbol has the earlier place where the two first
differ. -/
def Precedes (symbols : List Value) (u v : Word) : Prop :=
  List.Shortlex (· < ·) (u.map (place symbols)) (v.map (place symbols))

theorem place_congr {x y : Value} (h : (x == y) = true) : place symbols x = place symbols y := by
  have hsame : (fun z : Value => z == x) = fun z => z == y := by
    funext z
    exact Bool.eq_iff_iff.mpr ⟨fun hx => BEq.trans hx h, fun hy => BEq.trans hy (BEq.symm h)⟩
  rw [place, hsame]
  rfl

theorem map_place_congr (h : (u == v) = true) : u.map (place symbols) = v.map (place symbols) := by
  induction u generalizing v with
  | nil =>
    cases v with
    | nil => rfl
    | cons y v => cases h
  | cons x u ih =>
    cases v with
    | nil => cases h
    | cons y v =>
      obtain ⟨hxy, huv⟩ := Lists.beq_cons.mp h
      rw [List.map_cons, List.map_cons, place_congr hxy, ih huv]

theorem length_eq_of_beq (h : (u == v) = true) : u.length = v.length := by
  have hplaces : u.map (place []) = v.map (place []) := map_place_congr h
  simpa using congrArg List.length hplaces

theorem Precedes.ne (h : Precedes symbols u v) : (u == v) = false := by
  rw [Bool.eq_false_iff]
  intro huv
  unfold Precedes at h
  rw [map_place_congr huv] at h
  exact irrefl _ h

theorem pairwise_place_lt (h : symbols.Pairwise fun x y => (x == y) = false) :
    symbols.Pairwise fun x y => place symbols x < place symbols y := by
  have hplace (i : Nat) (hi : i < symbols.length) : place symbols symbols[i] = i := by
    rw [place, List.findIdx_eq hi]
    exact ⟨BEq.rfl, fun j hj => List.pairwise_iff_getElem.mp h j i (by omega) hi hj⟩
  rw [List.pairwise_iff_getElem]
  intro i j hi hj hij
  rw [hplace i hi, hplace j hj]
  exact hij

/-- Symbols that words can be made of: no two are equal and none is the mark of the empty move. -/
structure Symbols (xs : List Value) : Prop where
  symbol : ∀ x ∈ xs, x.hashable = true ∧ x.isEpsilon = false
  distinct : xs.Pairwise fun x y => (x == y) = false

theorem Symbols.perm {given : List Value} (h : Symbols given) (hperm : symbols.Perm given) :
    Symbols symbols where
  symbol x hx := h.symbol x (hperm.mem_iff.mp hx)
  distinct := (hperm.pairwise_iff fun hxy => by rw [BEq.comm, hxy]).mpr h.distinct

theorem exists_over (h : ∀ x ∈ w, ∃ y ∈ symbols, (y == x) = true) :
    ∃ u : Word, (u == w) = true ∧ ∀ y ∈ u, y ∈ symbols := by
  induction w with
  | nil => exact ⟨[], rfl, by simp⟩
  | cons x w ih =>
    obtain ⟨y, hy, hyx⟩ := h x (by simp)
    obtain ⟨u, huw, hover⟩ := ih fun z hz => h z (by simp [hz])
    exact ⟨y :: u, Lists.beq_cons.mpr ⟨hyx, huw⟩, by simpa using ⟨hy, hover⟩⟩

/-- The words of a length over the symbols, in order. -/
def wordsOfLength (symbols : List Value) : Nat → List Word
  | 0 => [[]]
  | k + 1 => (wordsOfLength symbols k).flatMap fun w => symbols.map fun x => w ++ [x]

theorem mem_wordsOfLength_succ :
    w ∈ wordsOfLength symbols (k + 1) ↔
      ∃ u ∈ wordsOfLength symbols k, ∃ x ∈ symbols, u ++ [x] = w := by
  simp only [wordsOfLength, List.mem_flatMap, List.mem_map]

theorem mem_wordsOfLength :
    w ∈ wordsOfLength symbols k ↔ w.length = k ∧ ∀ x ∈ w, x ∈ symbols := by
  induction k generalizing w with
  | zero =>
    rw [wordsOfLength, List.mem_singleton, List.length_eq_zero_iff]
    constructor
    · rintro rfl
      exact ⟨rfl, by simp⟩
    · exact And.left
  | succ k ih =>
    rw [mem_wordsOfLength_succ]
    constructor
    · rintro ⟨u, hu, x, hx, rfl⟩
      obtain ⟨hlength, hover⟩ := ih.mp hu
      refine ⟨by simp [hlength], fun y hy => ?_⟩
      rcases List.mem_append.mp hy with hy | hy
      · exact hover y hy
      · rw [List.mem_singleton.mp hy]
        exact hx
    · rintro ⟨hlength, hover⟩
      rcases List.eq_nil_or_concat w with rfl | ⟨u, x, rfl⟩
      · cases hlength
      · refine ⟨u, ih.mpr ⟨by simpa using hlength, fun y hy => ?_⟩, x, ?_, by simp⟩
        · exact hover y (by simp [hy])
        · exact hover x (by simp)

theorem lex_append {s t : List Nat} (h : List.Lex (· < ·) s t) (hlength : s.length = t.length)
    (p q : List Nat) : List.Lex (· < ·) (s ++ p) (t ++ q) := by
  induction h with
  | nil => cases hlength
  | cons _ ih => exact .cons (ih (by simpa using hlength))
  | rel hab => exact .rel hab

theorem Precedes.concat (h : Precedes symbols u v) (hlength : u.length = v.length) (x y : Value) :
    Precedes symbols (u ++ [x]) (v ++ [y]) := by
  unfold Precedes at h ⊢
  have hlex := (List.shortlex_iff_lex (by simpa using hlength)).mp h
  rw [List.map_append, List.map_append]
  exact .of_lex (by simpa using hlength) (lex_append hlex (by simpa using hlength) _ _)

theorem precedes_of_place_lt {x y : Value} (h : place symbols x < place symbols y) :
    Precedes symbols (w ++ [x]) (w ++ [y]) := by
  unfold Precedes
  rw [List.map_append, List.map_append]
  exact .append_left ((List.shortlex_singleton_iff _ _).mpr h) _

theorem pairwise_wordsOfLength (h : symbols.Pairwise fun x y => (x == y) = false) :
    (wordsOfLength symbols k).Pairwise (Precedes symbols) := by
  induction k with
  | zero => exact List.pairwise_singleton ..
  | succ k ih =>
    rw [wordsOfLength, List.pairwise_flatMap]
    constructor
    · intro w _
      rw [List.pairwise_map]
      exact (pairwise_place_lt h).imp precedes_of_place_lt
    · refine ih.imp_of_mem fun {u v} hu hv huv w hw w' hw' => ?_
      obtain ⟨x, -, rfl⟩ := List.mem_map.mp hw
      obtain ⟨y, -, rfl⟩ := List.mem_map.mp hw'
      exact huv.concat (by rw [(mem_wordsOfLength.mp hu).1, (mem_wordsOfLength.mp hv).1]) x y

theorem pairwise_flatMap_wordsOfLength (h : symbols.Pairwise fun x y => (x == y) = false)
    {lengths : List Nat} (hlengths : lengths.Pairwise (· < ·)) :
    (lengths.flatMap (wordsOfLength symbols)).Pairwise (Precedes symbols) := by
  rw [List.pairwise_flatMap]
  refine ⟨fun _ _ => pairwise_wordsOfLength h, hlengths.imp fun {i j} hij u hu v hv => ?_⟩
  apply List.Shortlex.of_length_lt
  rw [List.length_map, List.length_map, (mem_wordsOfLength.mp hu).1, (mem_wordsOfLength.mp hv).1]
  exact hij

end Word

namespace Automaton

variable {n : Automaton} {symbols : List Value} {k : Nat} {bs : List Branch}

/-! ## One branch -/

/-- The closed set of states that a symbol leads to from a set of states. -/
def moved (n : Automaton) (s : ValueSet) (x : Value) : ValueSet :=
  n.closure (.ofList (s.items.flatMap fun a => (n.targets a x).items))

theorem advance_eq (s : ValueSet) {x : Value} (hx : x.hashable = true) :
    n.advance s x = .ok (n.moved s x) := by
  rw [advance, move, if_pos (by simp [hx])]
  rfl

theorem Reaches.moved (hn : n.Valid) {a x : Value} {w : Word} {s : ValueSet}
    (hs : n.Reaches a w s) (hhash : x.hashable = true) (hx : x.isEpsilon = false) :
    n.Reaches a (w ++ [x]) (n.moved s x) := by
  obtain ⟨r, hr, hclosed, hruns⟩ := move_close_eq_ok hn .rounds hs.epsilonClosed hhash hx
  obtain rfl := Except.ok.inj ((advance_eq s hhash).symm.trans hr)
  intro b
  calc b ∈ n.moved s x
      ↔ ∃ c, c ∈ n.moved s x ∧ Run n.toShape c [] b :=
        ⟨fun hb => ⟨b, hb, .refl⟩, fun ⟨_, hc, run⟩ => hclosed.mem_of_run run hc⟩
    _ ↔ ∃ c, c ∈ s ∧ Run n.toShape c [x] b := hruns [] b
    _ ↔ Run n.toShape a (w ++ [x]) b := by
      constructor
      · rintro ⟨c, hc, run⟩
        exact ((hs c).mp hc).append run
      · intro run
        obtain ⟨c, hleft, hright⟩ := run.exists_of_append
        exact ⟨c, (hs c).mpr hleft, hright⟩

/-- The branches one symbol longer that still lead somewhere. -/
def extensions (n : Automaton) (symbols : List Value) (b : Branch) : List Branch :=
  (symbols.map fun x => ⟨b.word ++ [x], n.moved b.states x⟩).filter fun c => !c.states.isEmpty

theorem extendBranch_eq (hsymbols : ∀ x ∈ symbols, x.hashable = true) (b : Branch) :
    n.extendBranch symbols b = .ok (n.extensions symbols b) := by
  have hlonger : symbols.mapM (fun x => do
        return Branch.mk (b.word ++ [x]) (← n.advance b.states x)) =
      .ok (symbols.map fun x => ⟨b.word ++ [x], n.moved b.states x⟩) :=
    mapM_eq_ok_map fun x hx => by rw [advance_eq _ (hsymbols x hx)]; rfl
  rw [extendBranch, hlonger]
  rfl

theorem mem_extensions {b c : Branch} : c ∈ n.extensions symbols b ↔
    (∃ x ∈ symbols, c = ⟨b.word ++ [x], n.moved b.states x⟩) ∧ ∃ a, a ∈ c.states := by
  have hsome : c.states.isEmpty = false ↔ ∃ a, a ∈ c.states := by
    rw [← Bool.not_eq_true, OrderedSet.isEmpty_iff_forall_not_mem]
    simp
  simp only [extensions, List.mem_filter, List.mem_map, Bool.not_eq_true', hsome]
  simp only [eq_comm]

theorem words_extensions (b : Branch) :
    ((n.extensions symbols b).map Branch.word).Sublist (symbols.map fun x => b.word ++ [x]) := by
  have h := (List.filter_sublist (p := fun c : Branch => !c.states.isEmpty)
    (l := symbols.map fun x => ⟨b.word ++ [x], n.moved b.states x⟩)).map Branch.word
  rw [List.map_map] at h
  exact h

/-! ## One round -/

/-- Branches of one length: in order, each with what its word reaches, none left out that leads
somewhere. -/
structure Frontier (n : Automaton) (symbols : List Value) (k : Nat) (bs : List Branch) : Prop where
  words : (bs.map Branch.word).Sublist (Word.wordsOfLength symbols k)
  reaches : ∀ b ∈ bs, n.Reaches n.initial b.word b.states
  complete : ∀ w ∈ Word.wordsOfLength symbols k, ∀ a, Run n.toShape n.initial w a →
    ∃ b ∈ bs, b.word = w

theorem Frontier.next (hn : n.Valid)
    (hsymbols : ∀ x ∈ symbols, x.hashable = true ∧ x.isEpsilon = false)
    (h : n.Frontier symbols k bs) :
    n.Frontier symbols (k + 1) (bs.flatMap (n.extensions symbols)) := by
  have hreach {b : Branch} (hb : b ∈ bs) {x : Value} (hx : x ∈ symbols) :
      n.Reaches n.initial (b.word ++ [x]) (n.moved b.states x) :=
    (h.reaches b hb).moved hn (hsymbols x hx).1 (hsymbols x hx).2
  refine ⟨?_, ?_, ?_⟩
  · calc (bs.flatMap (n.extensions symbols)).map Branch.word
        = bs.flatMap fun b => (n.extensions symbols b).map Branch.word := List.map_flatMap
      List.Sublist _ (bs.flatMap fun b => symbols.map fun x => b.word ++ [x]) :=
        List.Sublist.flatMap_right _ fun b _ => words_extensions b
      _ = (bs.map Branch.word).flatMap fun w => symbols.map fun x => w ++ [x] :=
        by rw [List.flatMap_map]
      List.Sublist _ (Word.wordsOfLength symbols (k + 1)) := h.words.flatMap _
  · intro c hc
    obtain ⟨b, hb, hc⟩ := List.mem_flatMap.mp hc
    obtain ⟨⟨x, hx, rfl⟩, -⟩ := mem_extensions.mp hc
    exact hreach hb hx
  · intro w hw a run
    obtain ⟨u, hu, x, hx, rfl⟩ := Word.mem_wordsOfLength_succ.mp hw
    -- a word that leads somewhere has a beginning that does, and this is on a branch
    obtain ⟨m, hleft, -⟩ := run.exists_of_append
    obtain ⟨b, hb, rfl⟩ := h.complete u hu m hleft
    refine ⟨⟨b.word ++ [x], n.moved b.states x⟩, List.mem_flatMap.mpr ⟨b, hb, ?_⟩, rfl⟩
    exact mem_extensions.mpr ⟨⟨x, hx, rfl⟩, a, (hreach hb hx a).mpr run⟩

/-- The words of the branches that are accepted. -/
def acceptedAmong (n : Automaton) (bs : List Branch) : List Word :=
  (bs.filter fun b => n.accepting b.states).map Branch.word

theorem Frontier.acceptedAmong_sublist (h : n.Frontier symbols k bs) :
    (n.acceptedAmong bs).Sublist (Word.wordsOfLength symbols k) :=
  (List.filter_sublist.map Branch.word).trans h.words

theorem Frontier.mem_acceptedAmong (h : n.Frontier symbols k bs) {w : Word} :
    w ∈ n.acceptedAmong bs ↔ w ∈ Word.wordsOfLength symbols k ∧
      ∃ f, f ∈ n.finals ∧ Run n.toShape n.initial w f := by
  simp only [acceptedAmong, List.mem_map, List.mem_filter, accepting_iff]
  constructor
  · rintro ⟨b, ⟨hb, f, hf, hfb⟩, rfl⟩
    exact ⟨h.words.subset (List.mem_map_of_mem hb), f, hf, (h.reaches b hb f).mp hfb⟩
  · rintro ⟨hw, f, hf, run⟩
    obtain ⟨b, hb, rfl⟩ := h.complete w hw f run
    exact ⟨b, ⟨hb, f, hf, (h.reaches b hb f).mpr run⟩, rfl⟩

/-! ## All rounds -/

theorem wordsWithin_zero : n.wordsWithin symbols 0 bs = .ok (n.acceptedAmong bs) := by
  cases bs <;> rfl

theorem wordsWithin_succ (hsymbols : ∀ x ∈ symbols, x.hashable = true) {more : Nat}
    {words : List Word}
    (h : n.wordsWithin symbols more (bs.flatMap (n.extensions symbols)) = .ok words) :
    n.wordsWithin symbols (more + 1) bs = .ok (n.acceptedAmong bs ++ words) := by
  cases bs with
  | nil =>
    have hnil : n.wordsWithin symbols more [] = .ok [] := by cases more <;> rfl
    rw [List.flatMap_nil, hnil] at h
    obtain rfl := Except.ok.inj h
    rfl
  | cons b bs =>
    have hlonger : (b :: bs).mapM (n.extendBranch symbols) =
        .ok ((b :: bs).map (n.extensions symbols)) :=
      mapM_eq_ok_map fun c _ => extendBranch_eq hsymbols c
    rw [wordsWithin, hlonger]
    · simp only [bind, Except.bind]
      rw [← List.flatMap_def, h]
      rfl
    · exact List.cons_ne_nil b bs

/-- From the branches of one length on, the listing gives the accepted words of this length and of
as many further lengths as there are rounds, in order. -/
theorem wordsWithin_spec (hn : n.Valid)
    (hsymbols : ∀ x ∈ symbols, x.hashable = true ∧ x.isEpsilon = false)
    (h : n.Frontier symbols k bs) (more : Nat) :
    ∃ words, n.wordsWithin symbols more bs = .ok words ∧
      words.Sublist ((List.range' k (more + 1)).flatMap (Word.wordsOfLength symbols)) ∧
      ∀ w, w ∈ words ↔ w ∈ (List.range' k (more + 1)).flatMap (Word.wordsOfLength symbols) ∧
        ∃ f, f ∈ n.finals ∧ Run n.toShape n.initial w f := by
  induction more generalizing k bs with
  | zero =>
    refine ⟨_, wordsWithin_zero, ?_, ?_⟩
    · simpa using h.acceptedAmong_sublist
    · simpa using fun w => h.mem_acceptedAmong
  | succ more ih =>
    obtain ⟨words, hwords, hsub, hmem⟩ := ih (h.next hn hsymbols)
    refine ⟨_, wordsWithin_succ (fun x hx => (hsymbols x hx).1) hwords, ?_, fun w => ?_⟩
    · rw [List.range'_succ, List.flatMap_cons]
      exact h.acceptedAmong_sublist.append hsub
    · rw [List.range'_succ, List.flatMap_cons, List.mem_append, List.mem_append,
        h.mem_acceptedAmong, hmem, or_and_right]

/-! ## The listing -/

/-- The symbols that words are made of: the given ones, or the alphabet. -/
def givenSymbols (n : Automaton) : Option Value → Except Fault (List Value)
  | none => .ok n.alphabet.items
  | some alphabet => alphabet.items

/-- The list holds the accepted words over the given symbols of at most the given length, each once,
in the order that the sorted symbols give, and nothing else. -/
structure Listing (n : Automaton) (given symbols : List Value) (bound : Int) (words : List Word) :
    Prop where
  sound : ∀ w ∈ words, (∀ x ∈ w, x ∈ given) ∧ (w.length : Int) ≤ bound ∧ n.FindsFinal (.tuple w)
  once : ∀ w : Word, (∀ x ∈ w, x.hashable = true ∧ ∃ y ∈ given, (y == x) = true) →
    (w.length : Int) ≤ bound → n.FindsFinal (.tuple w) → words.countP (· == w) = 1
  ordered : words.Pairwise (Word.Precedes symbols)

theorem symbols_alphabet (hn : n.Valid) : Word.Symbols n.alphabet.items where
  symbol x hx := by
    refine ⟨hn.hashable.alphabet x hx, ?_⟩
    rw [Bool.eq_false_iff]
    intro hepsilon
    rw [Value.eq_epsilon_of_isEpsilon hepsilon] at hx
    exact hn.sound.epsilon_not_mem (OrderedSet.mem_of_mem_items hx)
  distinct := n.alphabet.distinct

theorem findsFinal_tuple_iff (hn : n.Valid) {w : Word}
    (hw : ∀ x ∈ w, x.hashable = true ∧ x.isEpsilon = false) :
    n.FindsFinal (.tuple w) ↔ ∃ f, f ∈ n.finals ∧ Run n.toShape n.initial w f := by
  rw [findsFinal_iff hn rfl fun x hx => (hw x hx).1, Shape.Accepts,
    Word.visible_eq_self fun x hx => (hw x hx).2]

theorem frontier_start {s : ValueSet} (h : n.Reaches n.initial [] s) :
    n.Frontier symbols 0 [⟨[], s⟩] where
  words := .refl _
  reaches b hb := by
    obtain rfl := List.mem_singleton.mp hb
    exact h
  complete w hw a run := ⟨_, List.mem_singleton.mpr rfl, (List.mem_singleton.mp hw).symm⟩

theorem listing_of_negative {given : List Value} {bound : Int} (h : bound < 0) :
    n.Listing given symbols bound [] where
  sound w hw := by cases hw
  once w hover hlength := by omega
  ordered := .nil

theorem listing_of_wordsWithin (hn : n.Valid) {given : List Value}
    (hgiven : Word.Symbols given) (hperm : symbols.Perm given) {more : Nat} {words : List Word}
    (hsub : words.Sublist ((List.range' 0 (more + 1)).flatMap (Word.wordsOfLength symbols)))
    (hmem : ∀ w, w ∈ words ↔ w ∈ (List.range' 0 (more + 1)).flatMap (Word.wordsOfLength symbols) ∧
      ∃ f, f ∈ n.finals ∧ Run n.toShape n.initial w f) :
    n.Listing given symbols more words := by
  have hsymbols := hgiven.perm hperm
  have hordered : words.Pairwise (Word.Precedes symbols) :=
    (Word.pairwise_flatMap_wordsOfLength hsymbols.distinct List.pairwise_lt_range').sublist hsub
  have hall {w : Word} : w ∈ (List.range' 0 (more + 1)).flatMap (Word.wordsOfLength symbols) ↔
      w.length ≤ more ∧ ∀ x ∈ w, x ∈ given := by
    simp only [List.mem_flatMap, Word.mem_wordsOfLength, List.mem_range'_1, hperm.mem_iff]
    constructor
    · rintro ⟨k, hk, rfl, hover⟩
      exact ⟨by omega, hover⟩
    · rintro ⟨hlength, hover⟩
      exact ⟨w.length, by omega, rfl, hover⟩
  refine ⟨fun w hw => ?_, fun w hw hlength hfinds => ?_, hordered⟩
  · obtain ⟨hw, hrun⟩ := (hmem w).mp hw
    obtain ⟨hlength, hover⟩ := hall.mp hw
    refine ⟨hover, by omega, ?_⟩
    exact (findsFinal_tuple_iff hn fun x hx => hgiven.symbol x (hover x hx)).mpr hrun
  · -- the word equals one that is made of the given symbols themselves
    obtain ⟨u, huw, hover⟩ := Word.exists_over fun x hx => (hw x hx).2
    have hsymbol : ∀ x ∈ w, x.hashable = true ∧ x.isEpsilon = false := by
      intro x hx
      obtain ⟨hhash, y, hy, hyx⟩ := hw x hx
      exact ⟨hhash, by rw [← Value.isEpsilon_congr hyx]; exact (hgiven.symbol y hy).2⟩
    obtain ⟨f, hf, run⟩ := (findsFinal_tuple_iff hn hsymbol).mp hfinds
    have hu : u ∈ words := by
      refine (hmem u).mpr ⟨hall.mpr ⟨?_, hover⟩, f, hf, run.congr_word (BEq.symm huw)⟩
      have := Word.length_eq_of_beq huw
      omega
    exact Lists.countP_beq_eq_one (hordered.imp Word.Precedes.ne) hu huw

theorem listingSymbols_eq {alphabet : Option Value} {given : List Value}
    (h : n.givenSymbols alphabet = .ok given) :
    n.listingSymbols alphabet = Value.sortedLabels given := by
  cases alphabet with
  | none =>
    obtain rfl := Except.ok.inj h
    rfl
  | some a =>
    rw [givenSymbols] at h
    rw [listingSymbols, h]
    rfl

theorem symbols_of_given (hn : n.Valid) {alphabet : Option Value} {given : List Value}
    (h : n.givenSymbols alphabet = .ok given)
    (hsymbols : ∀ a, alphabet = some a → Word.Symbols given) : Word.Symbols given := by
  cases alphabet with
  | none =>
    obtain rfl := Except.ok.inj h
    exact symbols_alphabet hn
  | some a => exact hsymbols a rfl

theorem acceptedWords_spec (hn : n.Valid) (hset : n.initial.members? = none) {maxLength : Value}
    {bound : Int} (hbound : lengthBound maxLength = .ok bound) {alphabet : Option Value}
    {given : List Value} (hlisting : n.listingSymbols alphabet = .ok symbols)
    (hgiven : Word.Symbols given) (hperm : symbols.Perm given) :
    ∃ words, n.acceptedWords maxLength alphabet = .ok words ∧
      n.Listing given symbols bound words := by
  obtain ⟨start, hbegin, hreach⟩ := close_state hn .rounds hn.isState_initial hset
  have hstart : n.start = .ok start := hbegin
  rw [acceptedWords, hlisting, hstart, hbound]
  simp only [bind, Except.bind]
  split
  · next hneg => exact ⟨[], rfl, listing_of_negative hneg⟩
  · next hnonneg =>
    obtain ⟨words, hwords, hsub, hmem⟩ := wordsWithin_spec hn (hgiven.perm hperm).symbol
      (frontier_start hreach) bound.toNat
    have hlist := listing_of_wordsWithin hn hgiven hperm hsub hmem
    rw [Int.toNat_of_nonneg (by omega)] at hlist
    exact ⟨words, hwords, hlist⟩

/-- Over the alphabet no accepted word is left out, since a run reads symbols of the alphabet only. -/
theorem Listing.once_of_alphabet (hn : n.Valid) {bound : Int}
    {words : List Word} (h : n.Listing n.alphabet.items symbols bound words) {w : Word}
    (hw : ∀ x ∈ w, x.hashable = true ∧ x.isEpsilon = false) (hlength : (w.length : Int) ≤ bound)
    (hfinds : n.FindsFinal (.tuple w)) : words.countP (· == w) = 1 := by
  obtain ⟨f, -, run⟩ := (findsFinal_tuple_iff hn hw).mp hfinds
  refine h.once w (fun x hx => ⟨(hw x hx).1, ?_⟩) hlength hfinds
  exact OrderedSet.mem_iff_exists.mp (run.mem_alphabet hn.sound x hx)

/-- The listing gives every accepted word over the given symbols, up to the given length, once and in
order, and no other word; over the automaton's own alphabet these are all accepted words of that
length, whatever symbols they are made of. The start must not be a set, which would stand for its
items. -/
theorem acceptedWords_lists (made : n.Made) (hstart : ∀ xs, (n.initial == .frozenSet xs) = false)
    {maxLength : Value} {bound : Int} (hbound : lengthBound maxLength = .ok bound)
    {alphabet : Option Value} {given : List Value} (hgiven : n.givenSymbols alphabet = .ok given)
    (hsymbols : ∀ a, alphabet = some a → Word.Symbols given)
    (hsorted : Value.sortedLabels given = .ok symbols) :
    ∃ words, n.acceptedWords maxLength alphabet = .ok words ∧
      n.Listing given symbols bound words ∧
      (alphabet = none → ∀ w : Word, (∀ x ∈ w, x.hashable = true ∧ x.isEpsilon = false) →
        (w.length : Int) ≤ bound → n.FindsFinal (.tuple w) → words.countP (· == w) = 1) := by
  have hn := made.valid
  have hset := Value.members?_eq_none hstart
  have hlisting : n.listingSymbols alphabet = .ok symbols := by rw [listingSymbols_eq hgiven, hsorted]
  obtain ⟨words, hok, hlist⟩ := acceptedWords_spec hn hset hbound hlisting
    (symbols_of_given hn hgiven hsymbols) (Sorting.perm_of_sorted hsorted)
  refine ⟨words, hok, hlist, ?_⟩
  rintro rfl w hw hlength hfinds
  obtain rfl := Except.ok.inj hgiven
  exact hlist.once_of_alphabet hn hw hlength hfinds

/-- Around a cycle of empty moves, over given symbols of which one is not in the alphabet and over the
alphabet. -/
theorem acceptedWords_lists_knotted :
    let n := ofShape knotted
    let given := [Value.tuple [.text "b"], .text "a", .int 5]
    let symbols := [Value.int 5, .text "a", .tuple [.text "b"]]
    (n.Made ∧ (∀ xs, (n.initial == .frozenSet xs) = false) ∧ lengthBound (.int 2) = .ok 2 ∧
      n.givenSymbols (some (.list given)) = .ok given ∧ Word.Symbols given ∧
      Value.sortedLabels given = .ok symbols ∧
      n.givenSymbols none = .ok n.alphabet.items ∧
      Value.sortedLabels n.alphabet.items = .ok n.alphabet.items) ∧
    (∃ words, n.acceptedWords (.int 2) (some (.list given)) = .ok words ∧
      n.Listing given symbols 2 words) ∧
    ∃ words, n.acceptedWords (.int 2) none = .ok words ∧
      n.Listing n.alphabet.items n.alphabet.items 2 words ∧
      ∀ w : Word, (∀ x ∈ w, x.hashable = true ∧ x.isEpsilon = false) → (w.length : Int) ≤ 2 →
        n.FindsFinal (.tuple w) → words.countP (· == w) = 1 := by
  intro n given symbols
  have hstart : ∀ xs, (n.initial == .frozenSet xs) = false := by
    intro xs
    show Value.same (.int 0) (.frozenSet xs) = false
    simp [Value.same, Value.sameScalar, Value.scalar?]
  have hgiven : Word.Symbols given := by
    constructor
    · simp [given, Value.hashable, Value.allHashable, Value.isEpsilon]
    · show List.Pairwise _ _
      decide +kernel
  have hbound : lengthBound (.int 2) = .ok 2 := rfl
  have hlisted : n.givenSymbols (some (.list given)) = .ok given := rfl
  have hown : n.givenSymbols none = .ok n.alphabet.items := rfl
  have hsorted : Value.sortedLabels given = .ok symbols := rfl
  have halphabet : Value.sortedLabels n.alphabet.items = .ok n.alphabet.items := by
    with_unfolding_all rfl
  refine ⟨⟨knotted_made, hstart, hbound, hlisted, hgiven, hsorted, hown, halphabet⟩, ?_, ?_⟩
  · obtain ⟨words, hok, hlist, -⟩ :=
      acceptedWords_lists knotted_made hstart hbound hlisted (fun _ _ => hgiven) hsorted
    exact ⟨words, hok, hlist⟩
  · obtain ⟨words, hok, hlist, hall⟩ :=
      acceptedWords_lists knotted_made hstart hbound hown (fun _ hnone => by cases hnone) halphabet
    exact ⟨words, hok, hlist, hall rfl⟩

end Automaton

end EpsilonAutomata
