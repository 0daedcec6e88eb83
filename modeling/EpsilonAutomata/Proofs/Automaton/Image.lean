import EpsilonAutomata.Proofs.Automaton.Remap
import EpsilonAutomata.Proofs.Value.Order

/-!
# Images of a shape

One shape is the `Image` of another under a relation between their states when each of its parts is
made of the counterparts of that part, and of nothing else; the alphabet and the labels stay as they
are. Where a state has one counterpart only (`Renaming`), a shape has one image, up to `==`
(`Image.unique`). Equal shapes are images of each other under `==` (`image_beq_iff`), and what `remap`
gives is the image under the mapping, if the keys are the states (`Automaton.image_remap`). So
renumbering gives the image under the mapping of the sorted states onto consecutive numbers
(`Mapping.numbered`, `Automaton.image_renumber`).
-/

namespace EpsilonAutomata

variable {R : Value → Value → Prop} {a a' b b' : Value}

/-- A relation that respects `==` and gives a value at most one counterpart. -/
structure Renaming (R : Value → Value → Prop) : Prop where
  congr : ∀ {a a' b b'}, (a == a') = true → (b == b') = true → R a b → R a' b'
  unique : ∀ {a b b'}, R a b → R a b' → (b == b') = true

namespace Renaming

theorem beq : Renaming fun a b => (a == b) = true where
  congr ha hb hab := BEq.trans (BEq.symm ha) (BEq.trans hab hb)
  unique hb hb' := BEq.trans (BEq.symm hb) hb'

theorem beq_iff (hR : Renaming R) (hab : R a b) :
    (b == b') = true ↔ ∃ a', (a == a') = true ∧ R a' b' := by
  constructor
  · intro hb
    exact ⟨a, BEq.rfl, hR.congr BEq.rfl hb hab⟩
  · rintro ⟨a', ha, hab'⟩
    exact hR.unique hab (hR.congr (BEq.symm ha) BEq.rfl hab')

end Renaming

namespace Shape

variable {s t t' : Shape}

/-- The second shape has the counterparts of the parts of the first, and no other parts. -/
structure Image (R : Value → Value → Prop) (s t : Shape) : Prop where
  states : ∀ b, b ∈ t.states ↔ ∃ a, a ∈ s.states ∧ R a b
  alphabet : (s.alphabet == t.alphabet) = true
  initial : R s.initial t.initial
  transitions : ∀ c x d, (⟨c, x, d⟩ : Transition) ∈ t.transitions ↔
    ∃ a b, (⟨a, x, b⟩ : Transition) ∈ s.transitions ∧ R a c ∧ R b d
  finals : ∀ b, b ∈ t.finals ↔ ∃ a, a ∈ s.finals ∧ R a b

theorem Image.unique (hR : Renaming R) (h : Image R s t) (h' : Image R s t') : (t == t') = true := by
  refine beq_iff.mpr ⟨OrderedSet.beq_iff.mpr fun b => ?_, BEq.trans (BEq.symm h.alphabet) h'.alphabet,
    hR.unique h.initial h'.initial, OrderedSet.beq_iff.mpr fun u => ?_,
    OrderedSet.beq_iff.mpr fun b => ?_⟩
  · rw [h.states, h'.states]
  · obtain ⟨c, x, d⟩ := u
    rw [h.transitions, h'.transitions]
  · rw [h.finals, h'.finals]

theorem Image.congr {R' : Value → Value → Prop} (h : Image R s t) (hR : ∀ a b, R a b ↔ R' a b) :
    Image R' s t := by
  obtain rfl : R = R' := funext fun a => funext fun b => propext (hR a b)
  exact h

theorem counterparts_comp {S : Value → Value → Prop} {p q : ValueSet}
    (h : ∀ b, b ∈ q ↔ ∃ a, a ∈ p ∧ R a b) (c : Value) :
    (∃ b, b ∈ q ∧ S b c) ↔ ∃ a, a ∈ p ∧ ∃ b, R a b ∧ S b c := by
  constructor
  · rintro ⟨b, hb, hbc⟩
    obtain ⟨a, ha, hab⟩ := (h b).mp hb
    exact ⟨a, ha, b, hab, hbc⟩
  · rintro ⟨a, ha, b, hab, hbc⟩
    exact ⟨b, (h b).mpr ⟨a, ha, hab⟩, hbc⟩

theorem Image.comp {S : Value → Value → Prop} (h : Image R s t) (h' : Image S t t') :
    Image (fun a c => ∃ b, R a b ∧ S b c) s t' where
  states c := (h'.states c).trans (counterparts_comp h.states c)
  alphabet := BEq.trans h.alphabet h'.alphabet
  initial := ⟨t.initial, h.initial, h'.initial⟩
  transitions c x d := by
    rw [h'.transitions]
    constructor
    · rintro ⟨c', d', hmove, hcc, hdd⟩
      obtain ⟨a, b, hmove', hac, hbd⟩ := (h.transitions c' x d').mp hmove
      exact ⟨a, b, hmove', ⟨c', hac, hcc⟩, d', hbd, hdd⟩
    · rintro ⟨a, b, hmove, ⟨c', hac, hcc⟩, d', hbd, hdd⟩
      exact ⟨c', d', (h.transitions c' x d').mpr ⟨a, b, hmove, hac, hbd⟩, hcc, hdd⟩
  finals c := (h'.finals c).trans (counterparts_comp h.finals c)

theorem counterparts_back {p q : ValueSet} (h : ∀ b, b ∈ q ↔ ∃ a, a ∈ p ∧ R a b)
    (hone : ∀ {a a' b}, R a b → R a' b → (a == a') = true) (htotal : ∀ a, a ∈ p → ∃ b, R a b)
    (a : Value) : a ∈ p ↔ ∃ b, b ∈ q ∧ R a b := by
  constructor
  · intro ha
    obtain ⟨b, hab⟩ := htotal a ha
    exact ⟨b, (h b).mpr ⟨a, ha, hab⟩, hab⟩
  · rintro ⟨b, hb, hab⟩
    obtain ⟨a', ha', hab'⟩ := (h b).mp hb
    exact (OrderedSet.mem_congr (hone hab' hab)).mp ha'

theorem Image.back (hs : s.Sound) (hone : ∀ {a a' b}, R a b → R a' b → (a == a') = true)
    (htotal : ∀ a, a ∈ s.states → ∃ b, R a b) (h : Image R s t) :
    Image (fun b a => R a b) t s where
  states := counterparts_back h.states hone htotal
  alphabet := BEq.symm h.alphabet
  initial := h.initial
  transitions a x b := by
    constructor
    · intro hmove
      obtain ⟨hsource, htarget, -⟩ := hs.move_mem _ hmove
      obtain ⟨c, hac⟩ := htotal a hsource
      obtain ⟨d, hbd⟩ := htotal b htarget
      exact ⟨c, d, (h.transitions c x d).mpr ⟨a, b, hmove, hac, hbd⟩, hac, hbd⟩
    · rintro ⟨c, d, hmove, hac, hbd⟩
      obtain ⟨a', b', hmove', hac', hbd'⟩ := (h.transitions c x d).mp hmove
      exact (mem_transitions_congr (hone hac' hac) BEq.rfl (hone hbd' hbd)).mp hmove'
  finals := counterparts_back h.finals hone fun f hf => htotal f (hs.final_mem f hf)

theorem exists_mem_beq_iff {m : ValueSet} : (∃ a, a ∈ m ∧ (a == b) = true) ↔ b ∈ m :=
  ⟨fun ⟨_, ha, hab⟩ => (OrderedSet.mem_congr hab).mp ha, fun hb => ⟨b, hb, BEq.rfl⟩⟩

theorem image_beq_iff : Image (fun a b => (a == b) = true) s t ↔ (s == t) = true := by
  have hmoves {c x d : Value} :
      (∃ a b, (⟨a, x, b⟩ : Transition) ∈ s.transitions ∧ (a == c) = true ∧ (b == d) = true) ↔
        (⟨c, x, d⟩ : Transition) ∈ s.transitions :=
    ⟨fun ⟨_, _, hmove, hac, hbd⟩ => (mem_transitions_congr hac BEq.rfl hbd).mp hmove,
      fun hmove => ⟨c, d, hmove, BEq.rfl, BEq.rfl⟩⟩
  constructor
  · intro h
    refine beq_iff.mpr ⟨OrderedSet.beq_iff.mpr fun b => ?_, h.alphabet, h.initial,
      OrderedSet.beq_iff.mpr fun u => ?_, OrderedSet.beq_iff.mpr fun b => ?_⟩
    · rw [h.states, exists_mem_beq_iff]
    · obtain ⟨c, x, d⟩ := u
      rw [h.transitions, hmoves]
    · rw [h.finals, exists_mem_beq_iff]
  · intro h
    obtain ⟨hstates, halphabet, hinitial, hmoves', hfinals⟩ := beq_iff.mp h
    refine ⟨fun b => ?_, halphabet, hinitial, fun c x d => ?_, fun b => ?_⟩
    · rw [exists_mem_beq_iff, OrderedSet.beq_iff.mp hstates]
    · rw [hmoves, OrderedSet.beq_iff.mp hmoves']
    · rw [exists_mem_beq_iff, OrderedSet.beq_iff.mp hfinals]

end Shape

/-! ## Mappings -/

theorem Mapping.renaming_sends {m : Mapping}
    (hkeys : m.entries.Pairwise fun d e => (d.1 == e.1) = false) : Renaming m.Sends where
  congr ha hb h := h.congr ha hb
  unique hb hb' := image_unique hkeys hb hb'

/-- If the keys are the states, renaming gives the image under the mapping. -/
theorem Automaton.image_remap {n r : Automaton} {m : Mapping}
    (hkeys : m.entries.Pairwise fun d e => (d.1 == e.1) = false)
    (hexact : ∀ a, a ∈ n.states ↔ m.Defines a) (h : n.remap m = .ok r) :
    Shape.Image m.Sends n.toShape r.toShape := by
  have hrenaming := Mapping.renaming_sends hkeys
  have hforth := covers_remap h
  have hback := covers_of_remap h
  refine ⟨fun b => ?_, ?_, hforth.start, fun c x d => ?_, fun g => ?_⟩
  · rw [mem_states_of_remap h]
    constructor
    · rintro ⟨e, he, heb⟩
      exact ⟨e.1, (hexact e.1).mpr ⟨e, he, BEq.rfl⟩, e, he, BEq.rfl, heb⟩
    · rintro ⟨a, -, e, he, -, heb⟩
      exact ⟨e, he, heb⟩
  · obtain ⟨_, _, _, -, -, -, -, -, rfl⟩ := remap_eq_ok h
    exact BEq.rfl
  · constructor
    · intro hmove
      obtain ⟨a, b, hac, hbd, hmove'⟩ := hback.move hmove
      exact ⟨a, b, hmove', hac, hbd⟩
    · rintro ⟨a, b, hmove, hac, hbd⟩
      obtain ⟨c', d', hac', hbd', hmove'⟩ := hforth.move hmove
      exact (Shape.mem_transitions_congr (hrenaming.unique hac' hac) BEq.rfl
        (hrenaming.unique hbd' hbd)).mp hmove'
  · constructor
    · intro hg
      obtain ⟨f, hfg, hf⟩ := hback.final hg
      exact ⟨f, hf, hfg⟩
    · rintro ⟨f, hf, hfg⟩
      obtain ⟨g', hfg', hg'⟩ := hforth.final hf
      exact (OrderedSet.mem_congr (hrenaming.unique hfg' hfg)).mp hg'

/-! ## Numbers in order -/

namespace Mapping

variable {base : Int} {xs : List Value}

/-- The mapping of values, in the given order, onto the numbers from a base on. -/
def numbered (base : Int) (xs : List Value) : Mapping :=
  ⟨xs.zipIdx.map fun (a, i) => (a, .int (base + i))⟩

theorem keys_numbered (base : Int) (xs : List Value) :
    (numbered base xs).entries.map (·.1) = xs := by
  rw [numbered, List.map_map]
  exact List.zipIdx_map_fst 0 xs

theorem distinct_keys_numbered (base : Int) (h : xs.Pairwise fun a b => (a == b) = false) :
    (numbered base xs).entries.Pairwise fun d e => (d.1 == e.1) = false := by
  rw [← List.pairwise_map (f := Prod.fst) (R := fun a b => (a == b) = false), keys_numbered]
  exact h

theorem defines_numbered : (numbered base xs).Defines a ↔ ∃ b ∈ xs, (b == a) = true :=
  defines_iff_of_keys (keys_numbered base xs)

theorem hashable_of_mem_values_numbered {v : Value} (h : v ∈ (numbered base xs).values) :
    v.hashable = true := by
  obtain ⟨e, he, rfl⟩ := List.mem_map.mp h
  obtain ⟨p, -, rfl⟩ := List.mem_map.mp he
  rfl

theorem sends_numbered (base : Int) {i : Nat} (h : xs[i]? = some a) :
    (numbered base xs).Sends a (.int (base + i)) :=
  ⟨(a, .int (base + i)),
    List.mem_map.mpr ⟨(a, i), List.mem_zipIdx_iff_getElem?.mpr h, rfl⟩, BEq.rfl, BEq.rfl⟩

end Mapping

namespace Automaton

variable {n r : Automaton} {base : Int} {xs : List Value}

theorem numbering_int (h : xs.Pairwise fun a b => (a == b) = false) :
    numbering (.int base) xs = .ok (.numbered base xs) := by
  have hentries : (xs.zipIdx.mapM fun (a, i) => do return (a, ← (Value.int base).plus i)) =
      .ok (Mapping.numbered base xs).entries :=
    Outcome.mapM_eq_ok_map fun p _ => rfl
  rw [numbering, hentries]
  exact congrArg Except.ok (Mapping.ofList_of_distinct (Mapping.distinct_keys_numbered base h))

theorem renumber_int (hsorted : n.states.sorted = .ok xs) (base : Int) (log : Log) :
    ((n.renumber (.int base)).runWith log).1 = n.remap (.numbered base xs) := by
  rw [renumber_result, hsorted]
  show numbering (.int base) xs >>= n.remap = _
  rw [numbering_int (ValueSet.distinct_of_sorted hsorted)]
  rfl

theorem image_renumber (hsorted : n.states.sorted = .ok xs)
    (h : n.remap (.numbered base xs) = .ok r) :
    Shape.Image (Mapping.numbered base xs).Sends n.toShape r.toShape := by
  have hkeys := Mapping.distinct_keys_numbered base (ValueSet.distinct_of_sorted hsorted)
  refine image_remap hkeys (fun a => ?_) h
  rw [ValueSet.mem_iff_of_sorted hsorted, Mapping.defines_numbered]

theorem exists_renumber (hn : n.Valid) (hsorted : n.states.sorted = .ok xs) (base : Int) :
    ∃ r, n.remap (.numbered base xs) = .ok r := by
  refine remap_returns hn (fun a ha => ?_) fun v => Mapping.hashable_of_mem_values_numbered
  exact Mapping.defines_numbered.mpr ((ValueSet.mem_iff_of_sorted hsorted).mp ha)

end Automaton

end EpsilonAutomata
