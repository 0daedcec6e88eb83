import EpsilonAutomata.Proofs.Json.Scalars

/-!
# What is written for a document reads back

A style is readable if only blanks are added to the commas and colons and to the starts of lines
(`Style.Readable`). A document without doubles, and without two fields of one name in an object, is
exact (`exact`). What is written for an exact document in a readable style reads back as the document
(`parse?_render`), whatever its texts hold and however it nests. The bound of the reader is met by the
length of what is written.
-/

namespace EpsilonAutomata.Json

/-! ## Blanks -/

/-- Only blanks are added to commas, colons and line starts. -/
structure Style.Readable (style : Style) : Prop where
  item : ∃ blanks, style.itemSeparator = ',' :: blanks ∧ ∀ c ∈ blanks, isBlank c = true
  key : ∃ blanks, style.keySeparator = ':' :: blanks ∧ ∀ c ∈ blanks, isBlank c = true
  indent : ∀ unit ∈ style.indent, ∀ c ∈ unit, isBlank c = true

theorem isBlank_of_mem_replicate (k : Nat) {c : Char} (h : c ∈ List.replicate k ' ') :
    isBlank c = true := by
  rw [List.eq_of_mem_replicate h]
  rfl

theorem Style.readable_make {indent : Option (List Char)}
    (h : ∀ unit ∈ indent, ∀ c ∈ unit, isBlank c = true) (sortKeys asciiOnly : Bool) :
    (Style.make indent none sortKeys asciiOnly).Readable where
  item := by
    cases indent with
    | none => exact ⟨[' '], rfl, fun _ => isBlank_of_mem_replicate 1⟩
    | some unit => exact ⟨[], rfl, nofun⟩
  key := ⟨[' '], rfl, fun _ => isBlank_of_mem_replicate 1⟩
  indent := h

theorem Style.Readable.newline {style : Style} (h : style.Readable) (level : Nat) :
    ∀ c ∈ style.newline level, isBlank c = true := by
  intro c hc
  unfold Style.newline at hc
  cases hunit : style.indent with
  | none =>
    rw [hunit] at hc
    cases hc
  | some unit =>
    rw [hunit] at hc
    rcases List.mem_cons.mp hc with rfl | hc
    · rfl
    · obtain ⟨line, hline, hc⟩ := List.mem_flatten.mp hc
      rw [List.eq_of_mem_replicate hline] at hc
      exact h.indent unit hunit c hc

theorem skipBlanks_append {blanks : List Char} (h : ∀ c ∈ blanks, isBlank c = true) (rest : List Char) :
    skipBlanks (blanks ++ rest) = skipBlanks rest :=
  List.dropWhile_append_of_pos h

theorem skipBlanks_cons {c : Char} (h : isBlank c = false) (rest : List Char) :
    skipBlanks (c :: rest) = c :: rest :=
  List.dropWhile_cons_of_neg (by simp [h])

theorem numberEnd_append {blanks rest : List Char} (h : ∀ c ∈ blanks, isBlank c = true)
    (hrest : NumberEnd rest) : NumberEnd (blanks ++ rest) := by
  cases blanks with
  | nil => exact hrest
  | cons c cs =>
    refine numberEnd_cons ?_ _
    have hc := h c List.mem_cons_self
    simp only [isBlank, Bool.or_eq_true, beq_iff_eq] at hc
    rcases hc with ((rfl | rfl) | rfl) | rfl <;> decide

/-! ## Exact documents -/

mutual

/-- The document has no doubles, and no object has two fields of one name. -/
def exact : Json → Bool
  | double _ => false
  | array items => allExact items
  | object fields => exactFields fields
  | _ => true

def allExact : List Json → Bool
  | [] => true
  | j :: js => exact j && allExact js

def exactFields : List (String × Json) → Bool
  | [] => true
  | (k, j) :: fields => exact j && fields.all (fun f => f.1 != k) && exactFields fields

end

theorem setField_of_new {name : String} {j : Json} {fields : List (String × Json)}
    (h : ∀ f ∈ fields, f.1 ≠ name) : setField name j fields = fields ++ [(name, j)] := by
  induction fields with
  | nil => rfl
  | cons f fields ih =>
    obtain ⟨k, v⟩ := f
    have hk : k ≠ name := h (k, v) List.mem_cons_self
    rw [setField, if_neg hk, ih fun f hf => h f (List.mem_cons_of_mem _ hf), List.cons_append]

theorem fieldsOf_of_exact {fields : List (String × Json)} (h : exactFields fields = true) :
    fieldsOf fields = fields := by
  -- the fields set so far, whose names are different from those to come, followed by the rest
  have hset (done : List (String × Json)) (hdone : ∀ f ∈ done, ∀ g ∈ fields, f.1 ≠ g.1) :
      fields.foldl (fun fs f => setField f.1 f.2 fs) done = done ++ fields := by
    induction fields generalizing done with
    | nil => simp
    | cons f fields ih =>
      obtain ⟨k, j⟩ := f
      simp only [exactFields, Bool.and_eq_true, List.all_eq_true] at h
      obtain ⟨⟨-, hnew⟩, hfields⟩ := h
      rw [List.foldl_cons, setField_of_new fun f hf => hdone f hf (k, j) List.mem_cons_self,
        ih hfields, List.append_assoc, List.singleton_append]
      intro f hf g hg
      rcases List.mem_append.mp hf with hf | hf
      · exact hdone f hf g (List.mem_cons_of_mem _ hg)
      · rw [List.mem_singleton.mp hf]
        exact (bne_iff_ne.mp (hnew g hg)).symm
  exact hset [] (by simp)

/-! ## How what is written begins -/

/-- What begins a document: no blank and no closing bracket. -/
def Opening (c : Char) : Prop :=
  isBlank c = false ∧ c ≠ ']' ∧ c ≠ '\x7d'

theorem opening_of_digit {c : Char} (hc : Decimal.isDigit c = true) : Opening c := by
  refine ⟨?_, ne_of_digit hc (by decide), ne_of_digit hc (by decide)⟩
  simp only [isBlank, Bool.or_eq_false_iff, beq_eq_false_iff_ne]
  exact ⟨⟨⟨ne_of_digit hc (by decide), ne_of_digit hc (by decide)⟩, ne_of_digit hc (by decide)⟩,
    ne_of_digit hc (by decide)⟩

theorem opening_quote : Opening '"' := by
  refine ⟨?_, ?_, ?_⟩ <;> decide

theorem exists_renderAt_cons (style : Style) (level : Nat) {j : Json} (hj : j.exact = true) :
    ∃ c cs, renderAt style level j = c :: cs ∧ Opening c := by
  have hopening (c : Char) (hblank : isBlank c = false) (hne : c ≠ ']' ∧ c ≠ '\x7d') : Opening c :=
    ⟨hblank, hne⟩
  cases j with
  | null => exact ⟨'n', _, by rw [renderAt]; rfl, hopening _ rfl (by decide)⟩
  | bool b =>
    cases b with
    | true => exact ⟨'t', _, by rw [renderAt]; rfl, hopening _ rfl (by decide)⟩
    | false => exact ⟨'f', _, by rw [renderAt]; rfl, hopening _ rfl (by decide)⟩
  | int i =>
    obtain ⟨c, cs, hcs, rfl | hc⟩ := exists_intDigits_cons i
    · exact ⟨'-', cs, by rw [renderAt, hcs], hopening _ rfl (by decide)⟩
    · exact ⟨c, cs, by rw [renderAt, hcs], opening_of_digit hc⟩
  | double x => cases hj
  | text s => exact ⟨'"', _, by rw [renderAt]; rfl, opening_quote⟩
  | array items =>
    cases items with
    | nil => exact ⟨'[', _, by rw [renderAt], hopening _ rfl (by decide)⟩
    | cons j js => exact ⟨'[', _, by rw [renderAt], hopening _ rfl (by decide)⟩
  | object fields =>
    cases fields with
    | nil => exact ⟨'\x7b', _, by rw [renderAt], hopening _ rfl (by decide)⟩
    | cons f fields => exact ⟨'\x7b', _, by rw [renderAt], hopening _ rfl (by decide)⟩

theorem skipBlanks_renderAt (style : Style) (level : Nat) {j : Json} (hj : j.exact = true)
    (rest : List Char) :
    skipBlanks (renderAt style level j ++ rest) = renderAt style level j ++ rest := by
  obtain ⟨c, cs, hcs, hc⟩ := exists_renderAt_cons style level hj
  rw [hcs, List.cons_append, skipBlanks_cons hc.1]

theorem length_renderAt_pos (style : Style) (level : Nat) {j : Json} (hj : j.exact = true) :
    1 ≤ (renderAt style level j).length := by
  obtain ⟨c, cs, hcs, -⟩ := exists_renderAt_cons style level hj
  simp [hcs]

/-! ## Reading what is written -/

/-- With the bound the reader reads every exact document that is written in at most as many
characters. -/
def Reads (style : Style) (bound : Nat) : Prop :=
  ∀ (level : Nat) (j : Json) (rest : List Char), j.exact = true →
    (renderAt style level j).length ≤ bound → NumberEnd rest →
    readJson bound (renderAt style level j ++ rest) = some (j, rest)

/-- The same of the items of an array, up to its closing bracket. -/
def ReadsItems (style : Style) (bound : Nat) : Prop :=
  ∀ (level : Nat) (j : Json) (js : List Json) (blanks rest : List Char), allExact (j :: js) = true →
    (renderAt style level j).length + (renderItems style level js).length + 1 ≤ bound →
    (∀ c ∈ blanks, isBlank c = true) →
    readItems bound (renderAt style level j ++ (renderItems style level js ++ (blanks ++ ']' :: rest))) =
      some (j :: js, rest)

/-- The same of the fields of an object. -/
def ReadsFields (style : Style) (bound : Nat) : Prop :=
  ∀ (level : Nat) (k : String) (j : Json) (fields : List (String × Json)) (blanks rest : List Char),
    exactFields ((k, j) :: fields) = true →
    (quoted style.asciiOnly k).length + (renderAt style level j).length +
      (renderFields style level fields).length + 1 ≤ bound →
    (∀ c ∈ blanks, isBlank c = true) →
    readFields bound (quoted style.asciiOnly k ++ (style.keySeparator ++ (renderAt style level j ++
      (renderFields style level fields ++ (blanks ++ '\x7d' :: rest))))) =
      some ((k, j) :: fields, rest)

variable {style : Style} {bound : Nat}

theorem readJson_scalar {c : Char} (hquote : c ≠ '"') (hbracket : c ≠ '[') (hbrace : c ≠ '\x7b')
    (cs : List Char) : readJson (bound + 1) (c :: cs) = readScalar (c :: cs) := by
  rw [readJson]
  · exact fun rest h => hquote (List.cons.inj h).1
  · exact fun rest h => hbracket (List.cons.inj h).1
  · exact fun rest h => hbrace (List.cons.inj h).1

theorem readJson_array {cs tail : List Char} {c : Char} (hskip : skipBlanks cs = c :: tail)
    (hc : c ≠ ']') : readJson (bound + 1) ('[' :: cs) =
      (readItems bound (c :: tail)).map fun (js, rest) => (.array js, rest) := by
  rw [readJson, hskip]
  split
  · next h => exact absurd (List.cons.inj h).1 hc
  · rfl

theorem readJson_object {cs tail : List Char} {c : Char} (hskip : skipBlanks cs = c :: tail)
    (hc : c ≠ '\x7d') : readJson (bound + 1) ('\x7b' :: cs) =
      (readFields bound (c :: tail)).map fun (fs, rest) => (.object (fieldsOf fs), rest) := by
  rw [readJson, hskip]
  split
  · next h => exact absurd (List.cons.inj h).1 hc
  · rfl

theorem numberEnd_renderItems (hs : style.Readable) (level : Nat) (js : List Json) {rest : List Char}
    (hrest : NumberEnd rest) : NumberEnd (renderItems style level js ++ rest) := by
  cases js with
  | nil => exact hrest
  | cons j js =>
    obtain ⟨blanks, hitem, -⟩ := hs.item
    rw [renderItems, hitem]
    exact numberEnd_cons (by decide) _

theorem numberEnd_renderFields (hs : style.Readable) (level : Nat) (fields : List (String × Json))
    {rest : List Char} (hrest : NumberEnd rest) :
    NumberEnd (renderFields style level fields ++ rest) := by
  cases fields with
  | nil => exact hrest
  | cons f fields =>
    obtain ⟨k, j⟩ := f
    obtain ⟨blanks, hitem, -⟩ := hs.item
    rw [renderFields, hitem]
    exact numberEnd_cons (by decide) _

theorem reads_succ (hs : style.Readable) (hitems : ReadsItems style bound)
    (hfields : ReadsFields style bound) : Reads style (bound + 1) := by
  intro level j rest hj hbound hrest
  -- one step of the reader for each form of document; its parts are read by the hypotheses
  cases j with
  | null => rw [renderAt]; rfl
  | bool b => cases b <;> rw [renderAt] <;> rfl
  | int i =>
    obtain ⟨c, cs, hcs, hc⟩ := exists_intDigits_cons i
    have hread := readScalar_intDigits i hrest
    have hne {d : Char} (hd : Decimal.isDigit d = false) (hminus : d ≠ '-') : c ≠ d := by
      rcases hc with rfl | hc
      · exact hminus.symm
      · exact ne_of_digit hc hd
    rw [renderAt]
    rw [hcs, List.cons_append] at hread ⊢
    rw [readJson_scalar (hne (by decide) (by decide)) (hne (by decide) (by decide))
      (hne (by decide) (by decide)), hread]
  | double x => cases hj
  | text s =>
    rw [renderAt] at hbound ⊢
    have hlength := length_quoted style.asciiOnly s
    obtain ⟨tail, htail, hread⟩ :=
      readText_quoted style.asciiOnly s rest (show s.toList.length < bound by omega)
    rw [htail, readJson, hread]
    rfl
  | array items =>
    cases items with
    | nil => rw [renderAt]; rfl
    | cons j js =>
      have hj' : j.exact = true := by
        rw [exact, allExact, Bool.and_eq_true] at hj
        exact hj.1
      obtain ⟨c, cs, hcs, -, hc, -⟩ := exists_renderAt_cons style (level + 1) hj'
      have hread := hitems (level + 1) j js (style.newline level) rest hj (by
        rw [renderAt] at hbound
        simp only [List.length_cons, List.length_append, List.length_nil] at hbound
        omega) (hs.newline level)
      have hskip : skipBlanks (style.newline (level + 1) ++ (renderAt style (level + 1) j ++
          (renderItems style (level + 1) js ++ (style.newline level ++ ']' :: rest)))) =
          renderAt style (level + 1) j ++ (renderItems style (level + 1) js ++
            (style.newline level ++ ']' :: rest)) := by
        rw [skipBlanks_append (hs.newline _), skipBlanks_renderAt _ _ hj']
      rw [renderAt]
      simp only [List.cons_append, List.append_assoc, List.nil_append]
      rw [hcs, List.cons_append] at hskip hread
      rw [hcs, List.cons_append, readJson_array hskip hc, hread]
      rfl
  | object fields =>
    cases fields with
    | nil => rw [renderAt]; rfl
    | cons f fields =>
      obtain ⟨k, j⟩ := f
      have hread := hfields (level + 1) k j fields (style.newline level) rest hj (by
        rw [renderAt] at hbound
        simp only [List.length_cons, List.length_append, List.length_nil] at hbound
        omega) (hs.newline level)
      have hskip (tail : List Char) : skipBlanks (style.newline (level + 1) ++
          (quoted style.asciiOnly k ++ tail)) = quoted style.asciiOnly k ++ tail := by
        rw [skipBlanks_append (hs.newline _), quoted, List.cons_append, skipBlanks_cons opening_quote.1]
      rw [renderAt]
      simp only [List.cons_append, List.append_assoc, List.nil_append]
      have hskip' := hskip (style.keySeparator ++ (renderAt style (level + 1) j ++
        (renderFields style (level + 1) fields ++ (style.newline level ++ '\x7d' :: rest))))
      rw [quoted, List.cons_append] at hskip' hread
      rw [quoted, List.cons_append, readJson_object hskip' opening_quote.2.2, hread, Option.map_some]
      rw [exact] at hj
      exact congrArg (fun fs => some (object fs, rest)) (fieldsOf_of_exact hj)

theorem readsItems_succ (hs : style.Readable) (hreads : Reads style bound)
    (hitems : ReadsItems style bound) : ReadsItems style (bound + 1) := by
  intro level j js blanks rest hexact hbound hblanks
  rw [allExact, Bool.and_eq_true] at hexact
  obtain ⟨hj, hjs⟩ := hexact
  have hlength := length_renderAt_pos style level hj
  have hend : NumberEnd (blanks ++ ']' :: rest) :=
    numberEnd_append hblanks (numberEnd_cons (by decide) rest)
  have hread := hreads level j _ hj (by omega) (numberEnd_renderItems hs level js hend)
  rw [readItems, hread]
  cases js with
  | nil =>
    have hskip : skipBlanks (renderItems style level [] ++ (blanks ++ ']' :: rest)) = ']' :: rest := by
      rw [renderItems, List.nil_append, skipBlanks_append hblanks, skipBlanks_cons (by decide)]
    simp only [bind, Option.bind, hskip]
  | cons k ks =>
    obtain ⟨more, hitem, hmore⟩ := hs.item
    have hk : k.exact = true := by
      rw [allExact, Bool.and_eq_true] at hjs
      exact hjs.1
    rw [renderItems, hitem] at hbound ⊢
    simp only [List.length_cons, List.length_append] at hbound
    simp only [List.cons_append, List.append_assoc]
    have hskip (tail : List Char) : skipBlanks (more ++ (style.newline level ++
        (renderAt style level k ++ tail))) = renderAt style level k ++ tail := by
      rw [skipBlanks_append hmore, skipBlanks_append (hs.newline level), skipBlanks_renderAt _ _ hk]
    have hrest := hitems level k ks blanks rest hjs (by omega) hblanks
    simp only [bind, Option.bind, skipBlanks_cons (show isBlank ',' = false by decide), hskip, hrest]

theorem readsFields_succ (hs : style.Readable) (hreads : Reads style bound)
    (hfields : ReadsFields style bound) : ReadsFields style (bound + 1) := by
  intro level k j fields blanks rest hexact hbound hblanks
  simp only [exactFields, Bool.and_eq_true] at hexact
  obtain ⟨⟨hj, -⟩, hfs⟩ := hexact
  have hlength := length_quoted style.asciiOnly k
  have hend : NumberEnd (blanks ++ '\x7d' :: rest) :=
    numberEnd_append hblanks (numberEnd_cons (by decide) rest)
  obtain ⟨colon, hkey, hcolon⟩ := hs.key
  obtain ⟨tail, htail, hname⟩ := readText_quoted style.asciiOnly k (style.keySeparator ++
    (renderAt style level j ++ (renderFields style level fields ++ (blanks ++ '\x7d' :: rest))))
    (show k.toList.length < bound by omega)
  have hread := hreads level j _ hj (by omega) (numberEnd_renderFields hs level fields hend)
  have hvalue (tail : List Char) : skipBlanks (colon ++ (renderAt style level j ++ tail)) =
      renderAt style level j ++ tail := by
    rw [skipBlanks_append hcolon, skipBlanks_renderAt _ _ hj]
  rw [htail, readFields, hname]
  simp only [bind, Option.bind, hkey, List.cons_append,
    skipBlanks_cons (show isBlank ':' = false by decide), hvalue, hread]
  cases fields with
  | nil =>
    have hskip : skipBlanks (renderFields style level [] ++ (blanks ++ '\x7d' :: rest)) =
        '\x7d' :: rest := by
      rw [renderFields, List.nil_append, skipBlanks_append hblanks, skipBlanks_cons (by decide)]
    simp only [hskip]
  | cons f fields =>
    obtain ⟨k', j'⟩ := f
    obtain ⟨more, hitem, hmore⟩ := hs.item
    have hrest := hfields level k' j' fields blanks rest hfs (by
      rw [renderFields, hitem] at hbound
      simp only [List.length_cons, List.length_append] at hbound
      omega) hblanks
    have hskip (tail : List Char) : skipBlanks (more ++ (style.newline level ++
        (quoted style.asciiOnly k' ++ tail))) = quoted style.asciiOnly k' ++ tail := by
      rw [skipBlanks_append hmore, skipBlanks_append (hs.newline level), quoted, List.cons_append,
        skipBlanks_cons opening_quote.1]
    rw [renderFields, hitem]
    rw [hkey] at hrest
    simp only [List.cons_append, List.append_assoc, hkey,
      skipBlanks_cons (show isBlank ',' = false by decide), hskip]
    simp only [List.cons_append] at hrest
    rw [hrest]

theorem reads_all (hs : style.Readable) (bound : Nat) :
    Reads style bound ∧ ReadsItems style bound ∧ ReadsFields style bound := by
  induction bound with
  | zero =>
    refine ⟨fun level j rest hj hbound _ => ?_, fun level j js blanks rest _ hbound _ => ?_,
      fun level k j fields blanks rest _ hbound _ => ?_⟩
    · have := length_renderAt_pos style level hj
      omega
    · omega
    · omega
  | succ bound ih =>
    obtain ⟨hreads, hitems, hfields⟩ := ih
    exact ⟨reads_succ hs hitems hfields, readsItems_succ hs hreads hitems,
      readsFields_succ hs hreads hfields⟩

/-- What is written for an exact document in a readable style reads back as the document. -/
theorem parse?_renderAt (hs : style.Readable) (level : Nat) {j : Json} (hj : j.exact = true) :
    parse? (String.ofList (renderAt style level j)) = some j := by
  have hread := (reads_all hs (2 * (renderAt style level j).length + 2)).1 level j [] hj (by omega)
    numberEnd_nil
  have hskip := skipBlanks_renderAt style level hj []
  rw [List.append_nil] at hread hskip
  simp only [parse?, String.toList_ofList, hskip, hread]
  rfl

/-- The names come back in the order in which they were written. -/
theorem parse?_render (hs : style.Readable) {j : Json}
    (hj : (if style.sortKeys then j.sortKeys else j).exact = true) :
    parse? (render style j) = some (if style.sortKeys then j.sortKeys else j) :=
  parse?_renderAt hs 0 hj

end EpsilonAutomata.Json
