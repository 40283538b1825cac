import ToolBatching.Proofs.TextLines

namespace ToolBatching

namespace Text

theorem trim_append {text more : List Char} (h : ∀ c ∈ more, isBlank c = true) :
    trim (text ++ more) = trim text := by
  have hdrop : more.reverse.dropWhile isBlank = [] := by
    rw [List.dropWhile_eq_nil_iff]
    exact fun c hc => h c (List.mem_reverse.mp hc)
  unfold trim dropEndWhile
  rw [List.dropWhile_append]
  split
  · rename_i hblank
    rw [List.isEmpty_iff] at hblank
    rw [hblank, List.dropWhile_eq_nil_iff.mpr h]
  · rw [List.reverse_append, List.dropWhile_append, hdrop]
    rfl

end Text

namespace Command

theorem code_parse (n : Nat) (text : String) : (parse n text).code = codeOf text := by
  obtain ⟨more, htext, hmore⟩ := Text.exists_dropEndWhile_append Text.isTerminator text.toList
  have hcode : codeOf (trimmed text) = codeOf text := by
    rw [codeOf, codeOf, splitComment_fst, splitComment_fst, toList_trimmed]
    conv_rhs => rw [htext, List.takeWhile_append]
    split
    · rename_i hwhole
      have hall : ∀ c ∈ more, (c != ';') = true := by
        intro c hc
        have hterminator := hmore c hc
        rw [bne_iff_ne]
        rintro rfl
        exact absurd hterminator (by decide)
      rw [List.takeWhile_eq_self_iff.mpr hall,
        Text.trim_append fun c hc => Text.isBlank_of_isTerminator (hmore c hc),
        List.IsPrefix.eq_of_length (List.takeWhile_prefix _) hwhole]
    · rfl
  rw [parse_eq]
  exact hcode

/-- A command without words. -/
structure Wordless (c : Command) : Prop where
  mnemonic : c.mnemonic = ""
  x : c.x = none
  y : c.y = none
  z : c.z = none
  e : c.e = none
  f : c.f = none
  tool : c.tool = none

theorem wordless_parse (n : Nat) {text : String} (h : Word.scan (codeOf text) = none) :
    (parse n text).Wordless := by
  rw [← code_parse n text] at h
  have hwords : (Word.scan (codeOf (trimmed text))).getD [] = [] := congrArg (Option.getD · []) h
  rw [parse_eq]
  constructor <;> simp only [ofText, hwords] <;> rfl

end Command

namespace Word

theorem separates_of_isAsciiBlank {c : Char} (h : Text.isAsciiBlank c = true) :
    isNumberChar c = false ∧ c.isUpper = false := by
  simp only [Text.isAsciiBlank, Bool.or_eq_true, beq_iff_eq] at h
  rcases h with (((rfl | rfl) | rfl) | rfl) | rfl <;> decide

/-- A code text is made of words and ASCII blanks. The value of a word takes all number
characters behind its letter. -/
inductive Spells : List Word → List Char → Prop where
  | nil : Spells [] []
  | blank {c : Char} {words : List Word} {rest : List Char} : Text.isAsciiBlank c = true →
      Spells words rest → Spells words (c :: rest)
  | word {w : Word} {words : List Word} {rest : List Char} : w.WellFormed →
      (∀ c ∈ rest.head?, isNumberChar c = false) → Spells words rest →
        Spells (w :: words) (w.text ++ rest)

variable {words : List Word} {code : List Char}

theorem Spells.foldr_scanStep (h : Spells words code) :
    code.foldr scanStep (some ([], [])) = some ([], words) := by
  induction h with
  | nil => rfl
  | blank hblank _ ih =>
      obtain ⟨hnumber, hupper⟩ := separates_of_isAsciiBlank hblank
      rw [List.foldr_cons, ih, scanStep, if_neg (by simp [hnumber]), if_neg (by simp [hupper]),
        if_pos (by simp [hblank])]
  | word hw _ _ ih => rw [List.foldr_append, ih, foldr_scanStep_text hw]

/-- Behind the number characters that wait for a letter stands a text of the grammar. -/
theorem spells_of_foldr_scanStep {waiting : List Char}
    (h : code.foldr scanStep (some ([], [])) = some (waiting, words)) :
    ∃ rest, code = waiting ++ rest ∧ (∀ c ∈ waiting, isNumberChar c = true) ∧
      (∀ c ∈ rest.head?, isNumberChar c = false) ∧ Spells words rest := by
  induction code generalizing waiting words with
  | nil =>
      obtain ⟨rfl, rfl⟩ := Prod.mk.inj (Option.some.inj h)
      exact ⟨[], rfl, by simp, by simp, .nil⟩
  | cons c code ih =>
      rw [List.foldr_cons] at h
      cases hrest : code.foldr scanStep (some ([], [])) with
      | none =>
          rw [hrest] at h
          exact absurd h (by simp [scanStep])
      | some state =>
          obtain ⟨waiting', words'⟩ := state
          obtain ⟨rest, rfl, hwaiting, hstop, hspells⟩ := ih hrest
          rw [hrest, scanStep] at h
          split at h
          · rename_i hnumber
            obtain ⟨rfl, rfl⟩ := Prod.mk.inj (Option.some.inj h)
            exact ⟨rest, rfl, List.forall_mem_cons.mpr ⟨hnumber, hwaiting⟩, hstop, hspells⟩
          · rename_i hnumber
            rw [Bool.not_eq_true] at hnumber
            split at h
            · rename_i hupper
              obtain ⟨rfl, rfl⟩ := Prod.mk.inj (Option.some.inj h)
              exact ⟨c :: (waiting' ++ rest), rfl, by simp, by simpa using hnumber,
                .word ⟨hupper, hwaiting⟩ hstop hspells⟩
            · split at h
              · rename_i hblank
                rw [Bool.and_eq_true, List.isEmpty_iff] at hblank
                obtain ⟨hblank, rfl⟩ := hblank
                obtain ⟨rfl, rfl⟩ := Prod.mk.inj (Option.some.inj h)
                exact ⟨c :: rest, rfl, by simp, by simpa using hnumber, .blank hblank hspells⟩
              · exact absurd h (by simp)

theorem scan_eq_some_iff : scan code = some words ↔ Spells words code := by
  constructor
  · intro h
    unfold scan at h
    split at h
    · rename_i words' hfold
      obtain rfl := Option.some.inj h
      obtain ⟨rest, rfl, -, -, hspells⟩ := spells_of_foldr_scanStep hfold
      exact hspells
    · exact absurd h (by simp)
  · intro h
    rw [scan, h.foldr_scanStep]

/-- The text of words with gaps, one in front of all words and one behind each. -/
def spaced (lead : List Char) (items : List (Word × List Char)) : List Char :=
  lead ++ items.flatMap fun item => item.1.text ++ item.2

/-- Well-formed words with ASCII blanks, or nothing, between and around them. -/
structure Printable (lead : List Char) (items : List (Word × List Char)) : Prop where
  lead : ∀ c ∈ lead, Text.isAsciiBlank c = true
  words : ∀ item ∈ items, item.1.WellFormed
  gaps : ∀ item ∈ items, ∀ c ∈ item.2, Text.isAsciiBlank c = true

theorem Spells.append_left {gap : List Char} (hgap : ∀ c ∈ gap, Text.isAsciiBlank c = true)
    (h : Spells words code) : Spells words (gap ++ code) := by
  induction gap with
  | nil => exact h
  | cons c gap ih =>
      obtain ⟨hc, hgap⟩ := List.forall_mem_cons.mp hgap
      exact .blank hc (ih hgap)

theorem Printable.stops {gap : List Char} {items : List (Word × List Char)}
    (h : Printable gap items) : ∀ c ∈ (spaced gap items).head?, isNumberChar c = false := by
  intro c hc
  cases gap with
  | cons d gap =>
      obtain rfl := Option.some.inj hc
      exact (separates_of_isAsciiBlank (h.lead d List.mem_cons_self)).1
  | nil =>
      cases items with
      | nil => exact absurd hc (by simp [spaced])
      | cons item items =>
          obtain rfl := Option.some.inj hc
          exact isNumberChar_of_isUpper (h.words item List.mem_cons_self).letter

theorem Printable.spells {lead : List Char} {items : List (Word × List Char)}
    (h : Printable lead items) : Spells (items.map Prod.fst) (spaced lead items) := by
  induction items generalizing lead with
  | nil => exact Spells.nil.append_left h.lead
  | cons item items ih =>
      obtain ⟨w, gap⟩ := item
      obtain ⟨hw, hwords⟩ := List.forall_mem_cons.mp h.words
      obtain ⟨hgap, hgaps⟩ := List.forall_mem_cons.mp h.gaps
      have hrest : Printable gap items := ⟨hgap, hwords, hgaps⟩
      have hspells := Spells.word hw hrest.stops (ih hrest)
      have hcode : spaced lead ((w, gap) :: items) = lead ++ (w.text ++ spaced gap items) := by
        simp [spaced]
      rw [hcode]
      exact hspells.append_left h.lead

theorem Spells.exists_printable (h : Spells words code) :
    ∃ lead items, Printable lead items ∧ items.map Prod.fst = words ∧ spaced lead items = code := by
  induction h with
  | nil => exact ⟨[], [], ⟨by simp, by simp, by simp⟩, rfl, rfl⟩
  | blank hblank _ ih =>
      obtain ⟨lead, items, hprintable, rfl, rfl⟩ := ih
      exact ⟨_ :: lead, items, ⟨List.forall_mem_cons.mpr ⟨hblank, hprintable.lead⟩,
        hprintable.words, hprintable.gaps⟩, rfl, rfl⟩
  | @word w words rest hw _ _ ih =>
      -- The blanks in front of the words that follow become the gap behind the new one.
      obtain ⟨lead, items, hprintable, rfl, rfl⟩ := ih
      refine ⟨[], (w, lead) :: items, ⟨by simp, ?_, ?_⟩, rfl, by simp [spaced]⟩
      · exact List.forall_mem_cons.mpr ⟨hw, hprintable.words⟩
      · exact List.forall_mem_cons.mpr ⟨hprintable.lead, hprintable.gaps⟩

/-- Scanning accepts exactly the texts of the grammar and undoes every printing of words, and
a line with any other code is a command without words. -/
theorem scan_exact :
    (∀ code, (scan code).isSome = true ↔ ∃ words, Spells words code) ∧
    (∀ lead items, Printable lead items → scan (spaced lead items) = some (items.map Prod.fst)) ∧
    (∀ code words, scan code = some words →
      ∃ lead items, Printable lead items ∧ items.map Prod.fst = words ∧ spaced lead items = code) ∧
    ∀ n text, (∀ words, ¬ Spells words (Command.codeOf text)) → (Command.parse n text).Wordless := by
  refine ⟨fun code => ?_, fun lead items h => ?_, fun code words h => ?_, fun n text h => ?_⟩
  · rw [Option.isSome_iff_exists]
    exact exists_congr fun words => scan_eq_some_iff
  · exact scan_eq_some_iff.mpr h.spells
  · exact (scan_eq_some_iff.mp h).exists_printable
  · apply Command.wordless_parse
    rw [Option.eq_none_iff_forall_ne_some]
    exact fun words hwords => h words (scan_eq_some_iff.mp hwords)

/-- Words without blanks and with blanks, and a line that is not made of words. -/
theorem scan_exact_compact :
    scan "G1X+1.5Y-2".toList = some [⟨'G', ['1']⟩, ⟨'X', "+1.5".toList⟩, ⟨'Y', "-2".toList⟩] ∧
      scan "\tG1 X+1.5\t Y-2 ".toList =
        some [⟨'G', ['1']⟩, ⟨'X', "+1.5".toList⟩, ⟨'Y', "-2".toList⟩] ∧
      (Command.parse 7 "M1002 gcode_claim_action : 2 ; on").Wordless := by
  have hopaque : scan (Command.codeOf "M1002 gcode_claim_action : 2 ; on") = none := by decide
  have hcompact : Printable [] [(⟨'G', ['1']⟩, []), (⟨'X', "+1.5".toList⟩, []),
      (⟨'Y', "-2".toList⟩, [])] := ⟨by simp, by decide, by simp⟩
  have hspaced : Printable ['\t'] [(⟨'G', ['1']⟩, [' ']), (⟨'X', "+1.5".toList⟩, ['\t', ' ']),
      (⟨'Y', "-2".toList⟩, [' '])] :=
    ⟨by simp [Text.isAsciiBlank], by decide, by simp [Text.isAsciiBlank]⟩
  refine ⟨scan_exact.2.1 _ _ hcompact, scan_exact.2.1 _ _ hspaced,
    scan_exact.2.2.2 7 _ fun words hwords => ?_⟩
  rw [scan_eq_some_iff.mpr hwords] at hopaque
  exact absurd hopaque (by simp)

end Word

end ToolBatching
