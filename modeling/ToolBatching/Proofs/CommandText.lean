import Mathlib.Data.List.TakeDrop
import Mathlib.Data.List.TakeWhile
import ToolBatching.Command.Basic

namespace ToolBatching

namespace Text

theorem dropEndWhile_append {p : Char → Bool} {front back : List Char} (hne : back ≠ [])
    (h : ∀ c ∈ back, p c = false) : dropEndWhile p (front ++ back) = front ++ back := by
  obtain ⟨init, last, rfl⟩ := (List.eq_nil_or_concat back).resolve_left hne
  have hlast : p last = false := h last (by simp)
  unfold dropEndWhile
  rw [List.concat_eq_append, ← List.append_assoc, List.reverse_append, List.reverse_singleton,
    List.singleton_append, List.dropWhile_cons_of_neg (by simp [hlast]), List.reverse_cons,
    List.reverse_reverse]

theorem isBlank_of_isAsciiBlank {c : Char} (h : isAsciiBlank c = true) : isBlank c = true := by
  simp only [isAsciiBlank, Bool.or_eq_true, beq_iff_eq] at h
  rcases h with (((rfl | rfl) | rfl) | rfl) | rfl <;> decide

theorem dropEndWhile_cons {p : Char → Bool} {c : Char} (hc : p c = false) (rest : List Char) :
    ∃ rest', dropEndWhile p (c :: rest) = c :: rest' := by
  unfold dropEndWhile
  rw [List.reverse_cons, List.dropWhile_append]
  split
  · rw [List.dropWhile_cons_of_neg (by simp [hc])]
    exact ⟨[], rfl⟩
  · rw [List.reverse_append]
    exact ⟨_, rfl⟩

theorem dropEndWhile_prefix (p : Char → Bool) (text : List Char) :
    dropEndWhile p text <+: text := by
  have hsuffix := List.dropWhile_suffix p (l := text.reverse)
  rwa [← List.reverse_prefix, List.reverse_reverse] at hsuffix

theorem unspaced_of_all {text : List Char} (h : text.all (fun c => c != ';' && !isBlank c) = true) :
    ∀ c ∈ text, c ≠ ';' ∧ isBlank c = false := by
  intro c hc
  simpa using List.all_eq_true.mp h c hc

end Text

namespace Word

instance (w : Word) : Decidable w.WellFormed :=
  decidable_of_iff (w.letter.isUpper = true ∧ w.value.all isNumberChar = true)
    ⟨fun h => ⟨h.1, List.all_eq_true.mp h.2⟩, fun h => ⟨h.letter, List.all_eq_true.mpr h.value⟩⟩

theorem bounds_of_isUpper {c : Char} (h : c.isUpper = true) : 65 ≤ c.toNat ∧ c.toNat ≤ 90 := by
  exact of_decide_eq_true h

theorem bounds_of_isNumberChar {c : Char} (h : isNumberChar c = true) :
    43 ≤ c.toNat ∧ c.toNat ≤ 57 ∧ c.toNat ≠ 44 := by
  simp only [isNumberChar, Bool.or_eq_true, beq_iff_eq] at h
  rcases h with ((hdigit | rfl) | rfl) | rfl
  · simp only [Char.isDigit, Bool.and_eq_true, decide_eq_true_eq] at hdigit
    obtain ⟨hlower, hupper⟩ := hdigit
    have hlower : 48 ≤ c.toNat := hlower
    have hupper : c.toNat ≤ 57 := hupper
    omega
  · decide
  · decide
  · decide

theorem isNumberChar_of_isUpper {c : Char} (h : c.isUpper = true) : isNumberChar c = false := by
  have hbounds := bounds_of_isUpper h
  cases hnumber : isNumberChar c with
  | false => rfl
  | true =>
      have hcases := bounds_of_isNumberChar hnumber
      omega

theorem isBlank_of_isUpper {c : Char} (h : c.isUpper = true) : Text.isBlank c = false := by
  have hbounds := bounds_of_isUpper h
  simp only [Text.isBlank, Text.blanks, List.contains_cons, List.contains_nil, Bool.or_false,
    Bool.or_eq_false_iff, beq_eq_false_iff_ne]
  omega

theorem isBlank_of_isNumberChar {c : Char} (h : isNumberChar c = true) :
    Text.isBlank c = false := by
  have hbounds := bounds_of_isNumberChar h
  simp only [Text.isBlank, Text.blanks, List.contains_cons, List.contains_nil, Bool.or_false,
    Bool.or_eq_false_iff, beq_eq_false_iff_ne]
  omega

theorem foldr_scanStep_value {value : List Char} (h : ∀ c ∈ value, isNumberChar c = true)
    (waiting : List Char) (words : List Word) :
    value.foldr scanStep (some (waiting, words)) = some (value ++ waiting, words) := by
  induction value with
  | nil => rfl
  | cons c value ih =>
      obtain ⟨hc, hvalue⟩ := List.forall_mem_cons.mp h
      rw [List.foldr_cons, ih hvalue, scanStep, if_pos hc]
      rfl

theorem foldr_scanStep_none (text : List Char) : text.foldr scanStep none = none := by
  induction text with
  | nil => rfl
  | cons c text ih => rw [List.foldr_cons, ih, scanStep]

theorem foldr_scanStep_text {w : Word} (h : w.WellFormed) (words : List Word) :
    w.text.foldr scanStep (some ([], words)) = some ([], w :: words) := by
  rw [text, List.foldr_cons, foldr_scanStep_value h.value, List.append_nil, scanStep,
    if_neg (by simp [isNumberChar_of_isUpper h.letter]), if_pos h.letter]

theorem foldr_scanStep_spaced {words : List Word} (h : ∀ w ∈ words, w.WellFormed) :
    (words.flatMap fun w => ' ' :: w.text).foldr scanStep (some ([], [])) = some ([], words) := by
  induction words with
  | nil => rfl
  | cons w words ih =>
      obtain ⟨hw, hwords⟩ := List.forall_mem_cons.mp h
      rw [List.flatMap_cons, List.foldr_append, ih hwords, List.foldr_cons,
        foldr_scanStep_text hw]
      rfl

theorem scan_spaced {first : Word} {rest : List Word} (h : ∀ w ∈ first :: rest, w.WellFormed) :
    scan (first.text ++ rest.flatMap fun w => ' ' :: w.text) = some (first :: rest) := by
  obtain ⟨hfirst, hrest⟩ := List.forall_mem_cons.mp h
  unfold scan
  rw [List.foldr_append, foldr_scanStep_spaced hrest, foldr_scanStep_text hfirst]

theorem scan_eq_none {code : List Char} {c : Char} (hc : c ∈ code)
    (hnumber : isNumberChar c = false) (hupper : c.isUpper = false)
    (hblank : Text.isAsciiBlank c = false) : scan code = none := by
  obtain ⟨front, back, rfl⟩ := List.append_of_mem hc
  have hstep (state : Option (List Char × List Word)) : scanStep c state = none := by
    cases state with
    | none => rfl
    | some state => simp [scanStep, hnumber, hupper, hblank]
  unfold scan
  rw [List.foldr_append, List.foldr_cons, hstep, foldr_scanStep_none]

/-- The letters of scanned words stand in the text. -/
theorem letter_mem_of_scan {code : List Char} {words : List Word} (h : scan code = some words) :
    ∀ w ∈ words, w.letter ∈ code := by
  have hstate : ∀ state, code.foldr scanStep (some ([], [])) = some state →
      ∀ w ∈ state.2, w.letter ∈ code := by
    clear h
    induction code with
    | nil =>
        rintro state hstate
        obtain rfl := Option.some.inj hstate
        simp
    | cons c code ih =>
        rintro state hstate
        rw [List.foldr_cons] at hstate
        cases hrest : code.foldr scanStep (some ([], [])) with
        | none =>
            rw [hrest] at hstate
            exact absurd hstate (by simp [scanStep])
        | some rest =>
            obtain ⟨waiting, words⟩ := rest
            have hwords := ih _ hrest
            rw [hrest, scanStep] at hstate
            split at hstate
            · obtain rfl := Option.some.inj hstate
              intro w hw
              exact List.mem_cons_of_mem c (hwords w hw)
            · split at hstate
              · obtain rfl := Option.some.inj hstate
                intro w hw
                rcases List.mem_cons.mp hw with rfl | hw
                · exact List.mem_cons_self
                · exact List.mem_cons_of_mem c (hwords w hw)
              · split at hstate
                · obtain rfl := Option.some.inj hstate
                  intro w hw
                  exact List.mem_cons_of_mem c (hwords w hw)
                · exact absurd hstate (by simp)
  unfold scan at h
  split at h
  · rename_i words' hfold
    obtain rfl := Option.some.inj h
    exact hstate _ hfold
  · exact absurd h (by simp)

theorem waiting_prefix {code : List Char} {waiting : List Char} {words : List Word}
    (h : code.foldr scanStep (some ([], [])) = some (waiting, words)) : waiting <+: code := by
  induction code generalizing waiting words with
  | nil =>
      obtain ⟨rfl, -⟩ := Prod.mk.inj (Option.some.inj h)
      exact List.nil_prefix
  | cons c code ih =>
      rw [List.foldr_cons] at h
      cases hrest : code.foldr scanStep (some ([], [])) with
      | none =>
          rw [hrest] at h
          exact absurd h (by simp [scanStep])
      | some state =>
          rw [hrest, scanStep] at h
          split at h
          · obtain ⟨rfl, -⟩ := Prod.mk.inj (Option.some.inj h)
            exact List.cons_prefix_cons.mpr ⟨rfl, ih hrest⟩
          · split at h
            · obtain ⟨rfl, -⟩ := Prod.mk.inj (Option.some.inj h)
              exact List.nil_prefix
            · split at h
              · obtain ⟨rfl, -⟩ := Prod.mk.inj (Option.some.inj h)
                exact List.nil_prefix
              · exact absurd h (by simp)

theorem text_prefix_of_scan {code : List Char} {w : Word} {words : List Word}
    (h : scan code = some (w :: words)) (hblank : ∀ c ∈ code.head?, Text.isBlank c = false) :
    w.text <+: code := by
  cases code with
  | nil => exact absurd h (by simp [scan])
  | cons c code =>
      unfold scan at h
      rw [List.foldr_cons] at h
      cases hrest : code.foldr scanStep (some ([], [])) with
      | none =>
          rw [hrest] at h
          exact absurd h (by simp [scanStep])
      | some state =>
          rw [hrest, scanStep] at h
          by_cases hnumber : isNumberChar c = true
          · simp [hnumber] at h
          · by_cases hupper : c.isUpper = true
            · simp only [hnumber, Bool.false_eq_true, if_false, hupper, if_true,
                Option.some.injEq, List.cons.injEq] at h
              obtain ⟨rfl, -⟩ := h
              exact List.cons_prefix_cons.mpr ⟨rfl, waiting_prefix hrest⟩
            · have hseparates : Text.isAsciiBlank c = false := by
                have hc := hblank c rfl
                cases hascii : Text.isAsciiBlank c with
                | false => rfl
                | true =>
                    rw [Text.isBlank_of_isAsciiBlank hascii] at hc
                    exact absurd hc (by simp)
              simp [hnumber, hupper, hseparates] at h

end Word

namespace Command

theorem splitComment_fst (raw : List Char) :
    (splitComment raw).1 = raw.takeWhile (· != ';') := by
  unfold splitComment
  rw [List.span_eq_takeWhile_dropWhile]
  split
  · rename_i hsplit
    exact (congrArg Prod.fst hsplit).symm
  · rename_i hsplit
    exact (congrArg Prod.fst hsplit).symm

theorem mem_of_mem_codeOf {raw : String} {c : Char} (h : c ∈ codeOf raw) : c ∈ raw.toList := by
  rw [codeOf, Text.trim, Text.dropEndWhile, List.mem_reverse, splitComment_fst] at h
  have hfront := (List.dropWhile_sublist _).subset h
  rw [List.mem_reverse] at hfront
  exact (List.takeWhile_sublist _).subset ((List.dropWhile_sublist _).subset hfront)

theorem exists_of_addressed {letter : Char} {words : List Word} {v : Float}
    (h : addressed letter words = some v) : ∃ w ∈ words, w.letter = letter := by
  obtain ⟨w, hw, hvalue⟩ := List.exists_of_findSome?_eq_some h
  refine ⟨w, hw, ?_⟩
  by_contra hother
  rw [if_neg hother] at hvalue
  exact absurd hvalue (by simp)

theorem addressed_eq_none (letter : Char) {raw : String} (h : letter ∉ raw.toList) :
    addressed letter ((Word.scan (codeOf raw)).getD []).tail = none := by
  rw [Option.eq_none_iff_forall_ne_some]
  intro v hv
  obtain ⟨w, hw, rfl⟩ := exists_of_addressed hv
  cases hscan : Word.scan (codeOf raw) with
  | none =>
      rw [hscan] at hw
      exact absurd hw (by simp)
  | some words =>
      rw [hscan] at hw
      exact h (mem_of_mem_codeOf (Word.letter_mem_of_scan hscan w (List.mem_of_mem_tail hw)))

/-- The code of a text of words with blanks between them is the whole text. -/
theorem codeOf_spaced {raw : String} {first : Word} {rest : List Word}
    (hraw : raw.toList = first.text ++ rest.flatMap fun w => ' ' :: w.text)
    (hchars : ∀ w ∈ first :: rest, ∀ c ∈ w.text, c ≠ ';' ∧ Text.isBlank c = false) :
    codeOf raw = raw.toList := by
  have hcomment : raw.toList.takeWhile (· != ';') = raw.toList := by
    have hall : ∀ c ∈ raw.toList, (c != ';') = true := by
      intro c hc
      rw [bne_iff_ne]
      rw [hraw] at hc
      rcases List.mem_append.mp hc with hfirst | hspaced
      · exact (hchars first List.mem_cons_self c hfirst).1
      · obtain ⟨w, hw, hc⟩ := List.mem_flatMap.mp hspaced
        rcases List.mem_cons.mp hc with rfl | hc
        · decide
        · exact (hchars w (List.mem_cons_of_mem first hw) c hc).1
    rwa [List.takeWhile_eq_self_iff]
  -- The text ends with a word, so there is nothing to trim.
  obtain ⟨front, last, hlast, hends⟩ : ∃ front last, last ∈ first :: rest ∧
      raw.toList = front ++ last.text := by
    rcases List.eq_nil_or_concat rest with rfl | ⟨init, last, rfl⟩
    · exact ⟨[], first, by simp, by simpa using hraw⟩
    · refine ⟨first.text ++ (init.flatMap fun w => ' ' :: w.text) ++ [' '], last, by simp, ?_⟩
      rw [hraw]
      simp
  have hstart : raw.toList.dropWhile Text.isBlank = raw.toList := by
    have hblank : Text.isBlank first.letter = false :=
      (hchars first List.mem_cons_self first.letter List.mem_cons_self).2
    rw [hraw, Word.text, List.cons_append, List.dropWhile_cons_of_neg (by simp [hblank])]
  have hend : Text.dropEndWhile Text.isBlank raw.toList = raw.toList := by
    rw [hends]
    apply Text.dropEndWhile_append
    · simp [Word.text]
    · intro c hc
      exact (hchars last hlast c hc).2
  rw [codeOf, splitComment_fst, hcomment, Text.trim, hstart, hend]

theorem codeOf_prefix {raw : String} {c : Char} {rest : List Char} (h : raw.toList = c :: rest)
    (hblank : Text.isBlank c = false) : codeOf raw <+: raw.toList := by
  rw [codeOf, splitComment_fst, Text.trim]
  have hstart : (raw.toList.takeWhile (· != ';')).dropWhile Text.isBlank =
      raw.toList.takeWhile (· != ';') := by
    rw [h, List.takeWhile_cons]
    split
    · rw [List.dropWhile_cons_of_neg (by simp [hblank])]
    · rfl
  rw [hstart]
  exact (Text.dropEndWhile_prefix _ _).trans (List.takeWhile_prefix _)

theorem prefix_of_head_words {raw : String} {c : Char} {rest : List Char}
    (h : raw.toList = c :: rest) (hblank : Text.isBlank c = false) :
    ∀ w ∈ ((Word.scan (codeOf raw)).getD []).head?, w.text <+: raw.toList := by
  have hcode := codeOf_prefix h hblank
  intro w hw
  cases hscan : Word.scan (codeOf raw) with
  | none =>
      rw [hscan] at hw
      exact absurd hw (by simp)
  | some words =>
      rw [hscan] at hw
      obtain ⟨more, hmore⟩ := List.head?_eq_some_iff.mp hw
      rw [Option.getD_some] at hmore
      rw [hmore] at hscan
      refine (Word.text_prefix_of_scan hscan ?_).trans hcode
      intro d hd
      obtain ⟨back, hback⟩ := List.head?_eq_some_iff.mp hd
      rw [hback, h] at hcode
      rw [(List.cons_prefix_cons.mp hcode).1]
      exact hblank

theorem prefix_of_mnemonic (line : Option Nat) {raw : String} {c : Char} {rest : List Char}
    (h : raw.toList = c :: rest) (hblank : Text.isBlank c = false) :
    (ofText line raw).mnemonic.toList <+: raw.toList := by
  have hwords := prefix_of_head_words h hblank
  simp only [ofText]
  cases hfirst : ((Word.scan (codeOf raw)).getD []).head? with
  | none => exact List.nil_prefix
  | some w =>
      rw [Option.map_some, Option.getD_some, String.toList_ofList]
      exact hwords w hfirst

/-- Whether no line that begins with a text has a certain mnemonic. -/
def excludes (mnemonic text : String) : Bool :=
  text.toList.head?.any (fun c => !Text.isBlank c) && !mnemonic.toList.isPrefixOf text.toList
    && !text.toList.isPrefixOf mnemonic.toList

theorem ne_of_excludes {mnemonic code text more : String}
    (h : mnemonic.toList <+: (text ++ more).toList) (hexcludes : excludes code text = true) :
    mnemonic ≠ code := by
  simp only [excludes, Bool.and_eq_true, Bool.not_eq_true'] at hexcludes
  obtain ⟨⟨-, hlonger⟩, hshorter⟩ := hexcludes
  rintro rfl
  rw [String.toList_append] at h
  rcases List.prefix_or_prefix_of_prefix h (List.prefix_append text.toList more.toList)
    with hfront | hfront
  · rw [List.isPrefixOf_iff_prefix.mpr hfront] at hlonger
    exact absurd hlonger (by simp)
  · rw [List.isPrefixOf_iff_prefix.mpr hfront] at hshorter
    exact absurd hshorter (by simp)

theorem exists_head_of_excludes {code text : String} (h : excludes code text = true)
    (more : String) :
    ∃ c rest, (text ++ more).toList = c :: rest ∧ Text.isBlank c = false := by
  simp only [excludes, Bool.and_eq_true, Bool.not_eq_true', Option.any_eq_true] at h
  obtain ⟨⟨⟨c, hc, hblank⟩, -⟩, -⟩ := h
  obtain ⟨rest, hrest⟩ := List.head?_eq_some_iff.mp hc
  refine ⟨c, rest ++ more.toList, ?_, hblank⟩
  rw [String.toList_append, hrest, List.cons_append]

theorem mnemonic_ofText_ne (line : Option Nat) {code text : String}
    (h : excludes code text = true) (more : String) :
    (ofText line (text ++ more)).mnemonic ≠ code := by
  obtain ⟨c, rest, hraw, hblank⟩ := exists_head_of_excludes h more
  exact ne_of_excludes (prefix_of_mnemonic line hraw hblank) h

theorem mnemonic_parse_ne (line : Nat) {code text : String} (h : excludes code text = true)
    (more : String) : (parse line (text ++ more)).mnemonic ≠ code := by
  obtain ⟨c, rest, htext, hblank⟩ := exists_head_of_excludes h more
  have hend : (c == '\r' || c == '\n') = false := by
    cases hend : (c == '\r' || c == '\n') with
    | false => rfl
    | true =>
        simp only [Bool.or_eq_true, beq_iff_eq] at hend
        rcases hend with rfl | rfl <;> exact absurd hblank (by decide)
  obtain ⟨rest', hraw⟩ : ∃ rest', Text.dropEndWhile (fun d => d == '\r' || d == '\n')
      (c :: rest) = c :: rest' := Text.dropEndWhile_cons hend rest
  rw [← htext] at hraw
  have hfront := prefix_of_mnemonic (some line)
    ((String.toList_ofList).trans hraw) hblank
  rw [String.toList_ofList] at hfront
  exact ne_of_excludes (hfront.trans (Text.dropEndWhile_prefix _ _)) h

end Command

end ToolBatching
