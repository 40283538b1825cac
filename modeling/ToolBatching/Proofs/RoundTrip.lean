import ToolBatching.Proofs.Reading.Pieces

namespace ToolBatching

namespace Text

theorem dropEndWhile_dropEndWhile (p : Char → Bool) (text : List Char) :
    dropEndWhile p (dropEndWhile p text) = dropEndWhile p text := by
  rw [dropEndWhile, dropEndWhile, List.reverse_reverse, List.dropWhile_idempotent]

section Blanks

variable {text more : List Char}

theorem holds_of_isBlank {p : Char → Bool}
    (h : (blanks.map Char.ofNat).all p = true) {c : Char} (hc : isBlank c = true) :
    p c = true := by
  have hmem : c.toNat ∈ blanks := List.contains_iff_mem.mp hc
  have hholds := List.all_eq_true.mp h _ (List.mem_map_of_mem hmem)
  rwa [Char.ofNat_toNat] at hholds

theorem isDecimalDigit_of_isBlank {c : Char} (hc : isBlank c = true) :
    isDecimalDigit c = false := by
  simpa using holds_of_isBlank (p := fun c => !isDecimalDigit c) (by decide) hc

theorem exists_of_dropFolded {pattern rest : List Char} (h : dropFolded pattern text = some rest) :
    ∃ taken, text = taken ++ rest ∧
      ∀ behind, dropFolded pattern (taken ++ behind) = some behind := by
  induction pattern generalizing text with
  | nil => exact ⟨[], Option.some.inj h, fun _ => rfl⟩
  | cons p pattern ih =>
      cases text with
      | nil => exact absurd h (by simp [dropFolded])
      | cons c text =>
          rw [dropFolded] at h
          split at h
          · rename_i hfolds
            obtain ⟨taken, rfl, htaken⟩ := ih h
            exact ⟨c :: taken, rfl, fun behind => (if_pos hfolds).trans (htaken behind)⟩
          · exact absurd h (by simp)

theorem dropFolded_of_append {pattern rest : List Char}
    (h : dropFolded pattern (text ++ more) = some rest) (hrest : ¬ rest <:+ more) :
    ∃ part, dropFolded pattern text = some part ∧ rest = part ++ more := by
  obtain ⟨taken, heq, htaken⟩ := exists_of_dropFolded h
  rcases List.append_eq_append_iff.mp heq with ⟨middle, -, hmiddle⟩ | ⟨middle, rfl, rfl⟩
  · exact absurd ⟨middle, hmiddle.symm⟩ hrest
  · exact ⟨middle, htaken middle, rfl⟩

theorem skipBlanks_of_append {c : Char} {rest : List Char} (hmore : ∀ c ∈ more, isBlank c = true)
    (h : skipBlanks (text ++ more) = c :: rest) :
    ∃ part, skipBlanks text = c :: part ∧ rest = part ++ more := by
  unfold skipBlanks at h ⊢
  rw [List.dropWhile_append] at h
  split at h
  · rw [List.dropWhile_eq_nil_iff.mpr hmore] at h
    exact absurd h (by simp)
  · rename_i hne
    rw [List.isEmpty_iff] at hne
    obtain ⟨first, part, hpart⟩ := List.exists_cons_of_ne_nil hne
    rw [hpart, List.cons_append] at h
    obtain ⟨rfl, rfl⟩ := List.cons.inj h
    exact ⟨part, hpart, rfl⟩

theorem takeRun_of_append {p : Char → Bool} {run rest : List Char}
    (hmore : ∀ c ∈ more, p c = false) (h : takeRun p (text ++ more) = some (run, rest)) :
    ∃ part, takeRun p text = some (run, part) ∧ rest = part ++ more := by
  obtain ⟨heq, hne, hrun, hstop⟩ := exists_of_takeRun h
  obtain ⟨part, rfl, rfl⟩ : ∃ part, text = run ++ part ∧ rest = part ++ more := by
    rcases List.append_eq_append_iff.mp heq with ⟨middle, rfl, hmiddle⟩ | ⟨middle, rfl, hmiddle⟩
    · cases middle with
      | nil => exact ⟨[], by simp, by simpa using hmiddle.symm⟩
      | cons c middle =>
          have hc := hrun c (by simp)
          rw [hmore c (by rw [hmiddle]; simp)] at hc
          exact absurd hc (by simp)
    · exact ⟨middle, rfl, hmiddle⟩
  refine ⟨part, takeRun_append hne hrun fun c hc => hstop c ?_, rfl⟩
  rw [List.head?_append, Option.mem_def.mp hc]
  rfl

theorem takeRun_skipBlanks_of_append {p : Char → Bool} {run rest : List Char}
    (hblank : ∀ c ∈ more, isBlank c = true) (hmore : ∀ c ∈ more, p c = false)
    (h : takeRun p (skipBlanks (text ++ more)) = some (run, rest)) :
    ∃ part, takeRun p (skipBlanks text) = some (run, part) ∧ rest = part ++ more := by
  have hskip : skipBlanks (text ++ more) = skipBlanks text ++ more := by
    refine skipBlanks_append (fun hnil => ?_) more
    have hall : skipBlanks (text ++ more) = [] := by
      unfold skipBlanks at hnil ⊢
      rw [List.dropWhile_append, hnil]
      exact List.dropWhile_eq_nil_iff.mpr hblank
    rw [hall] at h
    exact absurd h (by simp [takeRun])
  rw [hskip] at h
  exact takeRun_of_append hmore h

end Blanks

end Text

namespace Marker

open Text

section Blanks

variable {text more : List Char}

theorem layerDigits_of_append (hmore : ∀ c ∈ more, isBlank c = true)
    (h : (layerDigits (text ++ more)).isSome = true) : (layerDigits text).isSome = true := by
  have hdigit : ∀ c ∈ more, isDecimalDigit c = false :=
    fun c hc => isDecimalDigit_of_isBlank (hmore c hc)
  obtain ⟨found, hfound⟩ := Option.isSome_iff_exists.mp h
  unfold layerDigits at hfound
  obtain ⟨behind, hdrop, hfound⟩ := Option.bind_eq_some_iff.mp hfound
  obtain ⟨⟨number, rest⟩, hnumber, hfound⟩ := Option.bind_eq_some_iff.mp hfound
  dsimp only at hfound
  split at hfound
  · rename_i total hslash
    obtain ⟨⟨digits, rest'⟩, htotal, -⟩ := Option.bind_eq_some_iff.mp hfound
    have hlong : ¬ behind <:+ more := by
      intro hsuffix
      have hblank : skipBlanks behind = [] :=
        List.dropWhile_eq_nil_iff.mpr fun c hc => hmore c (hsuffix.subset hc)
      rw [hblank] at hnumber
      exact absurd hnumber (by simp [takeRun])
    obtain ⟨behind, hbehind, rfl⟩ := dropFolded_of_append hdrop hlong
    obtain ⟨rest, hrest, rfl⟩ := takeRun_skipBlanks_of_append hmore hdigit hnumber
    obtain ⟨total, hpart, rfl⟩ := skipBlanks_of_append hmore hslash
    obtain ⟨_, hdigits, -⟩ := takeRun_skipBlanks_of_append hmore hdigit htotal
    unfold layerDigits
    rw [hbehind, Option.bind_eq_bind, Option.bind_some, hrest, Option.bind_eq_bind,
      Option.bind_some]
    simp only [hpart, hdigits]
    rfl
  · exact absurd hfound (by simp)

theorem isSome_firstMatch_layerDigits_append (hmore : ∀ c ∈ more, isBlank c = true) :
    (firstMatch layerDigits (text ++ more)).isSome = (firstMatch layerDigits text).isSome := by
  refine Bool.eq_iff_iff.mpr ⟨fun h => ?_, fun h => firstMatch_layerDigits_append h [] more⟩
  obtain ⟨part, ⟨front, hfront⟩, hpart⟩ := isSome_firstMatch_iff.mp h
  rcases List.append_eq_append_iff.mp hfront with ⟨middle, rfl, rfl⟩ | ⟨middle, rfl, hmiddle⟩
  · exact isSome_firstMatch_iff.mpr ⟨middle, ⟨front, rfl⟩, layerDigits_of_append hmore hpart⟩
  · rw [← List.nil_append part] at hpart
    have hpart := layerDigits_of_append (fun c hc => hmore c (by rw [hmiddle]; simp [hc])) hpart
    exact absurd hpart (by decide)

end Blanks

end Marker

namespace Command

open Text

theorem splitComment_append {raw more : List Char} (h : ';' ∉ more) :
    (splitComment (raw ++ more)).2 = (splitComment raw).2.map (· ++ more) := by
  have hmore : more.dropWhile (· != ';') = [] := by
    rw [List.dropWhile_eq_nil_iff]
    intro c hc
    simpa using fun heq : c = ';' => h (heq ▸ hc)
  unfold splitComment
  rw [List.span_eq_takeWhile_dropWhile, List.span_eq_takeWhile_dropWhile, List.dropWhile_append]
  cases raw.dropWhile (· != ';') with
  | nil => simp [hmore]
  | cons c comment => simp

theorem parse_trimmed (n : Nat) (text : String) : parse n (trimmed text) = parse n text := by
  rw [parse_eq, parse_eq, trimmed, toList_trimmed, dropEndWhile_dropEndWhile, ← trimmed]

end Command

namespace Marker

open Text

theorem anyLayer_trimmed (lines : List String) :
    anyLayer (lines.map Command.trimmed) = anyLayer lines := by
  rw [anyLayer, anyLayer, List.any_map]
  refine congrArg (List.any lines) (funext fun text => ?_)
  obtain ⟨more, htext, hmore⟩ := exists_dropEndWhile_append isTerminator text.toList
  have hcomment : ';' ∉ more := fun h => absurd (hmore _ h) (by decide)
  rw [Function.comp_apply, Command.toList_trimmed]
  nth_rewrite 2 [htext]
  rw [Command.splitComment_append hcomment]
  cases (Command.splitComment (dropEndWhile isTerminator text.toList)).2 with
  | none => rfl
  | some comment =>
      exact (isSome_firstMatch_layerDigits_append fun c hc =>
        isBlank_of_isTerminator (hmore c hc)).symm

end Marker

namespace Layout

theorem read_trimmed (l : Layout) (text : String) :
    l.read (Command.trimmed text) = l.read text := by
  simp only [read, Context.scan, Command.parse_trimmed]

end Layout

namespace LineEnding

theorem ofText_cons {c : Char} {rest : List Char} (hfeed : c ≠ '\n')
    (hreturn : c = '\r' → rest.head? ≠ some '\n') : ofText (c :: rest) = ofText rest := by
  conv_lhs => unfold ofText
  split
  · rename_i heq
    obtain ⟨rfl, rfl⟩ := List.cons.inj heq
    exact absurd rfl (hreturn rfl)
  · rename_i heq
    exact absurd (List.cons.inj heq).1 hfeed
  · rename_i heq
    obtain ⟨rfl, rfl⟩ := List.cons.inj heq
    rfl
  · rename_i heq
    exact absurd heq (by simp)

theorem ofText_append_terminator (ending : LineEnding) {text : List Char} (h : Text.IsLine text)
    (rest : List Char) : ofText (text ++ (ending.terminator.toList ++ rest)) = ending := by
  induction text with
  | nil => cases ending <;> rfl
  | cons c text ih =>
      have hfeed : c ≠ '\n' := fun heq => h.feed (by simp [heq])
      have hline : Text.IsLine text := by
        refine ⟨fun hmem => h.feed (List.mem_cons_of_mem _ hmem), fun d hd => h.last d ?_⟩
        rw [List.getLast?_cons, Option.mem_def.mp hd]
        rfl
      rw [List.cons_append, ofText_cons hfeed, ih hline]
      rintro rfl hhead
      -- A carriage return in front of the terminator would be the last character of the line.
      cases text with
      | nil => exact h.last '\r' rfl rfl
      | cons d text => exact h.feed (by simp_all)

theorem ofText_unlines (ending : LineEnding) {raws : List String} (hne : raws ≠ [])
    (h : ∀ raw ∈ raws, Text.IsLine raw.toList) :
    ofText (Text.unlines ending raws).toList = ending := by
  obtain ⟨raw, raws, rfl⟩ := List.exists_cons_of_ne_nil hne
  rw [Text.toList_unlines, List.flatMap_cons, List.append_assoc]
  exact ofText_append_terminator ending (h raw List.mem_cons_self) _

end LineEnding

theorem Text.lines_ne_nil {text : List Char} (h : text ≠ []) : lines text ≠ [] := by
  -- A line feed in front of which a return may stand has begun a line.
  have hfold (text : List Char) :
      ((text.foldr addToLines (false, [])).1 = true → (text.foldr addToLines (false, [])).2 ≠ []) ∧
        (text ≠ [] → (text.foldr addToLines (false, [])).2 ≠ []) := by
    induction text with
    | nil => simp
    | cons c text ih =>
        rw [List.foldr_cons]
        generalize text.foldr addToLines (false, []) = state at ih
        obtain ⟨beforeFeed, lines⟩ := state
        unfold addToLines
        dsimp only
        split
        · simp
        · split
          · rename_i hreturn
            rw [Bool.and_eq_true] at hreturn
            exact ⟨fun hfalse => absurd hfalse (by simp), fun _ => ih.1 hreturn.2⟩
          · split <;> simp
  exact (hfold text).2 h

namespace Program

theorem ofLines_trimmed (lines : List String) (lineEnding : LineEnding) :
    ofLines (lines.map Command.trimmed) lineEnding = ofLines lines lineEnding := by
  rw [ofLines, ofLines, Marker.anyLayer_trimmed, List.foldl_map]
  simp only [Layout.read_trimmed]

theorem map_raw_commands (lines : List String) (lineEnding : LineEnding) :
    (ofLines lines lineEnding).commands.map Command.raw = lines.map Command.trimmed := by
  rw [(read_ofLines lines lineEnding).commands, List.map_map]
  exact map_raw_scanLines {} 0 lines

theorem text_ofLines (lines : List String) (lineEnding : LineEnding) :
    (ofLines lines lineEnding).text = Text.unlines lineEnding (lines.map Command.trimmed) := by
  rw [text, Command.unlines, map_raw_commands]
  rfl

theorem ofText_unlines_trimmed (ending : LineEnding) {lines : List String} (hne : lines ≠ [])
    (hfeed : ∀ line ∈ lines, '\n' ∉ line.toList) :
    ofText (Text.unlines ending (lines.map Command.trimmed)) = ofLines lines ending := by
  have hclean : ∀ raw ∈ lines.map Command.trimmed, Text.IsLine raw.toList :=
    List.forall_mem_map.mpr fun line hline => Command.isLine_trimmed (hfeed line hline)
  have hlines : (Text.lines (Text.unlines ending (lines.map Command.trimmed)).toList).map
      String.ofList = lines.map Command.trimmed := by
    rw [Text.lines_unlines ending hclean, List.map_map]
    exact List.map_id'' (fun raw => String.ofList_toList) _
  rw [ofText, hlines, LineEnding.ofText_unlines ending (by simpa using hne) hclean,
    ofLines_trimmed]

/-- Lines without line feeds and without carriage returns at their ends, each with the same
terminator, are written as they were read. Whatever the text, what is written of it is read as
the same program. -/
theorem ofText_text :
    (∀ (ending : LineEnding) (lines : List String),
        (∀ line ∈ lines, '\n' ∉ line.toList ∧ line.toList.getLast? ≠ some '\r') →
          (ofText (Text.unlines ending lines)).text = Text.unlines ending lines) ∧
      ∀ text : String, ofText (ofText text).text = ofText text := by
  constructor
  · intro ending lines hlines
    have hclean : ∀ line ∈ lines, Text.IsLine line.toList := by
      intro line hline
      obtain ⟨hfeed, hlast⟩ := hlines line hline
      exact ⟨hfeed, fun c hc heq => hlast (heq ▸ hc)⟩
    rcases eq_or_ne lines [] with rfl | hne
    · cases ending <;> rfl
    · have hread := ofText_unlines_trimmed ending hne fun line hline => (hclean line hline).feed
      rw [Command.map_trimmed_of_isLine hclean] at hread
      rw [hread, text_ofLines, Command.map_trimmed_of_isLine hclean]
  · intro text
    rcases eq_or_ne text.toList [] with hnil | hne
    · rw [String.toList_eq_nil_iff] at hnil
      subst hnil
      rfl
    · nth_rewrite 2 [ofText]
      rw [text_ofLines, ofText_unlines_trimmed, ← ofText]
      · simpa using Text.lines_ne_nil hne
      · refine List.forall_mem_map.mpr fun line hline => ?_
        rw [String.toList_ofList]
        exact Text.feed_notMem_of_mem_lines hline

end Program

end ToolBatching
