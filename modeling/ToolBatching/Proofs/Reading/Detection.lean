import ToolBatching.Proofs.Reading.Heights

namespace ToolBatching

namespace Text

theorem isSome_firstMatch_iff {α : Type} {read : List Char → Option α} {text : List Char} :
    (firstMatch read text).isSome = true ↔ ∃ part, part <:+ text ∧ (read part).isSome = true := by
  induction text with
  | nil =>
      constructor
      · exact fun h => ⟨[], List.suffix_rfl, h⟩
      · rintro ⟨part, hpart, hread⟩
        rwa [List.suffix_nil.mp hpart] at hread
  | cons c text ih =>
      rw [firstMatch]
      cases hread : read (c :: text) with
      | some found => exact ⟨fun _ => ⟨_, List.suffix_rfl, by rw [hread]; rfl⟩, fun _ => rfl⟩
      | none =>
          simp only [ih]
          constructor
          · rintro ⟨part, hpart, h⟩
            exact ⟨part, hpart.trans (List.suffix_cons c text), h⟩
          · rintro ⟨part, hpart, h⟩
            rcases List.suffix_cons_iff.mp hpart with rfl | hpart
            · rw [hread] at h
              exact absurd h (by simp)
            · exact ⟨part, hpart, h⟩

theorem dropFolded_append_right {pattern text rest : List Char}
    (h : dropFolded pattern text = some rest) (more : List Char) :
    dropFolded pattern (text ++ more) = some (rest ++ more) := by
  induction pattern generalizing text with
  | nil =>
      obtain rfl : text = rest := Option.some.inj h
      rfl
  | cons p pattern ih =>
      cases text with
      | nil => exact absurd h (by simp [dropFolded])
      | cons c text =>
          rw [dropFolded] at h
          rw [List.cons_append, dropFolded]
          split at h
          · rename_i hfolds
            rw [if_pos hfolds]
            exact ih h
          · exact absurd h (by simp)

theorem skipBlanks_append {text : List Char} (h : skipBlanks text ≠ []) (more : List Char) :
    skipBlanks (text ++ more) = skipBlanks text ++ more := by
  unfold skipBlanks at h ⊢
  rw [List.dropWhile_append, if_neg (by simpa using h)]

theorem exists_of_takeRun {p : Char → Bool} {text run rest : List Char}
    (h : takeRun p text = some (run, rest)) :
    text = run ++ rest ∧ run ≠ [] ∧ (∀ c ∈ run, p c = true) ∧ ∀ c ∈ rest.head?, p c = false := by
  unfold takeRun at h
  split at h
  · exact absurd h (by simp)
  · rename_i hne
    obtain ⟨rfl, rfl⟩ := Prod.mk.inj (Option.some.inj h)
    refine ⟨(List.takeWhile_append_dropWhile).symm, hne, fun c => List.mem_takeWhile_imp, ?_⟩
    intro c hc
    have hstop := List.head?_dropWhile_not p text
    rwa [hc] at hstop

theorem takeRun_append_right {p : Char → Bool} {text run rest : List Char}
    (h : takeRun p text = some (run, rest)) (hne : rest ≠ []) (more : List Char) :
    takeRun p (text ++ more) = some (run, rest ++ more) := by
  obtain ⟨rfl, hrun, hholds, hstop⟩ := exists_of_takeRun h
  rw [List.append_assoc]
  refine takeRun_append hrun hholds ?_
  rwa [List.head?_append_of_ne_nil _ hne]

theorem isSome_takeRun_append {p : Char → Bool} {text : List Char}
    (h : (takeRun p text).isSome = true) (more : List Char) :
    (takeRun p (text ++ more)).isSome = true := by
  obtain ⟨⟨run, rest⟩, htaken⟩ := Option.isSome_iff_exists.mp h
  obtain ⟨rfl, hne, hholds, -⟩ := exists_of_takeRun htaken
  obtain ⟨c, run, rfl⟩ := List.exists_cons_of_ne_nil hne
  unfold takeRun
  rw [List.cons_append, List.cons_append, List.takeWhile_cons_of_pos (hholds c List.mem_cons_self)]
  rfl

end Text

namespace Marker

open Text

/-- Number of the layer marker in the text of a line. -/
def numberOf (raw : String) : Option Nat :=
  match ofCommand (Command.ofText none raw) with
  | some (.layer number _) => some number
  | _ => none

theorem skipBlanks_ne_nil_of_takeRun {text : List Char} {p : Char → Bool}
    (h : (takeRun p (skipBlanks text)).isSome = true) : skipBlanks text ≠ [] := by
  intro hnil
  rw [hnil] at h
  exact absurd h (by simp [takeRun])

theorem layerDigits_append {text : List Char} (h : (layerDigits text).isSome = true)
    (more : List Char) : (layerDigits (text ++ more)).isSome = true := by
  obtain ⟨found, hfound⟩ := Option.isSome_iff_exists.mp h
  unfold layerDigits at hfound
  obtain ⟨behind, hliteral, hfound⟩ := Option.bind_eq_some_iff.mp hfound
  obtain ⟨⟨number, rest⟩, hnumber, hfound⟩ := Option.bind_eq_some_iff.mp hfound
  dsimp only at hfound
  split at hfound
  · rename_i total hslash
    obtain ⟨⟨digits, rest'⟩, htotal, -⟩ := Option.bind_eq_some_iff.mp hfound
    have hbehind : skipBlanks behind ≠ [] := skipBlanks_ne_nil_of_takeRun (by rw [hnumber]; rfl)
    have hrest : rest ≠ [] := by
      rintro rfl
      exact absurd hslash (by simp [skipBlanks])
    have hmore : skipBlanks (rest ++ more) = '/' :: (total ++ more) := by
      rw [skipBlanks_append (by rw [hslash]; simp), hslash, List.cons_append]
    have hdigits : (takeRun isDecimalDigit (skipBlanks (total ++ more))).isSome = true := by
      have htaken : (takeRun isDecimalDigit (skipBlanks total)).isSome = true := by
        rw [htotal]
        rfl
      rw [skipBlanks_append (skipBlanks_ne_nil_of_takeRun htaken)]
      exact isSome_takeRun_append htaken more
    obtain ⟨⟨digits', rest''⟩, hdigits⟩ := Option.isSome_iff_exists.mp hdigits
    unfold layerDigits
    rw [dropFolded_append_right hliteral, Option.bind_eq_bind, Option.bind_some,
      skipBlanks_append hbehind, takeRun_append_right hnumber hrest, Option.bind_eq_bind,
      Option.bind_some]
    simp only [hmore, hdigits]
    rfl
  · exact absurd hfound (by simp)

theorem firstMatch_layerDigits_append {text : List Char}
    (h : (firstMatch layerDigits text).isSome = true) (front back : List Char) :
    (firstMatch layerDigits (front ++ text ++ back)).isSome = true := by
  obtain ⟨part, ⟨skipped, rfl⟩, hpart⟩ := isSome_firstMatch_iff.mp h
  refine isSome_firstMatch_iff.mpr ⟨part ++ back, ⟨front ++ skipped, ?_⟩, layerDigits_append hpart back⟩
  simp only [List.append_assoc]

theorem isSome_firstMatch_of_layer {comment : List Char} {number total : Nat}
    (h : ofComment comment = some (.layer number total)) :
    (firstMatch layerDigits comment).isSome = true := by
  unfold ofComment at h
  cases hmatch : firstMatch layerDigits comment with
  | some found => rfl
  | none =>
      rw [hmatch] at h
      simp only at h
      split at h
      · exact absurd h (by simp)
      · split at h
        · exact absurd h (by simp)
        · split at h
          · obtain ⟨z, -, hz⟩ := Option.map_eq_some_iff.mp h
            exact absurd hz (by simp)
          · split at h <;> exact absurd h (by simp)

end Marker

namespace Command

theorem exists_trim_eq (text : List Char) : ∃ front back, text = front ++ Text.trim text ++ back := by
  obtain ⟨front, hfront⟩ := List.dropWhile_suffix Text.isBlank (l := text)
  obtain ⟨back, hback⟩ := Text.dropEndWhile_prefix Text.isBlank (text.dropWhile Text.isBlank)
  refine ⟨front, back, ?_⟩
  rw [List.append_assoc, Text.trim, hback, hfront]

theorem splitComment_snd_append {raw comment : List Char} (h : (splitComment raw).2 = some comment)
    (more : List Char) : (splitComment (raw ++ more)).2 = some (comment ++ more) := by
  unfold splitComment at h ⊢
  rw [List.span_eq_takeWhile_dropWhile] at h ⊢
  rw [List.dropWhile_append]
  split at h
  · exact absurd h (by simp)
  · rename_i hsplit
    obtain ⟨-, hdrop⟩ := Prod.mk.inj hsplit
    obtain rfl := Option.some.inj h
    simp [hdrop]

end Command

namespace Marker

open Text

theorem exists_comment_of_layer {c : Command} {number total : Nat}
    (h : ofCommand c = some (.layer number total)) :
    ∃ comment, c.comment = some comment ∧ ofComment comment.toList = some (.layer number total) := by
  unfold ofCommand at h
  split at h
  · obtain ⟨slot, -, hslot⟩ := Option.map_eq_some_iff.mp h
    exact absurd hslot (by simp)
  · split at h
    · exact absurd h (by simp)
    · exact Option.bind_eq_some_iff.mp h

theorem exists_of_numberOf {raw : String} {number : Nat} (h : numberOf raw = some number) :
    ∃ total, ofCommand (Command.ofText none raw) = some (.layer number total) := by
  unfold numberOf at h
  split at h
  · rename_i total hmarker
    obtain rfl := Option.some.inj h
    exact ⟨total, hmarker⟩
  · exact absurd h (by simp)

theorem exists_comment_of_numberOf {raw : String} {number : Nat} (h : numberOf raw = some number) :
    ∃ comment, (Command.splitComment raw.toList).2 = some comment ∧
      (firstMatch layerDigits comment).isSome = true := by
  obtain ⟨total, hmarker⟩ := exists_of_numberOf h
  obtain ⟨comment, hcomment, hlayer⟩ := exists_comment_of_layer hmarker
  obtain ⟨behind, hbehind, rfl⟩ := Option.map_eq_some_iff.mp hcomment
  rw [String.toList_ofList] at hlayer
  obtain ⟨front, back, htrim⟩ := Command.exists_trim_eq behind
  refine ⟨behind, hbehind, ?_⟩
  rw [htrim]
  exact firstMatch_layerDigits_append (isSome_firstMatch_of_layer hlayer) front back

theorem anyLayer_of_mem {lines : List String} {text : String} (htext : text ∈ lines)
    {raw : String} (hraw : raw.toList <+: text.toList) {number : Nat}
    (h : numberOf raw = some number) : anyLayer lines = true := by
  obtain ⟨comment, hcomment, hfound⟩ := exists_comment_of_numberOf h
  obtain ⟨more, hmore⟩ := hraw
  refine List.any_eq_true.mpr ⟨text, htext, ?_⟩
  rw [← hmore, Command.splitComment_snd_append hcomment more]
  exact firstMatch_layerDigits_append hfound [] more

end Marker

theorem Command.exists_parse (n : Nat) (text : String) :
    ∃ raw, parse n text = ofText (some n) raw ∧ raw.toList <+: text.toList := by
  refine ⟨_, rfl, ?_⟩
  rw [String.toList_ofList]
  exact Text.dropEndWhile_prefix _ _

theorem Context.exists_scan (ctx : Context) (n : Nat) (text : String) :
    ∃ raw, raw.toList <+: text.toList ∧ (ctx.scan n text).command.raw = raw ∧
      (ctx.scan n text).marker = Marker.ofCommand (Command.ofText none raw) := by
  obtain ⟨raw, hparse, hraw⟩ := Command.exists_parse n text
  refine ⟨raw, hraw, ?_, ?_⟩
  · rw [command_scan, hparse]
    rfl
  · rw [marker_scan, command_scan, hparse]
    exact Marker.ofCommand_tagged (Command.ofText none raw) (some n) _

theorem ScannedLine.layerNumber_eq {ctx : Context} {start : Nat} {lines : List String}
    {line : ScannedLine} (h : line ∈ scanLines ctx start lines) :
    line.layerNumber = Marker.numberOf line.command.raw := by
  refine forall_scanLines (fun line => line.layerNumber = Marker.numberOf line.command.raw)
    ctx start lines (fun ctx n text => ?_) line h
  obtain ⟨raw, -, hraw, hmarker⟩ := ctx.exists_scan n text
  rw [layerNumber, hmarker, hraw]
  rfl

theorem marker_eq_of_mem_scanLines {ctx : Context} {start : Nat} {raws : List String}
    {line : ScannedLine} (h : line ∈ scanLines ctx start raws) :
    line.marker = Marker.ofCommand (Command.ofText none line.command.raw) := by
  obtain ⟨ctx', n, text, -, rfl⟩ := exists_of_mem_scanLines h
  obtain ⟨raw, -, hraw, hmarker⟩ := ctx'.exists_scan n text
  rw [hraw, hmarker]

theorem layerNumber_eq_none {ctx : Context} {start : Nat} {lines : List String}
    (h : Marker.anyLayer lines = false) :
    ∀ line ∈ scanLines ctx start lines, line.layerNumber = none := by
  intro line hline
  rw [ScannedLine.layerNumber_eq hline]
  obtain ⟨ctx', n, text, htext, rfl⟩ := exists_of_mem_scanLines hline
  obtain ⟨raw, hprefix, hraw, -⟩ := ctx'.exists_scan n text
  rw [hraw]
  cases hnumber : Marker.numberOf raw with
  | none => rfl
  | some number =>
      rw [Marker.anyLayer_of_mem htext hprefix hnumber] at h
      exact absurd h (by simp)

end ToolBatching
