import ToolBatching.Proofs.Reading.Cuts
import ToolBatching.Proofs.RoundTrip

namespace ToolBatching

namespace Marker

open Text

/-- A comment with the form of a layer marker. -/
def Formed (c : Command) : Prop :=
  ∃ comment ∈ c.comment, (firstMatch layerDigits comment.toList).isSome = true

/-- A line with the form of a layer marker that is not read as one: an opener or a closer of a
tool-change sequence hides its comment, or one of its counts cannot be read, as it is too large
or has digits of another script. -/
def Overlooked (c : Command) : Prop :=
  ∃ comment ∈ c.comment, ∃ number total,
    firstMatch layerDigits comment.toList = some (number, total) ∧
      ((sequenceDigits "M620 S" c.code).isSome = true ∨
        (sequenceDigits "M621 S" c.code).isSome = true ∨
        readCount number = none ∨ readCount total = none)

theorem ofComment_of_layerDigits {comment number total : List Char}
    (h : firstMatch layerDigits comment = some (number, total)) :
    ofComment comment =
      (readCount number).bind fun n => (readCount total).map fun t => .layer n t := by
  unfold ofComment
  simp only [h]
  cases readCount number with
  | none => rfl
  | some n => cases readCount total <;> rfl

theorem formed_iff {c : Command} : Formed c ↔ isLayer c = true ∨ Overlooked c := by
  constructor
  · rintro ⟨comment, hcomment, hmatch⟩
    obtain ⟨⟨number, total⟩, hmatch⟩ := Option.isSome_iff_exists.mp hmatch
    by_cases hreason : (sequenceDigits "M620 S" c.code).isSome = true ∨
        (sequenceDigits "M621 S" c.code).isSome = true ∨
        readCount number = none ∨ readCount total = none
    · exact Or.inr ⟨comment, hcomment, number, total, hmatch, hreason⟩
    · simp only [not_or, Bool.not_eq_true, Option.isSome_eq_false_iff, Option.isNone_iff_eq_none]
        at hreason
      obtain ⟨hopener, hcloser, hnumber, htotal⟩ := hreason
      obtain ⟨n, hn⟩ := Option.ne_none_iff_exists'.mp hnumber
      obtain ⟨t, ht⟩ := Option.ne_none_iff_exists'.mp htotal
      left
      rw [isLayer_iff]
      refine ⟨n, t, ?_⟩
      unfold ofCommand
      rw [hopener, hcloser, Option.mem_def.mp hcomment, Option.bind_some,
        ofComment_of_layerDigits hmatch, hn, ht]
      rfl
  · rintro (hlayer | ⟨comment, hcomment, number, total, hmatch, -⟩)
    · obtain ⟨n, t, hmarker⟩ := isLayer_iff.mp hlayer
      obtain ⟨comment, hcomment, hread⟩ := exists_comment_of_layer hmarker
      exact ⟨comment, hcomment, isSome_firstMatch_of_layer hread⟩
    · exact ⟨comment, hcomment, by rw [hmatch]; rfl⟩

theorem layerDigits_cons_of_isBlank {c : Char} (hc : isBlank c = true) (text : List Char) :
    layerDigits (c :: text) = none := by
  have hfolds : foldsTo 'l' c = false := by
    simpa using holds_of_isBlank (p := fun c => !foldsTo 'l' c) (by decide) hc
  have hliteral : "layer num/total_layer_count:".toList =
      'l' :: "ayer num/total_layer_count:".toList := rfl
  unfold layerDigits
  rw [hliteral, dropFolded, if_neg (by simp [hfolds])]
  rfl

theorem firstMatch_layerDigits_dropWhile (text : List Char) :
    firstMatch layerDigits (text.dropWhile isBlank) = firstMatch layerDigits text := by
  induction text with
  | nil => rfl
  | cons c text ih =>
      cases hc : isBlank c with
      | true =>
          rw [List.dropWhile_cons_of_pos hc, ih]
          conv_rhs => rw [firstMatch, layerDigits_cons_of_isBlank hc]
      | false => rw [List.dropWhile_cons_of_neg (by simp [hc])]

theorem isSome_firstMatch_trim (text : List Char) :
    (firstMatch layerDigits (trim text)).isSome = (firstMatch layerDigits text).isSome := by
  obtain ⟨more, htext, hmore⟩ := exists_dropEndWhile_append isBlank (text.dropWhile isBlank)
  rw [← firstMatch_layerDigits_dropWhile text, htext, isSome_firstMatch_layerDigits_append hmore]
  rfl

theorem anyLayer_eq_true_iff (lines : List String) :
    anyLayer lines = true ↔ ∃ text ∈ lines, Formed (Command.parse 0 text) := by
  rw [← anyLayer_trimmed, anyLayer, List.any_map, List.any_eq_true]
  refine exists_congr fun text => and_congr_right fun _ => ?_
  rw [Function.comp_apply, Command.parse_eq, Formed, Command.ofText]
  cases (Command.splitComment (Command.trimmed text).toList).2 with
  | none => simp
  | some comment => simp [isSome_firstMatch_trim]

end Marker

namespace Program

variable {lines : List String} {lineEnding : LineEnding}

theorem exists_scanned_of_mem (ctx : Context) (start : Nat) {text : String} (h : text ∈ lines) :
    ∃ ctx' n, Context.scan ctx' n text ∈ scanLines ctx start lines := by
  induction lines generalizing ctx start with
  | nil => exact absurd h (by simp)
  | cons first rest ih =>
      rw [scanLines]
      rcases List.mem_cons.mp h with rfl | h
      · exact ⟨ctx, start, List.mem_cons_self⟩
      · obtain ⟨ctx', n, hmem⟩ := ih (ctx.scan start first).next (start + 1) h
        exact ⟨ctx', n, List.mem_cons_of_mem _ hmem⟩

theorem isSome_layerNumber_scan (ctx : Context) (n : Nat) (text : String) :
    (ctx.scan n text).layerNumber.isSome = Marker.isLayer (Command.parse 0 text) := by
  have hmarker : (ctx.scan n text).marker = Marker.ofCommand (Command.parse 0 text) := by
    rw [ctx.marker_scan, ctx.command_scan, Command.parse_eq, Command.parse_eq,
      Marker.ofCommand_ofText (some 0)]
    exact Marker.ofCommand_tagged (Command.ofText none (Command.trimmed text)) (some n) _
  rw [ScannedLine.layerNumber, Marker.isLayer, hmarker]
  cases Marker.ofCommand (Command.parse 0 text) with
  | none => rfl
  | some marker => cases marker <;> rfl

/-- Lines that are told apart by markers have a layer if one of them is read as a layer
marker, and only then: in front of the first one no end sequence begins. -/
theorem layers_ne_nil_iff (h : (ofLines lines lineEnding).detection = .markers) :
    (ofLines lines lineEnding).layers ≠ [] ↔
      ∃ text ∈ lines, Marker.isLayer (Command.parse 0 text) = true := by
  obtain ⟨front, slices, tail, hcut, hrises, -⟩ := (ofLines_cut lines lineEnding).1 h
  constructor
  · intro hne
    obtain ⟨s, more, rfl⟩ : ∃ s more, slices = s :: more := by
      apply List.exists_cons_of_ne_nil
      rintro rfl
      exact hne (by simpa using hcut.layers)
    obtain ⟨keys, hkeys, -⟩ := hrises.opens
    have hopener : s.opener ∈ scanLines {} 0 lines := by
      rw [← hcut.lines]
      simp [Slice.lines]
    obtain ⟨ctx, n, text, htext, hscan⟩ := exists_of_mem_scanLines hopener
    refine ⟨text, htext, ?_⟩
    rw [← isSome_layerNumber_scan ctx n text, ← hscan]
    cases keys with
    | nil => simp at hkeys
    | cons k keys =>
        rw [List.map_cons, List.map_cons] at hkeys
        rw [(List.cons.inj hkeys).1]
        rfl
  · rintro ⟨text, htext, hlayer⟩ hnil
    obtain ⟨ctx, n, hscanned⟩ := exists_scanned_of_mem {} 0 htext
    have hslices : slices = [] := by
      have hlayers := hcut.layers
      rw [hnil, List.map_nil] at hlayers
      exact List.map_eq_nil_iff.mp hlayers.symm
    have htail : tail = [] := by
      have hpostamble := hcut.postamble
      rw [postamble_eq_nil hnil] at hpostamble
      exact List.map_eq_nil_iff.mp hpostamble.symm
    rw [← hcut.lines, hslices, htail, List.flatMap_nil, List.append_nil, List.append_nil]
      at hscanned
    rw [← isSome_layerNumber_scan ctx n text, hrises.outside _ hscanned] at hlayer
    exact absurd hlayer (by simp)

/-- How layers are told apart. A line with the form of a layer marker decides for markers,
whether it is read as one or overlooked, but only a line that is read as one gives layers. -/
theorem layer_detection (lines : List String) (lineEnding : LineEnding) :
    (Marker.anyLayer lines = true ↔ ∃ text ∈ lines,
      Marker.isLayer (Command.parse 0 text) = true ∨ Marker.Overlooked (Command.parse 0 text)) ∧
    ((ofLines lines lineEnding).detection = .zHeight ↔ Marker.anyLayer lines = false) ∧
    ((ofLines lines lineEnding).detection = .markers →
      ((ofLines lines lineEnding).layers ≠ [] ↔
        ∃ text ∈ lines, Marker.isLayer (Command.parse 0 text) = true)) := by
  refine ⟨?_, ?_, layers_ne_nil_iff⟩
  · simp only [Marker.anyLayer_eq_true_iff, Marker.formed_iff]
  · rw [detection_ofLines]
    cases Marker.anyLayer lines <;> simp

/-- A marker whose number does not fit is found, but no line is read as a marker: the text has
no layer, and its move in Z opens none either. -/
theorem layer_detection_overflow :
    let lines := ["; layer num/total_layer_count: 9999999999/1", "G1 Z1 E1"]
    Marker.anyLayer lines = true ∧
      (∀ text ∈ lines, Marker.isLayer (Command.parse 0 text) = false) ∧
      (ofLines lines .lf).detection = .markers ∧ (ofLines lines .lf).layers = [] ∧
      (ofLines ["G1 Z1 E1"] .lf).layers ≠ [] := by
  decide +kernel

end Program

end ToolBatching
