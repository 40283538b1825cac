import ToolBatching.Proofs.Reading.CleanReading
import ToolBatching.Proofs.Reading.Objects
import ToolBatching.Proofs.Reading.Recognition
import ToolBatching.Proofs.Writing.MoveRoundTrip
import ToolBatching.Proofs.Writing.Output

namespace ToolBatching

/-- A line whose marker is recognized wherever the line stands, and which opens or closes no
tool-change sequence and no object there and does not end the print. -/
structure Command.Neutral (c : Command) : Prop where
  marker : ∀ (ctx : Context) (n : Nat), (ctx.scan n c.raw).marker = Marker.ofCommand c
  next : ∀ (ctx : Context) (n : Nat), (ctx.scan n c.raw).next = ctx
  opens : ∀ (ctx : Context) (n : Nat), (ctx.scan n c.raw).opens = false
  boundary : ∀ (ctx : Context) (n : Nat), (ctx.scan n c.raw).boundary = .none
  warning : ∀ (ctx : Context) (n : Nat), (ctx.scan n c.raw).warning = none
  ending : ∀ l : Layout, l.ending = none → (l.read c.raw).ending = none

namespace Command

variable {text : String}

theorem parse_commentLine (h : Text.Unbroken ("; " ++ text)) (n : Nat) :
    parse n (commentLine text).raw = ofText (some n) ("; " ++ text) :=
  parse_of_isLine n (Text.isLine_of_forall h)

theorem idle_parse_commentLine (h : Text.Unbroken ("; " ++ text)) (n : Nat) :
    (parse n (commentLine text).raw).tool = none ∧
      (parse n (commentLine text).raw).mnemonic = "" := by
  have huntagged : parse n (commentLine text).raw =
      { ofText (some n) ("; " ++ text) with inToolChange := false } := by
    rw [parse_commentLine h]
    simp only [ofText]
  exact idle_of_codeOf_nil huntagged (code_commentText (some n) text)

theorem ofCommand_parse_commentLine (h : Text.Unbroken ("; " ++ text)) (n : Nat) :
    Marker.ofCommand (parse n (commentLine text).raw) = Marker.ofCommand (commentLine text) := by
  rw [parse_commentLine h]
  exact Marker.ofCommand_ofText (some n) _

/-- A comment line whose marker opens and closes nothing is neutral, unless it ends the print. -/
theorem neutral_commentLine (h : Text.Unbroken ("; " ++ text))
    (hcalm : Nesting.isCalm (Marker.ofCommand (commentLine text)) = true)
    (hends : Marker.ofCommand (commentLine text) ≠ some .endOfPrint) :
    (commentLine text).Neutral := by
  have hidle (n : Nat) := idle_parse_commentLine h n
  have hparse (n : Nat) := ofCommand_parse_commentLine h n
  generalize commentLine text = c at hcalm hends hidle hparse ⊢
  have hmarker (ctx : Context) (n : Nat) : (ctx.scan n c.raw).marker = Marker.ofCommand c := by
    rw [← hparse n]
    simp only [Context.scan]
  have hopens (ctx : Context) (n : Nat) : (ctx.scan n c.raw).opens = false := by
    rw [ctx.opens_scan, hparse]
    exact ctx.opensSequence_of_isCalm (hidle n).1 hcalm
  constructor
  · exact hmarker
  · intro ctx n
    rw [ctx.next_scan, (ctx.machine.idle (hidle n)).1, hmarker, ctx.nextSequence_of_isCalm n hcalm,
      ctx.nextObject_of_isCalm hcalm]
  · exact hopens
  · intro ctx n
    rw [ctx.boundary_scan, ← ctx.marker_scan, hopens, hmarker]
    exact ctx.boundaryOf_of_isCalm hcalm
  · intro ctx n
    rw [ctx.warning_scan, hmarker]
    exact ctx.warningOf_of_isCalm n hcalm
  · intro l hopen
    apply Layout.ending_read_of_ne hopen
    rw [hmarker]
    exact hends

end Command

namespace Marker

theorem ofCommand_layerText_cases (number total : Nat) :
    ofCommand (.commentLine (layerText number total)) = none ∨
      ∃ k m, ofCommand (.commentLine (layerText number total)) = some (.layer k m) := by
  have hcomment : ofCommand (.commentLine (layerText number total)) =
      ofComment (layerText number total).toList :=
    ofCommand_commentText none (trim_layerText number total)
  have hdigits := Text.firstMatch_of_front (layerDigits_layerText number total)
  rw [hcomment, ofComment_of_layerDigits hdigits]
  cases readCount (Number.digits number) with
  | none => exact Or.inl rfl
  | some k =>
      cases readCount (Number.digits total) with
      | none => exact Or.inl rfl
      | some m => exact Or.inr ⟨k, m, rfl⟩

theorem neutral_layerText (number total : Nat) :
    (Command.commentLine (layerText number total)).Neutral := by
  have hunbroken := Text.unbroken_layerText number total
  rcases ofCommand_layerText_cases number total with hnone | ⟨k, m, hlayer⟩
  · exact Command.neutral_commentLine hunbroken (hnone ▸ rfl) (by simp [hnone])
  · exact Command.neutral_commentLine hunbroken (hlayer ▸ rfl) (by simp [hlayer])

theorem neutral_heightText (z : Float) : (Command.commentLine (heightText z)).Neutral := by
  have hunbroken := Text.unbroken_heightText z
  have hcases : ofCommand (.commentLine (heightText z)) = none ∨
      ∃ r, ofCommand (.commentLine (heightText z)) = some (.zHeight r) :=
    ofCommand_heightText_cases z
  rcases hcases with hnone | ⟨r, hheight⟩
  · exact Command.neutral_commentLine hunbroken (hnone ▸ rfl) (by simp [hnone])
  · exact Command.neutral_commentLine hunbroken (hheight ▸ rfl) (by simp [hheight])

/-- The lines that head a visit are recognized as what they are written for. A layer marker tells
its number and the total, as far as both fit into 32 bits, and a finite height is the number that
its text denotes, the float nearest to a whole number of thousandths. Neither line opens or closes
a sequence or an object, and neither ends the print. -/
theorem marker_lines_recognized :
    (∀ number total : Nat, number < 2 ^ 32 → total < 2 ^ 32 →
      ofCommand (.commentLine (layerText number total)) = some (.layer number total)) ∧
    (∀ z : Float, z.isFinite = true →
      ∃ r n, Number.Written axisPlaces z r n ∧
        ofCommand (.commentLine (heightText z)) = some (.zHeight r)) ∧
    (∀ number total : Nat, (Command.commentLine (layerText number total)).Neutral) ∧
    ∀ z : Float, (Command.commentLine (heightText z)).Neutral := by
  refine ⟨fun number total hnumber htotal => ?_, fun z hz => ?_, neutral_layerText,
    neutral_heightText⟩
  · exact ofCommand_layerText none hnumber htotal
  · obtain ⟨r, n, hwritten⟩ := @Number.exists_written axisPlaces (by decide) z hz
    exact ⟨r, n, hwritten, ofCommand_heightText none hz hwritten.read⟩

/-- The largest total, and a negative height that is rounded. -/
theorem marker_lines_recognized_negative_height :
    (7 < 2 ^ 32 ∧ 4294967295 < 2 ^ 32 ∧ (-1.2345 : Float).isFinite = true) ∧
      layerText 7 4294967295 = "layer num/total_layer_count: 7/4294967295" ∧
      ofCommand (.commentLine (layerText 7 4294967295)) = some (.layer 7 4294967295) ∧
      heightText (-1.2345) = "Z_HEIGHT: -1.234" ∧
      (∃ r n, Number.Written axisPlaces (-1.2345) r n ∧
        ofCommand (.commentLine (heightText (-1.2345))) = some (.zHeight r)) ∧
      (Command.commentLine (heightText (-1.2345))).Neutral := by
  have hfits : 7 < 2 ^ 32 ∧ 4294967295 < 2 ^ 32 := by decide
  have hfinite : (-1.2345 : Float).isFinite = true := by decide +kernel
  obtain ⟨hlayer, hheight, -, hneutral⟩ := marker_lines_recognized
  exact ⟨⟨hfits.1, hfits.2, hfinite⟩, by decide +kernel, hlayer 7 4294967295 hfits.1 hfits.2,
    by decide +kernel, hheight (-1.2345) hfinite, hneutral (-1.2345)⟩

end Marker

end ToolBatching
