import ToolBatching.Proofs.Writing.MarkerRoundTrip
import ToolBatching.Proofs.Writing.MoveRoundTrip
import ToolBatching.Proofs.Writing.Nested
import ToolBatching.Proofs.Writing.Output

namespace ToolBatching

/-- A command whose marker does not end the print. -/
def Command.GoesOn (c : Command) : Prop :=
  Marker.ofCommand c ≠ some .endOfPrint

namespace Text

theorem subset_of_contains {part text : List Char} (h : contains part text = true) :
    part ⊆ text := by
  obtain ⟨behind, hbehind, hdropped⟩ := isSome_firstMatch_iff.mp h
  obtain ⟨rest, hrest⟩ := Option.isSome_iff_exists.mp hdropped
  exact List.Subset.trans (Marker.prefix_of_dropLiteral hrest).subset hbehind.subset

theorem eq_underscore_of_toUpper {c : Char} (h : c.toUpper = '_') : c = '_' := by
  unfold Char.toUpper at h
  split at h
  · rename_i hlower
    have hval := congrArg (fun c : Char => c.val.toNat) h
    simp only [UInt32.le_iff_toNat_le] at hlower
    simp at hval hlower
    omega
  · exact h

end Text

namespace Marker

theorem underscore_mem_of_endsPrint {comment : List Char} (h : endsPrint comment = true) :
    '_' ∈ comment := by
  have hunderscore : ∀ t ∈ endTexts, '_' ∈ t.toList := by decide
  obtain ⟨t, ht, hcontains⟩ := List.any_eq_true.mp h
  obtain ⟨c, hc, hupper⟩ :=
    List.mem_map.mp (Text.subset_of_contains hcontains (hunderscore t ht))
  rw [← Text.eq_underscore_of_toUpper hupper]
  exact hc

theorem endsPrint_of_ofComment {comment : List Char} (h : ofComment comment = some .endOfPrint) :
    endsPrint comment = true := by
  unfold ofComment at h
  split at h
  · rename_i number total _
    cases hnumber : readCount number <;> cases htotal : readCount total <;>
      simp [hnumber, htotal] at h
  · split at h
    · exact absurd h (by simp)
    · split at h
      · exact absurd h (by simp)
      · split at h
        · rename_i z _
          cases hz : Number.readPlain z <;> simp [hz] at h
        · split at h
          · assumption
          · exact absurd h (by simp)

end Marker

namespace Command

variable {c : Command}

theorem goesOn_of_comment (h : ∀ comment ∈ c.comment, '_' ∉ comment.toList) : c.GoesOn := by
  intro hends
  unfold Marker.ofCommand at hends
  split at hends
  · rename_i slot _
    cases hslot : Marker.readCount slot <;> simp [hslot] at hends
  · split at hends
    · exact absurd hends (by simp)
    · obtain ⟨comment, hcomment, hends⟩ := Option.bind_eq_some_iff.mp hends
      exact h comment hcomment
        (Marker.underscore_mem_of_endsPrint (Marker.endsPrint_of_ofComment hends))

theorem goesOn_ofText (line : Option Nat) {raw : String} (h : '_' ∉ raw.toList) :
    (ofText line raw).GoesOn :=
  goesOn_of_comment fun _ hcomment hmem => h (mem_of_mem_comment hcomment hmem)

theorem goesOn_tagged_iff {line : Option Nat} {tag : Bool} :
    { c with line, inToolChange := tag }.GoesOn ↔ c.GoesOn := by
  rw [GoesOn, Marker.ofCommand_tagged]
  rfl

end Command

namespace Marker

theorem underscore_notMem_toString (n : Nat) : '_' ∉ (toString n).toList := by
  intro hmem
  rw [toList_toString] at hmem
  exact absurd (Number.isDigit_of_mem_digits hmem) (by decide)

end Marker

theorem underscore_notMem_coordinate (places : Nat) (x : Float) :
    '_' ∉ (coordinate places x).toList := by
  intro hmem
  rcases mem_coordinate hmem with hnumber | hname
  · exact absurd hnumber (by decide)
  · exact absurd hname (by decide)

namespace TemplatePiece

/-- Whether the fixed texts of a template line have no underscore. -/
def isPhrase (line : List TemplatePiece) : Bool :=
  line.all fun
    | text s => !s.toList.contains '_'
    | _ => true

theorem underscore_notMem_render (v : ChangeValues) {piece : TemplatePiece}
    (h : ∀ s, piece = text s → '_' ∉ s.toList) : '_' ∉ (piece.render v).toList := by
  cases piece with
  | text s => exact h s rfl
  | tool => exact Marker.underscore_notMem_toString v.tool
  | source =>
      rw [render_source]
      cases v.source with
      | none => decide
      | some t =>
          rw [Option.elim_some, String.toList_append, List.mem_append, not_or]
          exact ⟨by decide, Marker.underscore_notMem_toString t⟩
  | temperature => exact Marker.underscore_notMem_toString v.temperature
  | lift => exact underscore_notMem_coordinate _ _
  | clearance => exact underscore_notMem_coordinate _ _

theorem underscore_notMem_join {line : List TemplatePiece} (h : isPhrase line = true)
    (v : ChangeValues) : '_' ∉ (String.join (line.map (render v))).toList := by
  unfold isPhrase at h
  induction line with
  | nil => simp
  | cons piece line ih =>
      rw [List.all_cons, Bool.and_eq_true] at h
      rw [List.map_cons, String.join_cons, String.toList_append, List.mem_append, not_or]
      refine ⟨underscore_notMem_render v ?_, ih h.2⟩
      rintro s rfl
      simpa using h.1

/-- The template lines that head and close the purge. -/
def flushes : List (List TemplatePiece) :=
  [[text "; FLUSH_START"], [text "; FLUSH_END"]]

theorem goesOn_parse {line : List TemplatePiece} (h : isPhrase line = true ∨ line ∈ flushes)
    (hplain : isPlain line = true) (v : ChangeValues) (n : Nat) :
    (Command.parse n (String.join (line.map (render v)))).GoesOn := by
  rw [Command.parse_of_isLine n (plain_join hplain v).isLine]
  rcases h with hphrase | hflushes
  · exact Command.goesOn_ofText _ (underscore_notMem_join hphrase v)
  · have hfixed : ∀ line ∈ flushes, ∃ s, line = [text s] ∧
        Marker.ofCommand (Command.ofText none s) = none :=
      List.forall_mem_cons.mpr ⟨⟨_, rfl, by decide +kernel⟩,
        List.forall_mem_singleton.mpr ⟨_, rfl, by decide +kernel⟩⟩
    obtain ⟨s, rfl, hmarker⟩ := hfixed line hflushes
    have hjoined : String.join ([text s].map (render v)) = s := by simp [render]
    rw [hjoined, Command.GoesOn, Marker.ofCommand_ofText, hmarker]
    simp

end TemplatePiece

theorem Flavor.isPhrase_template (f : Flavor) :
    ∀ line ∈ f.template, TemplatePiece.isPhrase line = true ∨ line ∈ TemplatePiece.flushes := by
  cases f <;> decide +kernel

namespace BodyPlan

/-- What is written around the source lines of a body does not end the print. -/
theorem Surrounds.goesOn {p : BodyPlan} {c : Command} (h : p.Surrounds c) : c.GoesOn := by
  cases h with
  | tower tool index =>
      refine Command.goesOn_ofText none ?_
      have hfixed : '_' ∉ "; ".toList ∧ '_' ∉ "prime tower T".toList ∧ '_' ∉ " layer ".toList := by
        decide
      have htext : ("; " ++ s!"prime tower T{tool} layer {index}").toList = "; ".toList ++
          ((("prime tower T".toList ++ (toString tool).toList) ++ " layer ".toList) ++
            (toString index).toList) := by
        simp [toString, String.toList_append]
      rw [htext]
      simp only [List.mem_append, not_or]
      exact ⟨hfixed.1, ⟨⟨⟨hfixed.2.1, Marker.underscore_notMem_toString tool⟩, hfixed.2.2⟩,
        Marker.underscore_notMem_toString index⟩⟩
  | @move m h =>
      refine Command.goesOn_of_comment ?_
      rw [m.comment_build, h]
      simp
  | absolute => exact Command.goesOn_ofText none (by decide)
  | @positioning m _ =>
      refine Command.goesOn_ofText none ?_
      cases m.positioning <;> decide
  | extrusion mode =>
      refine Command.goesOn_ofText none ?_
      cases mode <;> decide
  | extruder e =>
      refine Command.goesOn_ofText none ?_
      rw [String.toList_append, List.mem_append, not_or]
      exact ⟨by decide, underscore_notMem_coordinate _ _⟩
  | block h =>
      obtain ⟨n, tag, line, hline, rfl⟩ := Flavor.exists_of_mem_render h
      rw [Command.goesOn_tagged_iff]
      exact TemplatePiece.goesOn_parse (p.settings.toolChange.flavor.isPhrase_template line hline)
        (p.settings.toolChange.flavor.isPlain_template line hline) _ n

end BodyPlan

namespace Marker

theorem goesOn_layerText (number total : Nat) :
    (Command.commentLine (layerText number total)).GoesOn := by
  have hmarker := ofCommand_layerText_cases number total
  unfold Command.GoesOn
  rcases hmarker with hnone | ⟨k, m, hlayer⟩
  · simp [hnone]
  · simp [hlayer]

theorem goesOn_heightText (z : Float) : (Command.commentLine (heightText z)).GoesOn := by
  have hmarker : ofCommand (Command.commentLine (heightText z)) = none ∨
      ∃ r, ofCommand (Command.commentLine (heightText z)) = some (.zHeight r) :=
    ofCommand_heightText_cases z
  unfold Command.GoesOn
  rcases hmarker with hnone | ⟨r, hheight⟩
  · simp [hnone]
  · simp [hheight]

end Marker

namespace Program

/-- Behind layer markers no line of the layers ends the print. -/
theorem goesOn_of_mem_bodyCommands {text : String} (h : (ofText text).detection = .markers)
    {c : Command} (hc : c ∈ (ofText text).bodyCommands) : c.GoesOn := by
  rw [ofText] at h hc
  generalize (Text.lines text.toList).map String.ofList = lines at h hc
  have hlayer : Marker.anyLayer lines = true := by
    rw [detection_ofLines] at h
    split at h
    · assumption
    · exact absurd h (by simp)
  obtain ⟨front, slices, tail, hcut⟩ := exists_cutBy Rule.markers lines _ (if_pos hlayer)
  obtain ⟨l, hl, hc⟩ := List.mem_flatMap.mp hc
  have hlayers := hcut.cutAt.layers
  have hmem : l.commands ∈ slices.map Slice.commands := by
    rw [← hlayers]
    exact List.mem_map_of_mem hl
  obtain ⟨s, hs, hcommands⟩ := List.mem_map.mp hmem
  have hlead : s.lead = [] := by
    obtain ⟨earlier, later, hslices⟩ := List.append_of_mem hs
    exact hcut.cuts.lead_eq hslices
  rw [← hcommands, Slice.commands, Slice.lines, hlead] at hc
  obtain ⟨line, hline, rfl⟩ := List.mem_map.mp hc
  have hscanned : line ∈ scanLines {} 0 lines := by
    rw [← hcut.lines]
    refine List.mem_append_left _ (List.mem_append_right _ (List.mem_flatMap.mpr ⟨s, hs, ?_⟩))
    rw [Slice.lines, hlead]
    exact hline
  have hmarker : line.marker = Marker.ofCommand line.command := by
    obtain ⟨ctx, n, raw, -, rfl⟩ := exists_of_mem_scanLines hscanned
    exact ctx.marker_scan n raw
  rw [Command.GoesOn, ← hmarker]
  rcases List.mem_cons.mp hline with rfl | hrest
  · obtain ⟨k, hk⟩ := hcut.cuts.exists_key hs
    change s.opener.layerNumber = some k at hk
    intro hends
    rw [ScannedLine.layerNumber, hends] at hk
    exact absurd hk (by simp)
  · exact hcut.cutAt.ends s hs line hrest

end Program

end ToolBatching
