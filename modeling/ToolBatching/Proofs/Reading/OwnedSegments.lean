import ToolBatching.Proofs.Reading.PrintMoves

namespace ToolBatching

/-- A segment counts its print moves, and they are made with its tool. -/
structure Segment.Owned (s : Segment) : Prop where
  printMoves : s.printMoves = s.entry.printCount s.commands
  tool : s.entry.PrintsWith s.tool s.commands

namespace Layout

/-- The segments of a layout are owned, the newest one follows the lines, and a tool
change that may lead in to the first layer has no print moves. -/
structure Prints (ctx : Context) (l : Layout) : Prop where
  layers : ∀ layer ∈ l.layers.toList, ∀ s ∈ layer.segments, s.Owned
  current : ∀ d ∈ l.current, ∀ s ∈ d.segments, s.Owned
  newest : ∀ d ∈ l.current, ∀ s ∈ d.segments.head?, s.Follows ctx
  leadIn : l.ending = none → l.current = none → ∀ lead ∈ l.leadIn,
    ∀ c ∈ l.preamble.toList.drop (l.preamble.size - lead.length), ∀ m : Machine,
      m.prints c = false

theorem Prints.warn {ctx : Context} {l : Layout} (h : Prints ctx l) (w : Option Warning) :
    Prints ctx (l.warn w) := by
  rw [warn_eq]
  exact ⟨h.layers, h.current, h.newest, h.leadIn⟩

theorem layers_closeLayer {l : Layout}
    (hlayers : ∀ layer ∈ l.layers.toList, ∀ s ∈ layer.segments, s.Owned)
    (hcurrent : ∀ d ∈ l.current, ∀ s ∈ d.segments, s.Owned) :
    ∀ layer ∈ l.closeLayer.layers.toList, ∀ s ∈ layer.segments, s.Owned := by
  unfold closeLayer
  cases hd : l.current with
  | none => exact hlayers
  | some d =>
      by_cases hempty : d.isEmpty = true
      · simp only [hempty, if_true]
        exact hlayers
      · simp only [hempty, Bool.false_eq_true, if_false, Array.toList_push]
        rw [List.forall_mem_append, List.forall_mem_singleton]
        refine ⟨hlayers, fun s hs => ?_⟩
        obtain ⟨read, hread, hentry, hcommands, htool, hmoves, -⟩ :=
          LayerDraft.exists_of_mem_number _ _ hs
        have howned := hcurrent d hd read (LayerDraft.mem_of_mem_closedSegments hread)
        exact ⟨by rw [hmoves, hentry, hcommands, howned.printMoves],
          by rw [hentry, hcommands, htool]; exact howned.tool⟩

/-- Taking a lead-in back leaves owned segments, and what was taken follows the lines. -/
theorem Prints.takeBack {ctx : Context} {l : Layout} (h : Prints ctx l)
    (hopen : l.ending = none) {lead : Option LeadIn} (hlead : lead = l.leadIn)
    (hstands : ∀ x ∈ lead, l.LeadBehind x) (object : Option String) (before : Machine)
    {result : Layout × List SegmentDraft}
    (hresult : l.takeBack object ((lead.map LeadIn.entry).getD before)
      ((lead.map LeadIn.length).getD 0) = result) :
    (∀ layer ∈ result.1.layers.toList, ∀ s ∈ layer.segments, s.Owned) ∧
      (∀ d ∈ result.1.current, ∀ s ∈ d.segments, s.Owned) ∧
      (∀ s ∈ result.2, s.Owned) ∧ ∀ s ∈ result.2.reverse.head?, s.Follows ctx := by
  subst hresult
  cases lead with
  | none =>
      rw [Option.map_none, Option.getD_none, Option.map_none, Option.getD_none, takeBack_zero]
      exact ⟨h.layers, h.current, by simp, by simp⟩
  | some lead =>
      rw [Option.map_some, Option.getD_some, Option.map_some, Option.getD_some]
      have hbehind := hstands lead rfl
      unfold Layout.takeBack
      cases hcurrent : l.current with
      | some d =>
          simp only [LeadBehind, hcurrent] at hbehind
          obtain ⟨hkept, htaken, hhead⟩ :=
            SegmentDraft.owned_splitTail hbehind object (h.current d hcurrent)
          simp only
          refine ⟨h.layers, ?_, htaken, ?_⟩
          · intro d' hd'
            obtain rfl := Option.some.inj hd'
            exact hkept
          · rw [hhead]
            exact h.newest d hcurrent
      | none =>
          have hquiet := h.leadIn hopen hcurrent lead hlead.symm
          have hdrop : (l.preamble.drop (l.preamble.size - lead.length)).toList =
              l.preamble.toList.drop (l.preamble.size - lead.length) := by
            rw [Array.drop_eq_extract, Array.toList_extract, List.extract_eq_take_drop,
              List.take_of_length_le (by simp)]
          rw [← hdrop] at hquiet
          simp only
          refine ⟨h.layers, by simp, ?_, ?_⟩
          · split
            · simp
            · exact List.forall_mem_singleton.mpr (SegmentDraft.owned_start object _ hquiet)
          · split
            · simp
            · intro s hs
              obtain rfl := Option.some.inj hs
              exact SegmentDraft.follows_start _ _ _ _

theorem Prints.openLayer {ctx : Context} {l : Layout} (h : Prints ctx l)
    (hopen : l.ending = none) (hstands : ∀ lead ∈ l.leadIn, l.LeadBehind lead)
    (line : ScannedLine) (openedZ : Option Float) : Prints ctx (l.openLayer line openedZ) := by
  obtain ⟨w, hintedZ, heq⟩ := l.openLayer_eq line openedZ
  have hwarned : ∀ lead ∈ l.leadIn, (l.warn w).LeadBehind lead := by
    rw [warn_eq]
    exact hstands
  have hlead : l.leadIn = (l.warn w).leadIn := by rw [warn_eq]
  obtain ⟨hlayers, hcurrent, htaken, hnewest⟩ := (h.warn w).takeBack
    ((l.frame_warn w).ending.trans hopen) hlead hwarned line.before.object line.before.machine rfl
  rw [heq]
  simp only
  generalize (l.warn w).takeBack line.before.object
    ((l.leadIn.map LeadIn.entry).getD line.before.machine)
    ((l.leadIn.map LeadIn.length).getD 0) = result at hlayers hcurrent htaken hnewest ⊢
  refine ⟨layers_closeLayer hlayers hcurrent, ?_, ?_, ?_⟩
  · intro d hd
    obtain rfl := Option.some.inj hd
    simp only
    split
    · exact List.forall_mem_singleton.mpr (SegmentDraft.owned_start _ _ (by simp))
    · intro s hs
      exact htaken s (List.mem_reverse.mp hs)
  · intro d hd
    obtain rfl := Option.some.inj hd
    simp only
    split
    · intro s hs
      obtain rfl := Option.some.inj hs
      exact SegmentDraft.follows_start _ _ _ _
    · exact hnewest
  · intro _ hnone
    exact absurd hnone (by simp)

theorem Prints.openAt {ctx : Context} {l : Layout} (h : Prints ctx l)
    (hopen : l.ending = none) (hleads : Leads False l) (line : ScannedLine) : Prints ctx (l.openAt line) := by
  rcases l.openAt_cases line with ⟨w, heq⟩ | ⟨lastNumber, topZ, openedZ, heq, -⟩
  · rw [heq]
    exact h.warn w
  · have hnumbered : Prints ctx { l with lastNumber, topZ } :=
      ⟨h.layers, h.current, h.newest, h.leadIn⟩
    rw [heq]
    exact hnumbered.openLayer hopen hleads.stands line openedZ

theorem prints_eq_false_of_nextLeadIn {l : Layout} {line : ScannedLine} (hline : line.Regular)
    (h : (l.nextLeadIn line).isSome = true) (m : Machine) : m.prints line.command = false := by
  cases htag : line.command.inToolChange with
  | true => exact m.prints_eq_false_of_inToolChange htag
  | false =>
      refine m.prints_eq_false_of_not_movesAxis ?_
      have hopens : line.opens = false := by
        cases hopens : line.opens with
        | false => rfl
        | true => exact absurd (hline.opens hopens) (by simp [htag])
      cases hmoves : line.command.movesAxis with
      | false => rfl
      | true =>
          unfold nextLeadIn at h
          split at h
          · exact absurd h (by simp)
          · simp [hopens, hmoves, htag] at h
          · simp [hopens] at h

theorem Prints.append {seen : List Command} {line : ScannedLine} {l : Layout}
    (h : Prints line.before l) (hsound : Sound seen l) (hopen : l.ending = none)
    (hreads : Reads seen line) (hline : line.Regular) : Prints line.next (l.append line) := by
  cases hcurrent : l.current with
  | none =>
      obtain ⟨pendingZ, heq⟩ := append_of_current_eq_none line hcurrent
      rw [heq]
      refine ⟨h.layers, ?_, ?_, ?_⟩
      · intro d hd
        exact absurd (hcurrent.symm.trans hd) (by simp)
      · intro d hd
        exact absurd (hcurrent.symm.trans hd) (by simp)
      · intro _ _ lead hlead
        have hquiet := prints_eq_false_of_nextLeadIn (l := l) hline
          (Option.isSome_iff_exists.mpr ⟨lead, hlead⟩)
        simp only [Array.size_push, Array.toList_push]
        obtain ⟨-, ⟨last, hlast, rfl⟩ | ⟨-, -, rfl⟩⟩ := nextLeadIn_cases hlead
        · simp only
          rw [Nat.add_sub_add_right, List.drop_append_of_le_length (by simp),
            List.forall_mem_append, List.forall_mem_singleton]
          exact ⟨h.leadIn hopen hcurrent last hlast, hquiet⟩
        · simp only
          rw [Nat.add_sub_cancel, List.drop_append_of_le_length (by simp),
            List.drop_of_length_le (by simp), List.nil_append, List.forall_mem_singleton]
          exact hquiet
  | some d =>
      obtain ⟨-, hstack⟩ := hsound.current d hcurrent
      obtain ⟨next, pendingZ, heq, -, hadds⟩ :=
        append_of_current_eq_some line hcurrent hstack.nonempty
      obtain ⟨howned, hnewest⟩ := hstack.owned_adds hadds hline
        (hreads.before_eq_run hsound hopen hcurrent) (h.current d hcurrent)
        (h.newest d hcurrent)
      rw [heq]
      refine ⟨h.layers, ?_, ?_, ?_⟩
      · intro d' hd'
        obtain rfl := Option.some.inj hd'
        exact howned
      · intro d' hd'
        obtain rfl := Option.some.inj hd'
        exact hnewest
      · intro _ hnone
        exact absurd hnone (by simp)

theorem Prints.place {seen : List Command} {line : ScannedLine} {l : Layout}
    (h : Prints line.before l) (hsound : Sound seen l) (hleads : l.ending = none → Leads False l)
    (hreads : Reads seen line) (hline : line.Regular) : Prints line.next (l.place line) := by
  cases hending : l.ending with
  | some tail =>
      have hnone : l.current = none := hsound.ended (by rw [hending]; simp)
      rw [place_of_ending_eq_some line hending]
      refine ⟨h.layers, ?_, ?_, ?_⟩
      · intro d hd
        exact absurd (hnone.symm.trans hd) (by simp)
      · intro d hd
        exact absurd (hnone.symm.trans hd) (by simp)
      · intro hended
        exact absurd hended (by simp)
  | none =>
      rcases place_of_ending_eq_none line hending with ⟨-, -, heq⟩ | ⟨-, heq⟩
      · obtain ⟨hnone, -, -⟩ := (hsound.closing hending).closeLayer
        rw [heq]
        refine ⟨layers_closeLayer h.layers h.current, ?_, ?_, ?_⟩
        · intro d hd
          exact absurd (hnone.symm.trans hd) (by simp)
        · intro d hd
          exact absurd (hnone.symm.trans hd) (by simp)
        · intro hended
          exact absurd hended (by simp)
      · obtain ⟨hopened, -⟩ :=
          hsound.openAt hending (hleads hending) hreads.before hreads.moves
        have hstill := (l.frame_openAt line).ending.trans hending
        rw [heq]
        exact (h.openAt hending (hleads hending) line).append hopened hstill hreads hline

theorem Prints.read {seen : List Command} {l : Layout} (h : Prints l.context l)
    (hreading : Reading seen l) (text : String) :
    Prints (l.read text).context (l.read text) := by
  have hreads := reads_scan l.context l.line text hreading.machine
  have hline := l.context.regular_scan l.line text
  rw [← l.context.before_scan l.line text] at h
  unfold Layout.read push
  generalize l.context.scan l.line text = line at h hreads hline ⊢
  have hending := (l.frame_warn line.warning).ending
  have hleads : (l.warn line.warning).ending = none → Leads False (l.warn line.warning) := by
    intro hnone
    exact (hreading.leads (hending.symm.trans hnone)).warn _
  have hplaced := (h.warn line.warning).place (hreading.sound.warn _) hleads hreads hline
  exact ⟨hplaced.layers, hplaced.current, hplaced.newest, hplaced.leadIn⟩

theorem Prints.foldl {seen : List Command} {l : Layout} (h : Prints l.context l)
    (hreading : Reading seen l) (lines : List String) :
    Prints (lines.foldl Layout.read l).context (lines.foldl Layout.read l) := by
  induction lines generalizing seen l with
  | nil => exact h
  | cons text lines ih =>
      rw [List.foldl_cons]
      exact ih (h.read hreading text) (hreading.read text)

theorem layers_finish (l : Layout) (lineEnding : LineEnding) :
    (l.finish lineEnding).layers = l.closeLayer.layers.toList := by
  unfold finish
  simp only
  rw [warn_eq]

theorem prints_start (detection : Detection) (ctx : Context) : Prints ctx { detection } where
  layers := by simp
  current := by
    intro d hd
    exact absurd hd (by simp)
  newest := by
    intro d hd
    exact absurd hd (by simp)
  leadIn := by
    intro _ _ lead hlead
    exact absurd hlead (by simp)

end Layout

namespace Program

theorem owned_of_mem_ofLines {lines : List String} {lineEnding : LineEnding} {s : Segment}
    (hs : s ∈ (ofLines lines lineEnding).segments) : s.Owned := by
  obtain ⟨layer, hlayer, hs⟩ := List.mem_flatMap.mp hs
  rw [ofLines, Layout.layers_finish] at hlayer
  have hprints := (Layout.prints_start (if Marker.anyLayer lines then .markers else .zHeight)
    {}).foldl (Layout.reading_start _) lines
  exact Layout.layers_closeLayer hprints.layers hprints.current layer hlayer s hs

theorem owned_of_mem_segments (text : String) {s : Segment}
    (hs : s ∈ (ofText text).segments) : s.Owned :=
  owned_of_mem_ofLines hs

end Program

end ToolBatching
