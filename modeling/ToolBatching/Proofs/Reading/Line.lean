import ToolBatching.Proofs.Reading.Layout

namespace ToolBatching

namespace Layout

/-- What reading uses of a line in its context. -/
structure Reads (seen : List Command) (line : ScannedLine) : Prop where
  before : line.before.machine = Machine.run {} seen
  next : line.next.machine = line.before.machine.step line.command
  prints : line.isPrintMove = true → line.command.fixesTool = true
  moves : line.command.movesZ = true → line.command.fixesTool = true
  opens : line.opens = true → line.command.inToolChange = true ∧ line.boundary ≠ .none

theorem reads_scan (ctx : Context) (n : Nat) (text : String) {seen : List Command}
    (h : ctx.machine = Machine.run {} seen) : Reads seen (ctx.scan n text) where
  before := by
    rw [Context.before_scan]
    exact h
  next := by
    rw [Context.before_scan]
    exact ctx.machine_scan n text
  prints := ctx.fixesTool_of_isPrintMove n text
  moves := ctx.fixesTool_of_movesZ n text
  opens := by
    intro hopens
    refine ⟨ctx.inToolChange_of_opens n text hopens, fun hnone => ?_⟩
    rcases ctx.boundary_of_opens n text hopens with hbefore | hafter
    · exact absurd (hbefore.symm.trans hnone) (by simp)
    · exact absurd (hafter.symm.trans hnone) (by simp)

theorem Reads.before_eq_run {seen : List Command} {line : ScannedLine} (h : Reads seen line)
    {l : Layout} (hsound : Sound seen l) (hopen : l.ending = none) {d : LayerDraft}
    (hcurrent : l.current = some d) :
    line.before.machine = (Machine.run {} l.front).run (SegmentDraft.linesOf d.segments) := by
  rw [h.before, ← hsound.front_append_linesOf hopen hcurrent, Machine.run_append]

theorem nextLeadIn_cases {l : Layout} {line : ScannedLine} {lead : LeadIn}
    (h : lead ∈ l.nextLeadIn line) :
    l.detection = .zHeight ∧
      ((∃ last, l.leadIn = some last ∧ lead = { last with length := last.length + 1 }) ∨
        (l.leadIn = none ∧ line.opens = true ∧ lead = ⟨1, line.before.machine⟩)) := by
  rw [Option.mem_def] at h
  unfold nextLeadIn at h
  split at h
  · exact absurd h (by simp)
  · rename_i last hdetection hlast
    split at h
    · exact absurd h (by simp)
    · exact ⟨hdetection, Or.inl ⟨last, hlast, (Option.some.inj h).symm⟩⟩
  · rename_i hdetection hnone
    split at h
    · rename_i hopens
      exact ⟨hdetection, Or.inr ⟨hnone, hopens, (Option.some.inj h).symm⟩⟩
    · exact absurd h (by simp)

theorem nextLeadIn_eq_none_of_markers (l : Layout) (line : ScannedLine)
    (h : l.detection = .markers) : l.nextLeadIn line = none := by
  unfold nextLeadIn
  rw [h]

theorem Sound.append_preamble {seen : List Command} {l : Layout} (h : Sound seen l)
    (hopen : l.ending = none) (hcurrent : l.current = none) (line : ScannedLine) :
    Sound (seen ++ [line.command]) (l.append line) := by
  obtain ⟨pendingZ, heq⟩ := append_of_current_eq_none line hcurrent
  have hlayers : l.layers = #[] := h.unopened hcurrent hopen
  have hpreamble := h.preamble_eq hopen hcurrent
  rw [heq]
  exact {
    lines := by simp [front, currentLines, endingLines, hopen, hcurrent, hlayers, hpreamble]
    layers := by simp [hlayers, Layer.AllSound]
    current := by
      intro d hd
      exact absurd (hcurrent.symm.trans hd) (by simp)
    unopened := by
      intro _ _
      exact hlayers
    ended := by
      intro _
      exact hcurrent
    ending := by
      intro tail htail
      exact absurd (hopen.symm.trans htail) (by simp) }

theorem Sound.append_layer {seen : List Command} {l : Layout} (h : Sound seen l)
    (hopen : l.ending = none) {d : LayerDraft} (hcurrent : l.current = some d)
    {line : ScannedLine} (hline : Reads seen line) :
    Sound (seen ++ [line.command]) (l.append line) := by
  obtain ⟨hentry, hstack⟩ := h.current d hcurrent
  obtain ⟨next, pendingZ, heq, hnext, hadds⟩ :=
    append_of_current_eq_some line hcurrent hstack.nonempty
  have hlines := h.front_append_linesOf hopen hcurrent
  have hbefore := hline.before_eq_run h hopen hcurrent
  rw [heq]
  exact {
    lines := by
      simp only [currentLines, endingLines, hopen, Option.map_some, Option.getD_some,
        Option.map_none, Option.getD_none, List.append_nil, hadds.linesOf]
      rw [← hlines, ← List.append_assoc]
      rfl
    layers := h.layers
    current := by
      intro d' hd'
      obtain rfl := Option.some.inj hd'
      exact ⟨hnext.trans hentry, hstack.adds hadds hbefore hline.next hline.prints⟩
    unopened := by
      intro hnone
      exact absurd hnone (by simp)
    ended := by
      intro hended
      exact absurd hopen hended
    ending := by
      intro tail htail
      exact absurd (hopen.symm.trans htail) (by simp) }

theorem Sound.append {seen : List Command} {l : Layout} (h : Sound seen l)
    (hopen : l.ending = none) {line : ScannedLine} (hline : Reads seen line) :
    Sound (seen ++ [line.command]) (l.append line) := by
  cases hcurrent : l.current with
  | none => exact h.append_preamble hopen hcurrent line
  | some d => exact h.append_layer hopen hcurrent hline

theorem Leads.append_preamble {fixes : Prop} {seen : List Command} {l : Layout}
    (h : Leads fixes l) (hsound : Sound seen l) (hopen : l.ending = none)
    (hcurrent : l.current = none) {line : ScannedLine} (hline : Reads seen line) :
    Leads False (l.append line) := by
  obtain ⟨pendingZ, heq⟩ := append_of_current_eq_none line hcurrent
  have hpreamble := hsound.preamble_eq hopen hcurrent
  rw [heq]
  exact {
    markers := nextLeadIn_eq_none_of_markers l line
    stands := by
      intro lead hlead
      simp only [LeadBehind, hcurrent, Array.size_push, Array.toList_push]
      obtain ⟨-, ⟨last, hlast, rfl⟩ | ⟨-, -, rfl⟩⟩ := nextLeadIn_cases hlead
      · have hstands := h.stands last hlast
        simp only [LeadBehind, hcurrent] at hstands
        obtain ⟨hle, hentry⟩ := hstands
        simp only
        constructor
        · omega
        · rw [Nat.add_sub_add_right, List.take_append_of_le_length (by simp), hentry]
      · simp only
        constructor
        · omega
        · rw [Nat.add_sub_cancel, List.take_append_of_le_length (by simp),
            List.take_of_length_le (by simp), hpreamble]
          exact hline.before
    alone := by
      intro _ d hd
      exact absurd (hcurrent.symm.trans hd) (by simp) }

theorem Leads.append_layer {seen : List Command} {l : Layout} {line : ScannedLine}
    (h : Leads (line.command.fixesTool = true) l) (hsound : Sound seen l)
    (hopen : l.ending = none) {d : LayerDraft} (hcurrent : l.current = some d)
    (hline : Reads seen line) : Leads False (l.append line) := by
  obtain ⟨-, hstack⟩ := hsound.current d hcurrent
  obtain ⟨next, pendingZ, heq, -, hadds⟩ :=
    append_of_current_eq_some line hcurrent hstack.nonempty
  have hbefore := hline.before_eq_run hsound hopen hcurrent
  rw [heq]
  exact {
    markers := nextLeadIn_eq_none_of_markers l line
    stands := by
      intro lead hlead
      obtain ⟨hdetection, ⟨last, hlast, rfl⟩ | ⟨-, hopens, rfl⟩⟩ := nextLeadIn_cases hlead
      · have hstands := h.stands last hlast
        simp only [LeadBehind, hcurrent] at hstands
        exact hstands.adds hadds
      · obtain ⟨htag, hboundary⟩ := hline.opens hopens
        apply SegmentDraft.endsInLead_of_adds hadds hbefore hboundary htag
        intro s hs
        -- An opener is a member of its sequence, so it cannot be the line that settles.
        rcases h.alone hdetection d hcurrent s hs with hsettled | hfixes
        · exact hsettled
        · simp [Command.fixesTool, htag] at hfixes
    alone := by
      intro hdetection d' hd' s hs
      obtain rfl := Option.some.inj hd'
      rw [hs] at hadds
      exact Or.inl (SegmentDraft.settled_of_adds hadds hstack (h.alone hdetection d hcurrent)) }

theorem Leads.append {seen : List Command} {l : Layout} {line : ScannedLine}
    (h : Leads (line.command.fixesTool = true) l) (hsound : Sound seen l)
    (hopen : l.ending = none) (hline : Reads seen line) : Leads False (l.append line) := by
  cases hcurrent : l.current with
  | none => exact h.append_preamble hsound hopen hcurrent hline
  | some d => exact h.append_layer hsound hopen hcurrent hline

/-- Placing a line in front of the end sequence: it begins the end sequence, or it goes
to a layer or the preamble. -/
theorem Sound.place_open {seen : List Command} {l : Layout} (h : Sound seen l)
    (hopen : l.ending = none) (hleads : Leads False l) {line : ScannedLine}
    (hline : Reads seen line) :
    Sound (seen ++ [line.command]) (l.place line) ∧
      ((l.place line).ending = none → Leads False (l.place line)) := by
  rcases place_of_ending_eq_none line hopen with ⟨-, -, heq⟩ | ⟨-, heq⟩
  · obtain ⟨hnone, hfront, hlayers⟩ := (h.closing hopen).closeLayer
    rw [heq]
    refine ⟨?_, fun hended => absurd hended (by simp)⟩
    exact {
      lines := by
        simp only [currentLines, endingLines, hnone, Option.map_none, Option.getD_none,
          Option.map_some, Option.getD_some, List.append_nil]
        exact congrArg (· ++ [line.command]) hfront
      layers := hlayers
      current := by
        intro d hd
        exact absurd (hnone.symm.trans hd) (by simp)
      unopened := by
        intro _ hended
        exact absurd hended (by simp)
      ended := by
        intro _
        exact hnone
      ending := by
        intro tail htail
        obtain rfl := Option.some.inj htail
        exact hline.before.trans (congrArg _ hfront.symm) }
  · obtain ⟨hopened, hleads⟩ := h.openAt hopen hleads hline.before hline.moves
    have hstill := (l.frame_openAt line).ending.trans hopen
    rw [heq]
    exact ⟨hopened.append hstill hline, fun _ => hleads.append hopened hstill hline⟩

theorem Sound.place_ended {seen : List Command} {l : Layout} (h : Sound seen l)
    {tail : EndSequence} (hending : l.ending = some tail) (line : ScannedLine) :
    Sound (seen ++ [line.command]) (l.place line) ∧ (l.place line).ending ≠ none := by
  have hnone : l.current = none := h.ended (by rw [hending]; simp)
  have hlines := h.lines
  rw [place_of_ending_eq_some line hending]
  refine ⟨?_, by simp⟩
  exact {
    lines := by
      simp only [endingLines, hending, Option.map_some, Option.getD_some] at hlines ⊢
      rw [← hlines, Array.toList_push, ← List.append_assoc]
      rfl
    layers := h.layers
    current := by
      intro d hd
      exact absurd (hnone.symm.trans hd) (by simp)
    unopened := by
      intro _ hended
      exact absurd hended (by simp)
    ended := by
      intro _
      exact hnone
    ending := by
      intro next hnext
      obtain rfl := Option.some.inj hnext
      exact h.ending tail hending }

theorem line_append (l : Layout) (line : ScannedLine) : (l.append line).line = l.line := by
  unfold append
  rcases noteHeight_eq { l with leadIn := l.nextLeadIn line } line with
    ⟨-, pendingZ, hnote⟩ | ⟨d, hintedZ, pendingZ, -, hnote⟩
  · simp only [hnote]
    split <;> rfl
  · simp only [hnote]

theorem line_place (l : Layout) (line : ScannedLine) : (l.place line).line = l.line := by
  cases hending : l.ending with
  | some tail => rw [place_of_ending_eq_some line hending]
  | none =>
      rcases place_of_ending_eq_none line hending with ⟨-, -, heq⟩ | ⟨-, heq⟩
      · rw [heq]
        exact l.frame_closeLayer.line
      · rw [heq]
        exact (line_append _ line).trans (l.frame_openAt line).line

/-- The invariants of reading, with the lines seen so far. -/
structure Reading (seen : List Command) (l : Layout) : Prop where
  sound : Sound seen l
  leads : l.ending = none → Leads False l
  machine : l.context.machine = Machine.run {} seen

theorem reading_start (detection : Detection) : Reading [] { detection } where
  sound := by
    refine ⟨rfl, trivial, ?_, fun _ _ => rfl, fun _ => rfl, ?_⟩
    · intro d hd
      exact absurd hd (by simp)
    · intro tail htail
      exact absurd htail (by simp)
  leads := by
    refine fun _ => ⟨fun _ => rfl, ?_, ?_⟩
    · intro lead hlead
      exact absurd hlead (by simp)
    · intro _ d hd
      exact absurd hd (by simp)
  machine := rfl

theorem Reading.read {seen : List Command} {l : Layout} (h : Reading seen l) (text : String) :
    Reading (seen ++ [(l.context.scan l.line text).command]) (l.read text) := by
  have hline := reads_scan l.context l.line text h.machine
  have hwarned := h.sound.warn (l.context.scan l.line text).warning
  have hending := (l.frame_warn (l.context.scan l.line text).warning).ending
  have hplaced : Sound (seen ++ [(l.context.scan l.line text).command])
        ((l.warn (l.context.scan l.line text).warning).place (l.context.scan l.line text)) ∧
      (((l.warn (l.context.scan l.line text).warning).place
          (l.context.scan l.line text)).ending = none →
        Leads False
          ((l.warn (l.context.scan l.line text).warning).place (l.context.scan l.line text))) := by
    -- Behind the end of the print every line belongs to the end sequence.
    cases hended : l.ending with
    | none => exact hwarned.place_open (hending.trans hended) ((h.leads hended).warn _) hline
    | some tail =>
        obtain ⟨hsound, hstill⟩ :=
          hwarned.place_ended (hending.trans hended) (l.context.scan l.line text)
        exact ⟨hsound, fun hnone => absurd hnone hstill⟩
  unfold Layout.read push
  generalize l.context.scan l.line text = line at hline hplaced ⊢
  obtain ⟨hsound, hleads⟩ := hplaced
  refine ⟨⟨hsound.lines, hsound.layers, hsound.current, hsound.unopened, hsound.ended,
    hsound.ending⟩, fun hnone => ?_, ?_⟩
  · have hkept := hleads hnone
    exact ⟨hkept.markers, hkept.stands, hkept.alone⟩
  · rw [Machine.run_append, ← hline.before]
    exact hline.next

theorem context_read (l : Layout) (text : String) :
    (l.read text).context = (l.context.scan l.line text).next :=
  rfl

theorem line_read (l : Layout) (text : String) : (l.read text).line = l.line + 1 := by
  unfold read push
  generalize l.context.scan l.line text = line
  exact congrArg (· + 1) ((line_place _ line).trans (l.frame_warn line.warning).line)

theorem Reading.foldl {seen : List Command} {l : Layout} (h : Reading seen l)
    (lines : List String) :
    Reading (seen ++ (scanLines l.context l.line lines).map ScannedLine.command)
      (lines.foldl Layout.read l) := by
  induction lines generalizing seen l with
  | nil => simpa [scanLines] using h
  | cons text lines ih =>
      have hrest := ih (h.read text)
      rw [context_read, line_read, List.append_assoc, List.singleton_append] at hrest
      rw [scanLines, List.map_cons, List.foldl_cons]
      exact hrest

end Layout

end ToolBatching
