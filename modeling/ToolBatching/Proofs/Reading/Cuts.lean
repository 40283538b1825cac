import ToolBatching.Proofs.Reading.Opening
import ToolBatching.Proofs.Reading.Slices

/-!
Layers are cut where a rule says. While lines are read, a layout holds the lines in front
of all layers and a slice for each layer; a line either goes on with the newest slice or
opens one, and the lead-in moves from the end of one slice to the front of the next.
-/

namespace ToolBatching

variable {κ : Type} [LT κ]

namespace Rule

/-- A draft holds the lines of a slice. -/
structure Open (R : Rule κ) (s : Slice) (d : LayerDraft) : Prop where
  lines : SegmentDraft.linesOf d.segments = s.commands
  openedZ : d.openedZ = R.height s.opener

/-- A layer is what a slice became. -/
structure Closed (R : Rule κ) (s : Slice) (l : Layer) : Prop where
  commands : l.commands = s.commands
  height : ∀ z ∈ R.height s.opener, l.z = z

theorem Open.closed {R : Rule κ} {s : Slice} {d : LayerDraft} (h : R.Open s d) (index : Nat)
    (below : Option Float) : R.Closed s (d.toLayer index below) where
  commands := (d.commands_toLayer index below).trans h.lines
  height := by
    intro z hz
    have hopened : d.openedZ = some z := h.openedZ.trans hz
    change d.height below = z
    simp [LayerDraft.height, hopened]

end Rule

namespace Layout

/-- How a layout has cut the lines `seen` so far: `front` stands in front of all layers, the
slices `closed` are layers, and the slice `last` is being read. -/
structure Cut (R : Rule κ) (seen front : List ScannedLine) (closed : List Slice)
    (last : Option Slice) (l : Layout) : Prop where
  lines : front ++ (closed ++ last.toList).flatMap Slice.lines = seen
  detection : l.detection = R.detection
  preamble : l.preamble.toList = front.map ScannedLine.command
  layers : List.Forall₂ R.Closed closed l.layers.toList
  current : Option.Rel R.Open last l.current
  unopened : last = none → closed = []
  cuts : R.Cuts front (closed ++ last.toList)
  top : R.top l.lastNumber l.topZ = last.bind fun s => R.key s.opener
  leadIn : l.leadIn.map LeadIn.length = lengthOf (R.lead seen)

theorem lengthOf_getD (lead : List ScannedLine) : (lengthOf lead).getD 0 = lead.length := by
  unfold lengthOf
  split
  · rename_i hnil
    rw [hnil]
    rfl
  · rfl

section Cut

variable {R : Rule κ} {seen front : List ScannedLine} {closed : List Slice} {last : Option Slice}
  {l : Layout}

theorem Cut.warn (h : Cut R seen front closed last l) (w : Option Warning) :
    Cut R seen front closed last (l.warn w) := by
  rw [warn_eq]
  exact ⟨h.lines, h.detection, h.preamble, h.layers, h.current, h.unopened, h.cuts, h.top,
    h.leadIn⟩

theorem Cut.current_eq_none (h : Cut R seen front closed none l) : l.current = none := by
  have hrel := h.current
  cases hd : l.current with
  | none => rfl
  | some d =>
      rw [hd] at hrel
      exact nomatch hrel

theorem Cut.exists_open {s : Slice} (h : Cut R seen front closed (some s) l) :
    ∃ d, l.current = some d ∧ R.Open s d := by
  have hrel := h.current
  cases hd : l.current with
  | none =>
      rw [hd] at hrel
      exact nomatch hrel
  | some d =>
      rw [hd] at hrel
      cases hrel with
      | some hopen => exact ⟨d, rfl, hopen⟩

/-- A line that opens no layer goes on with the slice being read or stays in front. -/
theorem Cut.append (h : Cut R seen front closed last l) {line : ScannedLine}
    (hsegments : ∀ d ∈ l.current, d.segments ≠ [])
    (hopens : line.opens = true → line.command.inToolChange = true)
    (hquiet : ∀ k ∈ R.key line, ∃ t ∈ R.top l.lastNumber l.topZ, ¬ t < k)
    (hend : l.current.isSome = true → line.marker ≠ some .endOfPrint) :
    ∃ front' last', Cut R (seen ++ [line]) front' closed last' (l.append line) := by
  have hlead := R.nextLeadIn h.detection hopens h.leadIn
  have hlines := h.lines
  have hcuts := h.cuts
  have htop := h.top
  cases last with
  | none =>
      obtain rfl := h.unopened rfl
      obtain ⟨pendingZ, heq⟩ := append_of_current_eq_none line h.current_eq_none
      have hnone : R.key line = none := by
        by_contra hkey
        obtain ⟨k, hk⟩ := Option.ne_none_iff_exists'.mp hkey
        obtain ⟨t, ht, -⟩ := hquiet k hk
        rw [htop] at ht
        exact absurd ht (by simp)
      refine ⟨front ++ [line], none, ?_⟩
      rw [heq]
      exact {
        lines := by simpa using hlines
        detection := h.detection
        preamble := by simp [h.preamble]
        layers := h.layers
        current := h.current
        unopened := fun _ => rfl
        cuts := Rule.cuts_nil (by
          rw [List.forall_mem_append, List.forall_mem_singleton]
          exact ⟨hcuts.outside, hnone⟩)
        top := h.top
        leadIn := hlead }
  | some s =>
      obtain ⟨d, hcurrent, hopen⟩ := h.exists_open
      obtain ⟨next, pendingZ, heq, hnext, hopened⟩ :=
        append_open hcurrent (hsegments d hcurrent) line
      refine ⟨front, some { s with rest := s.rest ++ [line] }, ?_⟩
      rw [heq]
      exact {
        lines := by
          rw [← hlines]
          simp [Slice.lines]
        detection := h.detection
        preamble := h.preamble
        layers := h.layers
        current := by
          refine Option.Rel.some ⟨?_, hopened.trans hopen.openedZ⟩
          rw [hnext, hopen.lines]
          simp [Slice.commands, Slice.lines]
        unopened := fun hnone => absurd hnone (by simp)
        cuts := by
          refine hcuts.withRest ?_ ?_
          · intro k hk
            rw [List.forall_mem_append, List.forall_mem_singleton]
            refine ⟨hcuts.quiet s (by simp) k hk, fun j hj => ?_⟩
            obtain ⟨t, ht, hlt⟩ := hquiet j hj
            rw [htop, Option.bind_some, hk] at ht
            obtain rfl := Option.some.inj ht
            exact hlt
          · rw [List.forall_mem_append, List.forall_mem_singleton]
            exact ⟨hcuts.ends s (by simp), hend (by rw [hcurrent]; rfl)⟩
        top := h.top
        leadIn := hlead }

theorem Opened.cut {next : Layout} {lead : List ScannedLine} {line : ScannedLine} {k : κ}
    (h : Opened l (lead.map ScannedLine.command) (R.height line) next)
    (hdetection : l.detection = R.detection)
    (hkey : R.key line = some k) (htop : R.top l.lastNumber l.topZ = some k)
    (hopens : line.opens = true → line.command.inToolChange = true)
    (hlines : front ++ closed.flatMap Slice.lines ++ lead = seen)
    (hpreamble : next.preamble.toList = front.map ScannedLine.command)
    (hlayers : List.Forall₂ R.Closed closed next.layers.toList)
    (hcuts : R.Cuts front (closed ++ [⟨lead, line, []⟩])) :
    Cut R (seen ++ [line]) front closed (some ⟨lead, line, []⟩) (next.append line) := by
  obtain ⟨d, hcurrent, hsegments, hlead, hopened⟩ := h.current
  obtain ⟨d', pendingZ, heq, hnext, hkept⟩ := append_open hcurrent hsegments line
  have hempty : R.lead (seen ++ [line]) = [] :=
    List.suffix_nil.mp (R.lead_behind (by rw [hkey]; rfl) seen [])
  have hnone : R.lead ([] ++ [line]) = [] :=
    List.suffix_nil.mp (R.lead_behind (by rw [hkey]; rfl) [] [])
  have hstart : R.lead [] = [] := List.suffix_nil.mp (R.lead_suffix [])
  have hbegins : next.leadIn.map LeadIn.length = lengthOf (R.lead []) := by
    rw [h.leadIn, hstart]
    rfl
  have hbehind := R.nextLeadIn (h.detection.trans hdetection) hopens hbegins
  rw [heq]
  exact {
    lines := by
      rw [← hlines]
      simp [Slice.lines]
    detection := h.detection.trans hdetection
    preamble := hpreamble
    layers := hlayers
    current := by
      refine Option.Rel.some ⟨?_, hkept.trans hopened⟩
      rw [hnext, hlead]
      simp [Slice.commands, Slice.lines]
    unopened := fun hnone => absurd hnone (by simp)
    cuts := hcuts
    top := by
      simp only [h.tops]
      rw [htop, Option.bind_some, hkey]
    leadIn := by
      rw [hempty, ← hnone]
      exact hbehind }

/-- A line above all openers so far opens a layer, with the lines that lead in to it. -/
theorem Cut.openLayer (h : Cut R seen front closed last l) {line : ScannedLine} {k : κ}
    {lastNumber : Option Nat} {topZ : Option Float} (hkey : R.key line = some k)
    (habove : ∀ t ∈ R.top l.lastNumber l.topZ, t < k) (htop : R.top lastNumber topZ = some k)
    (hopens : line.opens = true → line.command.inToolChange = true) :
    ∃ front' closed' last', Cut R (seen ++ [line]) front' closed' last'
      ((Layout.openLayer { l with lastNumber, topZ } line (R.height line)).append line) := by
  have hlength : (l.leadIn.map LeadIn.length).getD 0 =
      ((R.lead seen).map ScannedLine.command).length := by
    rw [h.leadIn, lengthOf_getD, List.length_map]
  have hlines := h.lines
  have hcuts := h.cuts
  cases last with
  | none =>
      obtain rfl := h.unopened rfl
      obtain rfl : front = seen := by simpa using hlines
      obtain ⟨front', hfront⟩ := R.lead_suffix front
      have hpreamble : l.preamble.toList =
          front'.map ScannedLine.command ++ (R.lead front).map ScannedLine.command := by
        rw [h.preamble, ← List.map_append, hfront]
      obtain ⟨hopened, hkept, hlayers⟩ := openLayer_of_current_eq_none
        (l := { l with lastNumber, topZ }) h.current_eq_none line (R.height line) hpreamble hlength
      refine ⟨front', [], _, hopened.cut h.detection hkey htop hopens (by simpa using hfront)
        hkept (by rw [hlayers]; exact h.layers) ?_⟩
      refine Rule.Cuts.concat (Rule.cuts_nil fun line hline => ?_) hkey (by simp) (by simp [hfront])
      exact hcuts.outside line (hfront ▸ List.mem_append_left _ hline)
  | some s =>
      obtain ⟨d, hcurrent, hopen⟩ := h.exists_open
      obtain ⟨t, ht⟩ := hcuts.exists_key (s := s) (by simp)
      -- The lead-in lies behind the opener of the newest slice, so it is cut off its rest.
      have hseen : (front ++ closed.flatMap Slice.lines ++ s.lead) ++ s.opener :: s.rest = seen := by
        rw [← hlines]
        simp [Slice.lines]
      obtain ⟨rest, hrest⟩ : R.lead seen <:+ s.rest := by
        rw [← hseen]
        exact R.lead_behind (by rw [ht]; rfl) _ _
      have hsplit : SegmentDraft.linesOf d.segments =
          Slice.commands { s with rest } ++ (R.lead seen).map ScannedLine.command := by
        rw [hopen.lines, Slice.commands, Slice.commands, ← List.map_append]
        simp [Slice.lines, ← hrest]
      obtain ⟨hopened, hpreamble, segments, below, hkept, hlayers⟩ := openLayer_of_current_eq_some
        (l := { l with lastNumber, topZ }) hcurrent line (R.height line) hsplit
        (by simp [Slice.commands, Slice.lines]) hlength
      have hclosed : R.Open { s with rest } { d with segments } := ⟨hkept, hopen.openedZ⟩
      have hshort : R.Cuts front (closed ++ [{ s with rest }]) := by
        refine hcuts.withRest (fun k hk line hline => ?_) (fun line hline => ?_)
        · exact hcuts.quiet s (by simp) k hk line (hrest ▸ List.mem_append_left _ hline)
        · exact hcuts.ends s (by simp) line (hrest ▸ List.mem_append_left _ hline)
      have htiled : front ++ (closed ++ [{ s with rest }]).flatMap Slice.lines ++ R.lead seen =
          seen := by
        refine Eq.trans ?_ hseen
        simp [Slice.lines, ← hrest]
      refine ⟨front, closed ++ [{ s with rest }], _, hopened.cut h.detection hkey htop hopens
        htiled (by rw [hpreamble]; exact h.preamble) ?_ ?_⟩
      · rw [hlayers, Array.toList_push]
        exact List.rel_append h.layers (.cons (hclosed.closed _ _) .nil)
      · refine hshort.concat hkey ?_ (by rw [htiled])
        rw [List.getLast?_concat]
        rintro s' hs' t' ht'
        obtain rfl := Option.some.inj hs'
        refine habove t' ?_
        rw [h.top]
        exact ht'

theorem Cut.closeLayer (h : Cut R seen front closed last l) :
    l.closeLayer.preamble = l.preamble ∧ l.closeLayer.detection = l.detection ∧
      List.Forall₂ R.Closed (closed ++ last.toList) l.closeLayer.layers.toList := by
  cases last with
  | none =>
      rw [closeLayer_eq_self h.current_eq_none, Option.toList_none, List.append_nil]
      exact ⟨rfl, rfl, h.layers⟩
  | some s =>
      obtain ⟨d, hcurrent, hopen⟩ := h.exists_open
      have hne : SegmentDraft.linesOf d.segments ≠ [] := by
        rw [hopen.lines]
        simp [Slice.commands, Slice.lines]
      obtain ⟨below, heq⟩ := closeLayer_of_linesOf_ne_nil hcurrent hne
      rw [heq, Array.toList_push]
      exact ⟨rfl, rfl, List.rel_append h.layers (.cons (hopen.closed _ _) .nil)⟩

end Cut

/-- How a layout has cut the lines `seen` so far once the end sequence `behind` has begun. -/
structure Ended (R : Rule κ) (seen front : List ScannedLine) (slices : List Slice)
    (behind : List ScannedLine) (l : Layout) : Prop where
  lines : front ++ slices.flatMap Slice.lines ++ behind = seen
  detection : l.detection = R.detection
  preamble : l.preamble.toList = front.map ScannedLine.command
  layers : List.Forall₂ R.Closed slices l.layers.toList
  cuts : R.Cuts front slices
  sliced : slices ≠ []
  begun : ∀ line ∈ behind.head?, line.marker = some .endOfPrint
  ending : ∃ tail, l.ending = some tail ∧ tail.commands.toList = behind.map ScannedLine.command

/-- The lines so far are cut by a rule, in front of the end sequence or in it. -/
inductive Cutting (R : Rule κ) (seen : List ScannedLine) (l : Layout) : Prop where
  | reading {front : List ScannedLine} {closed : List Slice} {last : Option Slice} :
      l.ending = none → Cut R seen front closed last l → Cutting R seen l
  | ended {front : List ScannedLine} {slices : List Slice} {behind : List ScannedLine} :
      behind ≠ [] → Ended R seen front slices behind l → Cutting R seen l

section Cutting

variable {R : Rule κ} {seen front : List ScannedLine} {l : Layout}

theorem Cut.slices_ne_nil {closed : List Slice} {last : Option Slice}
    (h : Cut R seen front closed last l) (hstarted : l.started = true) :
    closed ++ last.toList ≠ [] := by
  cases last with
  | some s => simp
  | none =>
      obtain rfl := h.unopened rfl
      have hlayers : l.layers = #[] := Array.toList_eq_nil_iff.mp (List.forall₂_nil_left_iff.mp h.layers)
      rw [started, h.current_eq_none, hlayers] at hstarted
      exact absurd hstarted (by simp)

theorem Cut.place {closed : List Slice} {last : Option Slice}
    (h : Cut R seen front closed last l) (hopen : l.ending = none) {line : ScannedLine}
    (hsegments : ∀ d ∈ l.current, d.segments ≠ [])
    (hopens : line.opens = true → line.command.inToolChange = true) :
    Cutting R (seen ++ [line]) (l.place line) := by
  rcases place_of_ending_eq_none line hopen with ⟨hstarted, hmarker, hplace⟩ | ⟨hgoes, hplace⟩
  · obtain ⟨hpreamble, hdetection, hlayers⟩ := h.closeLayer
    rw [hplace]
    have hended : Ended R (seen ++ [line]) front (closed ++ last.toList) [line]
        { l.closeLayer with ending := some ⟨line.before.machine, #[line.command]⟩ } := {
      lines := by rw [h.lines]
      detection := hdetection.trans h.detection
      preamble := (congrArg Array.toList hpreamble).trans h.preamble
      layers := hlayers
      cuts := h.cuts
      sliced := h.slices_ne_nil hstarted
      begun := by
        intro first hfirst
        obtain rfl := Option.some.inj hfirst
        exact hmarker
      ending := ⟨_, rfl, rfl⟩ }
    exact .ended (by simp) hended
  · rw [hplace]
    have hquiet : l.current.isSome = true → line.marker ≠ some .endOfPrint := by
      intro hcurrent
      exact hgoes (by simp [started, hcurrent])
    have hstill : ((l.openAt line).append line).ending = none := by
      rw [ending_append, (l.frame_openAt line).ending, hopen]
    rcases R.openAt l line h.detection with ⟨⟨w, heq⟩, hkey⟩ |
      ⟨k, lastNumber, topZ, hkey, habove, htop, heq⟩
    · rw [heq] at hstill ⊢
      have hwarned := h.warn w
      rw [warn_eq] at hwarned hstill ⊢
      obtain ⟨front', last', hcut⟩ := hwarned.append hsegments hopens hkey hquiet
      exact .reading hstill hcut
    · rw [heq] at hstill ⊢
      obtain ⟨front', closed', last', hcut⟩ := h.openLayer hkey habove htop hopens
      exact .reading hstill hcut

theorem Ended.place {slices : List Slice} {behind : List ScannedLine}
    (h : Ended R seen front slices behind l) (hne : behind ≠ []) (line : ScannedLine) :
    Ended R (seen ++ [line]) front slices (behind ++ [line]) (l.place line) := by
  obtain ⟨tail, hending, hcommands⟩ := h.ending
  rw [place_of_ending_eq_some line hending]
  exact {
    lines := by
      rw [← h.lines]
      simp only [List.append_assoc]
    detection := h.detection
    preamble := h.preamble
    layers := h.layers
    cuts := h.cuts
    sliced := h.sliced
    begun := by
      rw [List.head?_append_of_ne_nil _ hne]
      exact h.begun
    ending := ⟨_, rfl, by simp [hcommands]⟩ }

theorem Cutting.read (h : Cutting R seen l) {commands : List Command} (hreading : Reading commands l)
    (text : String) : Cutting R (seen ++ [l.context.scan l.line text]) (l.read text) := by
  have hopens := l.context.inToolChange_of_opens l.line text
  unfold Layout.read push
  generalize l.context.scan l.line text = line at hopens ⊢
  have hplaced : Cutting R (seen ++ [line]) ((l.warn line.warning).place line) := by
    rw [warn_eq]
    cases h with
    | reading hopen hcut =>
        have hwarned := hcut.warn line.warning
        rw [warn_eq] at hwarned
        refine hwarned.place hopen (fun d hd => ?_) hopens
        exact (hreading.sound.current d hd).2.nonempty
    | ended hne hended =>
        have hwarned : Ended R seen _ _ _ { l with warnings := (l.warn line.warning).warnings } :=
          ⟨hended.lines, hended.detection, hended.preamble, hended.layers, hended.cuts,
            hended.sliced, hended.begun, hended.ending⟩
        exact .ended (by simp) (hwarned.place hne line)
  cases hplaced with
  | reading hopen hcut =>
      exact .reading hopen ⟨hcut.lines, hcut.detection, hcut.preamble, hcut.layers, hcut.current,
        hcut.unopened, hcut.cuts, hcut.top, hcut.leadIn⟩
  | ended hne hended =>
      exact .ended hne ⟨hended.lines, hended.detection, hended.preamble, hended.layers,
        hended.cuts, hended.sliced, hended.begun, hended.ending⟩

theorem Cutting.foldl (h : Cutting R seen l) {commands : List Command}
    (hreading : Reading commands l) (lines : List String) :
    Cutting R (seen ++ scanLines l.context l.line lines) (lines.foldl Layout.read l) := by
  induction lines generalizing seen commands l with
  | nil => simpa [scanLines] using h
  | cons text lines ih =>
      have hrest := ih (h.read hreading text) (hreading.read text)
      rw [context_read, line_read, List.append_assoc, List.singleton_append] at hrest
      rw [scanLines, List.foldl_cons]
      exact hrest

theorem cutting_start (R : Rule κ) : Cutting R [] { detection := R.detection } := by
  have hcut : Cut R [] [] [] none { detection := R.detection } := {
    lines := rfl
    detection := rfl
    preamble := rfl
    layers := .nil
    current := .none
    unopened := fun _ => rfl
    cuts := Rule.cuts_nil (by simp)
    top := R.top_start
    leadIn := by
      rw [List.suffix_nil.mp (R.lead_suffix [])]
      rfl }
  exact .reading rfl hcut

end Cutting

end Layout

namespace Program

/-- A program is cut from scanned lines where a rule says: `front` is its preamble, the slices
are its layers, and the end sequence `tail` begins with the marker that ends the print. -/
structure CutBy (R : Rule κ) (scanned front : List ScannedLine) (slices : List Slice)
    (tail : List ScannedLine) (p : Program) : Prop where
  lines : front ++ slices.flatMap Slice.lines ++ tail = scanned
  detection : p.detection = R.detection
  preamble : p.preamble = front.map ScannedLine.command
  layers : List.Forall₂ R.Closed slices p.layers
  postamble : p.postamble = tail.map ScannedLine.command
  cuts : R.Cuts front slices
  sliced : tail ≠ [] → slices ≠ []
  begun : ∀ line ∈ tail.head?, line.marker = some .endOfPrint

theorem exists_cutBy_finish {R : Rule κ} {scanned : List ScannedLine} {l : Layout}
    (h : Layout.Cutting R scanned l) (hsound : l.ending ≠ none → l.current = none)
    (lineEnding : LineEnding) :
    ∃ front slices tail, CutBy R scanned front slices tail (l.finish lineEnding) := by
  unfold Layout.finish
  simp only
  rw [Layout.warn_eq]
  cases h with
  | @reading front closed last hopen hcut =>
      obtain ⟨hpreamble, hdetection, hlayers⟩ := hcut.closeLayer
      have hstill := l.frame_closeLayer.ending.trans hopen
      exact ⟨front, closed ++ last.toList, [], {
        lines := by rw [hcut.lines, List.append_nil]
        detection := hdetection.trans hcut.detection
        preamble := (congrArg Array.toList hpreamble).trans hcut.preamble
        layers := hlayers
        postamble := by rw [hstill]; rfl
        cuts := hcut.cuts
        sliced := fun hne => absurd rfl hne
        begun := by simp }⟩
  | @ended front slices behind _ hended =>
      obtain ⟨tail, hending, hcommands⟩ := hended.ending
      rw [Layout.closeLayer_eq_self (hsound (by rw [hending]; simp))]
      exact ⟨front, slices, behind, {
        lines := hended.lines
        detection := hended.detection
        preamble := hended.preamble
        layers := hended.layers
        postamble := by rw [hending]; exact hcommands
        cuts := hended.cuts
        sliced := fun _ => hended.sliced
        begun := hended.begun }⟩

theorem exists_cutBy (R : Rule κ) (lines : List String) (lineEnding : LineEnding)
    (h : (if Marker.anyLayer lines then .markers else .zHeight) = R.detection) :
    ∃ front slices tail,
      CutBy R (scanLines {} 0 lines) front slices tail (ofLines lines lineEnding) := by
  have hreading := Layout.reading_start R.detection
  have hcutting := (Layout.cutting_start R).foldl hreading lines
  rw [ofLines, h]
  exact exists_cutBy_finish hcutting (hreading.foldl lines).sound.ended lineEnding

theorem postamble_eq_nil {lines : List String} {lineEnding : LineEnding}
    (h : (ofLines lines lineEnding).layers = []) : (ofLines lines lineEnding).postamble = [] := by
  have hcut {κ : Type} [LT κ] (R : Rule κ)
      (hrule : (if Marker.anyLayer lines then .markers else .zHeight) = R.detection) :
      (ofLines lines lineEnding).postamble = [] := by
    obtain ⟨front, slices, tail, hcut⟩ := exists_cutBy R lines lineEnding hrule
    have hslices := hcut.layers
    rw [h, List.forall₂_nil_right_iff] at hslices
    have htail : tail = [] := by
      by_contra hne
      exact hcut.sliced hne hslices
    rw [hcut.postamble, htail]
    rfl
  cases hlayer : Marker.anyLayer lines with
  | true => exact hcut Rule.markers (if_pos hlayer)
  | false => exact hcut Rule.zHeight (if_neg (by simp [hlayer]))

theorem detection_ofLines (lines : List String) (lineEnding : LineEnding) :
    (ofLines lines lineEnding).detection =
      if Marker.anyLayer lines then .markers else .zHeight := by
  split
  · rename_i hlayer
    obtain ⟨front, slices, tail, hcut⟩ :=
      exists_cutBy Rule.markers lines lineEnding (if_pos hlayer)
    exact hcut.detection
  · rename_i hlayer
    obtain ⟨front, slices, tail, hcut⟩ :=
      exists_cutBy Rule.zHeight lines lineEnding (if_neg hlayer)
    exact hcut.detection

/-- Scanned lines as they stand in a program: its preamble, one slice for each layer, and the
end sequence, which begins with the first marker behind an opener that ends the print. -/
structure CutAt (scanned front : List ScannedLine) (slices : List Slice)
    (tail : List ScannedLine) (p : Program) : Prop where
  lines : front ++ slices.flatMap Slice.lines ++ tail = scanned
  preamble : p.preamble = front.map ScannedLine.command
  layers : p.layers.map Layer.commands = slices.map Slice.commands
  postamble : p.postamble = tail.map ScannedLine.command
  begun : ∀ line ∈ tail.head?, line.marker = some .endOfPrint
  ends : ∀ s ∈ slices, ∀ line ∈ s.rest, line.marker ≠ some .endOfPrint

section CutBy

variable {R : Rule κ} {scanned front tail : List ScannedLine} {slices : List Slice} {p : Program}

theorem map_eq_map_of_forall₂ {α β γ : Type} {related : α → β → Prop} {xs : List α} {ys : List β}
    {f : α → γ} {g : β → γ} (h : List.Forall₂ related xs ys)
    (hrelated : ∀ x y, related x y → g y = f x) : ys.map g = xs.map f := by
  induction h with
  | nil => rfl
  | cons hxy _ ih => rw [List.map_cons, List.map_cons, hrelated _ _ hxy, ih]

theorem CutBy.cutAt (h : CutBy R scanned front slices tail p) :
    CutAt scanned front slices tail p where
  lines := h.lines
  preamble := h.preamble
  layers := map_eq_map_of_forall₂ h.layers fun _ _ hclosed => hclosed.commands
  postamble := h.postamble
  begun := h.begun
  ends := h.cuts.ends

end CutBy

theorem CutBy.heights {scanned front tail : List ScannedLine} {slices : List Slice} {p : Program}
    (h : CutBy Rule.zHeight scanned front slices tail p) :
    p.layers.map Layer.z = (slices.map fun s => s.opener.next.machine.z) ∧
      (p.layers.map Layer.z).Pairwise (· < ·) := by
  have hkey : ∀ s ∈ slices, s.opener.commandedZ = some s.opener.next.machine.z := by
    intro s hs
    obtain ⟨k, hk⟩ := h.cuts.exists_key hs
    exact hk.trans (congrArg some (ScannedLine.commandedZ_eq_some_iff.mp hk).2.symm)
  have hz : p.layers.map Layer.z = slices.map fun s => s.opener.next.machine.z :=
    map_eq_map_of_forall₂ ((List.forall₂_and_left _ _).mpr ⟨hkey, h.layers⟩)
      fun _ _ ⟨hk, hclosed⟩ => hclosed.height _ hk
  obtain ⟨keys, hkeys, hpairwise⟩ := h.cuts.opens
  have hsame : (slices.map fun s => s.opener.next.machine.z) = keys := by
    refine List.map_injective_iff.mpr (Option.some_injective Float) ?_
    rw [← hkeys, List.map_map]
    exact List.map_congr_left fun s hs => (hkey s hs).symm
  rw [hz, hsame]
  exact ⟨rfl, hpairwise⟩

end Program

/-- Slices open at the lines whose key lies above the keys of all earlier openers, and a line
with a key that is not above opens none. -/
structure Rises (key : ScannedLine → Option κ) (front : List ScannedLine) (slices : List Slice) :
    Prop where
  outside : ∀ line ∈ front, key line = none
  leads : ∀ s ∈ slices, ∀ line ∈ s.lead, key line = none
  opens : ∃ keys : List κ, slices.map (fun s => key s.opener) = keys.map some ∧
    keys.Pairwise (· < ·)
  quiet : ∀ s ∈ slices, ∀ k ∈ key s.opener, ∀ line ∈ s.rest, ∀ j ∈ key line, ¬ k < j

theorem Rule.Cuts.rises {R : Rule κ} {front : List ScannedLine} {slices : List Slice}
    (h : R.Cuts front slices) : Rises R.key front slices where
  outside := h.outside
  leads := fun _ hs => h.key_of_mem_lead hs
  opens := h.opens
  quiet := h.quiet

theorem Rule.Cuts.lead_eq {R : Rule κ} {front : List ScannedLine} {slices : List Slice}
    (h : R.Cuts front slices) {earlier later : List Slice} {s : Slice}
    (hslices : slices = earlier ++ s :: later) :
    s.lead = R.lead (front ++ earlier.flatMap Slice.lines ++ s.lead) := by
  have hleads := h.leads
  rw [hslices, leads_append_iff] at hleads
  exact hleads.2.1

theorem isPrintMove_eq_false {ctx : Context} {start : Nat} {lines : List String}
    {line : ScannedLine} (h : line ∈ scanLines ctx start lines)
    (hquiet : line.movesOutside = false) : line.isPrintMove = false := by
  refine forall_scanLines (fun line => line.movesOutside = false → line.isPrintMove = false)
    ctx start lines (fun ctx n text hquiet => ?_) line h hquiet
  rw [ctx.isPrintMove_scan]
  cases htag : (ctx.scan n text).command.inToolChange with
  | true => exact Machine.prints_eq_false_of_inToolChange _ htag
  | false =>
      refine Machine.prints_eq_false_of_not_movesAxis _ ?_
      simpa [ScannedLine.movesOutside, htag] using hquiet

namespace Program

/-- Layers are cut exactly where the format says. With layer markers a layer opens at each
marker in front of the end sequence whose number is above all earlier accepted ones. Without
them it opens at each move to a Z above the heights of all earlier layers; the tool change
in front of that line leads in to it, from its first opener behind the last line that moves
outside sequences on. -/
theorem ofLines_cut (lines : List String) (lineEnding : LineEnding) :
    ((ofLines lines lineEnding).detection = .markers → ∃ front slices tail,
      CutAt (scanLines {} 0 lines) front slices tail (ofLines lines lineEnding) ∧
        Rises ScannedLine.layerNumber front slices ∧ ∀ s ∈ slices, s.lead = []) ∧
    ((ofLines lines lineEnding).detection = .zHeight → ∃ front slices tail,
      CutAt (scanLines {} 0 lines) front slices tail (ofLines lines lineEnding) ∧
        Rises ScannedLine.commandedZ front slices ∧
        (ofLines lines lineEnding).layers.map Layer.z =
          (slices.map fun s => s.opener.next.machine.z) ∧
        ((ofLines lines lineEnding).layers.map Layer.z).Pairwise (· < ·) ∧
        ∀ earlier s later, slices = earlier ++ s :: later →
          s.lead = leadIn (front ++ earlier.flatMap Slice.lines ++ s.lead) ∧
            ∀ line ∈ s.lead, line.movesOutside = false ∧ line.isPrintMove = false) := by
  constructor
  · intro h
    obtain ⟨front, slices, tail, hcut⟩ :=
      exists_cutBy Rule.markers lines lineEnding ((detection_ofLines lines lineEnding).symm.trans h)
    refine ⟨front, slices, tail, hcut.cutAt, hcut.cuts.rises, fun s hs => ?_⟩
    obtain ⟨earlier, later, hslices⟩ := List.append_of_mem hs
    exact hcut.cuts.lead_eq hslices
  · intro h
    obtain ⟨front, slices, tail, hcut⟩ :=
      exists_cutBy Rule.zHeight lines lineEnding ((detection_ofLines lines lineEnding).symm.trans h)
    obtain ⟨hz, hpairwise⟩ := hcut.heights
    refine ⟨front, slices, tail, hcut.cutAt, hcut.cuts.rises, hz, hpairwise, ?_⟩
    intro earlier s later hslices
    have hlead : s.lead = leadIn (front ++ earlier.flatMap Slice.lines ++ s.lead) :=
      hcut.cuts.lead_eq hslices
    refine ⟨hlead, fun line hline => ?_⟩
    have hquiet : line.movesOutside = false := by
      rw [hlead] at hline
      exact movesOutside_of_mem_leadIn hline
    have hmem : line ∈ scanLines {} 0 lines := by
      rw [← hcut.lines, hslices]
      simp [Slice.lines, hline]
    exact ⟨hquiet, isPrintMove_eq_false hmem hquiet⟩

end Program

end ToolBatching
