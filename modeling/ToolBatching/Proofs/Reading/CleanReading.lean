import ToolBatching.Proofs.Reading.Nesting
import ToolBatching.Proofs.RoundTrip

namespace ToolBatching

namespace Context

theorem command_scan_of_isLine (ctx : Context) (n : Nat) {text : String}
    (h : Text.IsLine text.toList) :
    ∃ tag, (ctx.scan n text).command = { Command.ofText (some n) text with inToolChange := tag } := by
  rw [command_scan, Command.parse_of_isLine n h]
  exact ⟨_, rfl⟩

theorem ofCommand_scan_of_isLine (ctx : Context) (n : Nat) {text : String}
    (h : Text.IsLine text.toList) :
    Marker.ofCommand (ctx.scan n text).command = Marker.ofCommand (Command.ofText none text) := by
  obtain ⟨tag, hcommand⟩ := ctx.command_scan_of_isLine n h
  rw [hcommand]
  exact (Marker.ofCommand_tagged _ (some n) tag).trans (Marker.ofCommand_ofText (some n) text)

theorem layerNumber_scan_of_isLine (ctx : Context) (n : Nat) {text : String}
    (h : Text.IsLine text.toList) : (ctx.scan n text).layerNumber = Marker.numberOf text := by
  rw [ScannedLine.layerNumber, ctx.marker_scan, ctx.ofCommand_scan_of_isLine n h]
  rfl

end Context

namespace Layout

variable {l : Layout} {text : String}

theorem detection_append (l : Layout) (line : ScannedLine) :
    (l.append line).detection = l.detection := by
  cases hcurrent : l.current with
  | none =>
      obtain ⟨pendingZ, heq⟩ := append_of_current_eq_none line hcurrent
      rw [heq]
  | some d =>
      obtain ⟨hintedZ, pendingZ, heq⟩ := l.append_eq_of_current line hcurrent
      rw [heq]

theorem detection_place (l : Layout) (line : ScannedLine) :
    (l.place line).detection = l.detection := by
  cases hending : l.ending with
  | some tail => rw [place_of_ending_eq_some line hending]
  | none =>
      rcases place_of_ending_eq_none line hending with ⟨-, -, heq⟩ | ⟨-, heq⟩
      · rw [heq]
        exact l.frame_closeLayer.detection
      · rw [heq]
        exact (detection_append _ line).trans (l.frame_openAt line).detection

theorem detection_read (l : Layout) (text : String) : (l.read text).detection = l.detection := by
  unfold read push
  generalize l.context.scan l.line text = line
  exact (detection_place _ line).trans (l.frame_warn line.warning).detection

/-- The end sequence has begun, or a layer has been opened in front of it. -/
def Begun (l : Layout) : Prop :=
  l.ending = none → l.started = true

theorem started_append (l : Layout) (line : ScannedLine) :
    (l.append line).started = l.started := by
  cases hcurrent : l.current with
  | none =>
      obtain ⟨pendingZ, heq⟩ := append_of_current_eq_none line hcurrent
      rw [heq]
      rfl
  | some d =>
      obtain ⟨hintedZ, pendingZ, heq⟩ := l.append_eq_of_current line hcurrent
      rw [heq, started, started, hcurrent]
      rfl

theorem started_openLayer (l : Layout) (line : ScannedLine) (openedZ : Option Float) :
    (l.openLayer line openedZ).started = true := by
  obtain ⟨w, hintedZ, heq⟩ := l.openLayer_eq line openedZ
  rw [heq]
  rfl

theorem started_openAt (h : l.started = true) (line : ScannedLine) :
    (l.openAt line).started = true := by
  rcases l.openAt_cases line with ⟨w, heq⟩ | ⟨lastNumber, topZ, openedZ, heq, -⟩
  · rw [heq, warn_eq]
    exact h
  · rw [heq]
    exact started_openLayer _ line openedZ

theorem begun_place {line : ScannedLine}
    (h : l.ending = none → (l.openAt line).started = true) : (l.place line).Begun := by
  intro hopen
  cases hending : l.ending with
  | some tail =>
      rw [place_of_ending_eq_some line hending] at hopen
      exact absurd hopen (by simp)
  | none =>
      rcases place_of_ending_eq_none line hending with ⟨-, -, heq⟩ | ⟨-, heq⟩
      · rw [heq] at hopen
        exact absurd hopen (by simp)
      · rw [heq, started_append]
        exact h hending

theorem begun_read (h : l.Begun) (text : String) : (l.read text).Begun := by
  unfold read push
  generalize l.context.scan l.line text = line
  have hplaced : ((l.warn line.warning).place line).Begun := by
    apply begun_place
    intro hopen
    have hstarted : (l.warn line.warning).started = l.started := by
      rw [warn_eq]
      rfl
    apply started_openAt
    rw [hstarted]
    exact h ((l.frame_warn line.warning).ending.symm.trans hopen)
  exact hplaced

theorem begun_read_of_number {number : Nat} (hdetection : l.detection = .markers)
    (hnumber : number ∈ (l.context.scan l.line text).layerNumber)
    (habove : ∀ previous ∈ l.lastNumber, previous < number) : (l.read text).Begun := by
  unfold read push
  generalize l.context.scan l.line text = line at hnumber
  have hplaced : ((l.warn line.warning).place line).Begun := by
    apply begun_place
    intro _
    have hwarned := (l.frame_warn line.warning).detection.trans hdetection
    have hlast : (l.warn line.warning).lastNumber = l.lastNumber := by rw [warn_eq]
    rcases Rule.openAt_markers _ line hwarned with ⟨-, hbelow⟩ | ⟨k, lastNumber, topZ, -, -, -, heq⟩
    · obtain ⟨previous, hprevious, hnot⟩ := hbelow number hnumber
      rw [hlast] at hprevious
      exact absurd (habove previous hprevious) hnot
    · rw [heq]
      exact started_openLayer _ line none
  exact hplaced

theorem ended_place {line : ScannedLine} (h : l.ending ≠ none) :
    (l.place line).ending ≠ none := by
  obtain ⟨tail, htail⟩ := Option.ne_none_iff_exists'.mp h
  rw [place_of_ending_eq_some line htail]
  simp

theorem ended_read (h : l.ending ≠ none) (text : String) : (l.read text).ending ≠ none := by
  unfold read push
  generalize l.context.scan l.line text = line
  have hwarned : (l.warn line.warning).ending ≠ none := by
    rw [(l.frame_warn line.warning).ending]
    exact h
  exact ended_place hwarned

theorem ended_read_of_begun (h : l.Begun)
    (hmarker : (l.context.scan l.line text).marker = some .endOfPrint) :
    (l.read text).ending ≠ none := by
  cases hending : l.ending with
  | some tail =>
      apply ended_read
      rw [hending]
      simp
  | none =>
      unfold read push
      generalize l.context.scan l.line text = line at hmarker
      have hframe : (l.warn line.warning).ending = none ∧
          (l.warn line.warning).started = true := by
        rw [warn_eq]
        exact ⟨hending, h hending⟩
      have hplaced : ((l.warn line.warning).place line).ending ≠ none := by
        rcases place_of_ending_eq_none line hframe.1 with ⟨-, -, heq⟩ | ⟨hgoes, -⟩
        · simp [heq]
        · exact absurd hmarker (hgoes hframe.2)
      exact hplaced

theorem ending_read_of_ne (hopen : l.ending = none)
    (h : (l.context.scan l.line text).marker ≠ some .endOfPrint) :
    (l.read text).ending = none := by
  unfold read push
  generalize l.context.scan l.line text = line at h ⊢
  have hwarned : (l.warn line.warning).ending = none := (l.frame_warn line.warning).ending.trans hopen
  change ((l.warn line.warning).place line).ending = none
  rcases place_of_ending_eq_none line hwarned with ⟨-, hmarker, -⟩ | ⟨-, heq⟩
  · exact absurd hmarker h
  · rw [heq, ending_append, ((l.warn line.warning).frame_openAt line).ending, hwarned]

/-- No problem has been found up to here, what is open is known, and the numbers of all layers
are below a bound. -/
structure Clean (bound : Nat) (n : Nesting) (l : Layout) : Prop where
  warnings : l.warnings.toList = []
  nesting : l.context.nesting = n
  numbers : ∀ previous ∈ l.lastNumber, previous < bound

variable {bound next : Nat} {n n' : Nesting}

/-- A line that nests is read without a warning where a layer that opens at it is above all
earlier ones and outside objects. -/
theorem Clean.read (h : Clean bound n l) (hline : Text.IsLine text.toList)
    (hstep : n.step (Marker.ofCommand (Command.ofText none text)) = some n') (hle : bound ≤ next)
    (hnumbers : l.ending = none → ∀ number ∈ Marker.numberOf text,
      n.object = false ∧ bound ≤ number ∧ number < next)
    (hopens : l.ending = none → l.detection = .markers ∨ n.object = false) :
    Clean next n' (l.read text) := by
  rw [← l.context.ofCommand_scan_of_isLine l.line hline, ← h.nesting,
    Context.step_scan_iff] at hstep
  rw [← l.context.layerNumber_scan_of_isLine l.line hline] at hnumbers
  obtain ⟨hwarning, hnesting⟩ := hstep
  have hclosed : n.object = false → l.context.object = none := by
    rw [← h.nesting]
    intro hobject
    exact Option.isNone_iff_eq_none.mp (Option.isSome_eq_false_iff.mp hobject)
  obtain ⟨w, hwarnings, hnone, hlast⟩ := l.warnings_read text
  have hbefore := l.context.before_scan l.line text
  have hcontext := l.context_read text
  generalize l.context.scan l.line text = line
    at hwarning hnesting hnumbers hwarnings hnone hlast hbefore hcontext
  have hadmits : l.Admits line := by
    rw [← hbefore] at hclosed
    constructor
    · intro hopen _ number hnumber
      obtain ⟨hobject, hbound, -⟩ := hnumbers hopen number hnumber
      refine ⟨hclosed hobject, ?_⟩
      intro previous hprevious
      exact (h.numbers previous hprevious).trans_le hbound
    · intro hopen hdetection _
      rcases hopens hopen with hmarkers | hobject
      · rw [hmarkers] at hdetection
        exact absurd hdetection (by simp)
      · exact hclosed hobject
  refine ⟨?_, ?_, ?_⟩
  · rw [hwarnings, h.warnings, hwarning, hnone hadmits]
    rfl
  · rw [hcontext, hnesting]
  · intro previous hprevious
    rcases hlast with hlast | ⟨hopen, number, hnumber, hlast⟩
    · rw [hlast] at hprevious
      exact (h.numbers previous hprevious).trans_le hle
    · rw [hlast] at hprevious
      obtain rfl := Option.some.inj hprevious
      exact (hnumbers hopen _ hnumber).2.2

variable {raws : List String}

theorem Clean.foldl_silent (h : Clean bound n l) (hdetection : l.detection = .markers)
    (hlines : ∀ raw ∈ raws, Text.IsLine raw.toList)
    (hsilent : ∀ raw ∈ raws, Marker.numberOf raw = none)
    (hread : n.read (raws.map (Command.ofText none)) = some n') :
    Clean bound n' (raws.foldl Layout.read l) := by
  induction raws generalizing l n with
  | nil =>
      obtain rfl := Option.some.inj hread
      exact h
  | cons raw raws ih =>
      obtain ⟨hline, hlines⟩ := List.forall_mem_cons.mp hlines
      obtain ⟨hnumber, hsilent⟩ := List.forall_mem_cons.mp hsilent
      rw [List.map_cons, Nesting.read_cons] at hread
      obtain ⟨between, hstep, hread⟩ := Option.bind_eq_some_iff.mp hread
      have hnext := h.read hline hstep le_rfl (by simp [hnumber]) fun _ => Or.inl hdetection
      rw [List.foldl_cons]
      exact ih hnext ((l.detection_read raw).trans hdetection) hlines hsilent hread

theorem Clean.foldl_calm (h : Clean bound n l) (hobject : n.object = false)
    (hlines : ∀ raw ∈ raws, Text.IsLine raw.toList)
    (hsilent : ∀ raw ∈ raws, Marker.numberOf raw = none)
    (hcalm : ∀ raw ∈ raws, Nesting.isCalm (Marker.ofCommand (Command.ofText none raw)) = true) :
    Clean bound n (raws.foldl Layout.read l) := by
  refine List.foldlRecOn raws Layout.read h fun l hl raw hraw => ?_
  exact hl.read (hlines raw hraw) (Nesting.step_of_isCalm (hcalm raw hraw) n) le_rfl
    (by simp [hsilent raw hraw]) fun _ => Or.inr hobject

theorem Clean.foldl_ended (h : Clean bound n l) (hended : l.ending ≠ none)
    (hlines : ∀ raw ∈ raws, Text.IsLine raw.toList)
    (hread : n.read (raws.map (Command.ofText none)) = some n') :
    Clean bound n' (raws.foldl Layout.read l) := by
  induction raws generalizing l n with
  | nil =>
      obtain rfl := Option.some.inj hread
      exact h
  | cons raw raws ih =>
      obtain ⟨hline, hlines⟩ := List.forall_mem_cons.mp hlines
      rw [List.map_cons, Nesting.read_cons] at hread
      obtain ⟨between, hstep, hread⟩ := Option.bind_eq_some_iff.mp hread
      have hnext := h.read hline hstep le_rfl (fun hopen => absurd hopen hended)
        fun hopen => absurd hopen hended
      rw [List.foldl_cons]
      exact ih hnext (ended_read hended raw) hlines hread

theorem Clean.foldl_ending (h : Clean bound n l) (hdetection : l.detection = .markers)
    (hbegun : l.Begun) (hlines : ∀ raw ∈ raws, Text.IsLine raw.toList)
    (hending : ∀ raw ∈ raws.head?, Marker.ofCommand (Command.ofText none raw) = some .endOfPrint)
    (hread : n.read (raws.map (Command.ofText none)) = some n') :
    Clean bound n' (raws.foldl Layout.read l) := by
  cases raws with
  | nil =>
      obtain rfl := Option.some.inj hread
      exact h
  | cons raw raws =>
      obtain ⟨hline, hlines⟩ := List.forall_mem_cons.mp hlines
      have hmarker := hending raw rfl
      rw [List.map_cons, Nesting.read_cons, hmarker] at hread
      have hnumber : Marker.numberOf raw = none := by rw [Marker.numberOf, hmarker]
      have hstep : n.step (Marker.ofCommand (Command.ofText none raw)) = some n := by
        rw [hmarker]
        rfl
      have hscanned : (l.context.scan l.line raw).marker = some .endOfPrint := by
        rw [l.context.marker_scan, l.context.ofCommand_scan_of_isLine l.line hline, hmarker]
      have hnext := h.read hline hstep le_rfl (by simp [hnumber]) fun _ => Or.inl hdetection
      rw [List.foldl_cons]
      exact hnext.foldl_ended (ended_read_of_begun hbegun hscanned) hlines hread

theorem detection_foldl (l : Layout) (raws : List String) :
    (raws.foldl Layout.read l).detection = l.detection :=
  List.foldlRecOn (motive := fun next => next.detection = l.detection) raws Layout.read rfl
    fun next hnext raw _ => (next.detection_read raw).trans hnext

theorem begun_foldl (h : l.Begun) (raws : List String) : (raws.foldl Layout.read l).Begun :=
  List.foldlRecOn raws Layout.read h fun _ hnext raw _ => begun_read hnext raw

/-- Lines without layer markers that close what they open. -/
structure Closed (raws : List String) : Prop where
  silent : ∀ raw ∈ raws, Marker.numberOf raw = none
  read : ({} : Nesting).read (raws.map (Command.ofText none)) = some {}

theorem Clean.foldl_closed (h : Clean bound {} l) (hdetection : l.detection = .markers)
    (hlines : ∀ raw ∈ raws, Text.IsLine raw.toList) (hclosed : Closed raws) :
    Clean bound {} (raws.foldl Layout.read l) :=
  h.foldl_silent hdetection hlines hclosed.silent hclosed.read

/-- Layers with numbers in a row. -/
theorem Clean.foldl_pieces {items : List (String × List String)} (h : Clean bound {} l)
    (hdetection : l.detection = .markers)
    (hnumbers : items.map (fun item => Marker.numberOf item.1) =
      (List.range' bound items.length).map some)
    (hlines : ∀ raw ∈ pieces items, Text.IsLine raw.toList)
    (hclosed : ∀ item ∈ items, Closed item.2) :
    Clean (bound + items.length) {} ((pieces items).foldl Layout.read l) ∧
      (items ≠ [] → ((pieces items).foldl Layout.read l).Begun) := by
  induction items generalizing l bound with
  | nil => exact ⟨h, fun hne => absurd rfl hne⟩
  | cons item items ih =>
      obtain ⟨raw, more⟩ := item
      rw [pieces_cons, List.forall_mem_cons, List.forall_mem_append] at hlines
      obtain ⟨hline, hmore, hlines⟩ := hlines
      obtain ⟨hmoreClosed, hclosed⟩ := List.forall_mem_cons.mp hclosed
      rw [List.map_cons, List.length_cons, List.range'_succ, List.map_cons] at hnumbers
      obtain ⟨hnumber, hnumbers⟩ := List.cons.inj hnumbers
      have hstep : ({} : Nesting).step (Marker.ofCommand (Command.ofText none raw)) = some {} := by
        obtain ⟨total, hmarker⟩ := Marker.exists_of_numberOf hnumber
        rw [hmarker]
        rfl
      have hscanned : bound ∈ (l.context.scan l.line raw).layerNumber := by
        rw [l.context.layerNumber_scan_of_isLine l.line hline]
        exact hnumber
      have hopened := h.read hline hstep (Nat.le_succ bound) (by simp [hnumber])
        fun _ => Or.inl hdetection
      have hbegun := begun_read_of_number hdetection hscanned h.numbers
      have hkept := (l.detection_read raw).trans hdetection
      have hblock := hopened.foldl_closed hkept hmore hmoreClosed
      obtain ⟨hrest, -⟩ := ih hblock ((detection_foldl _ more).trans hkept) hnumbers hlines hclosed
      rw [pieces_cons, List.foldl_cons, List.foldl_append, List.length_cons,
        show bound + (items.length + 1) = bound + 1 + items.length by omega]
      exact ⟨hrest, fun _ => begun_foldl (begun_foldl hbegun more) _⟩

theorem Clean.warnings_finish (h : Clean bound n l) (hn : n.sequence = false)
    (lineEnding : LineEnding) : (l.finish lineEnding).warnings = [] := by
  have hsequence : l.context.sequence = none := by
    rw [← h.nesting] at hn
    exact Option.isNone_iff_eq_none.mp (Option.isSome_eq_false_iff.mp hn)
  rw [Program.warnings_finish, h.warnings, hsequence]
  rfl

theorem clean_start (detection : Detection) : Clean 1 {} { detection } :=
  ⟨rfl, rfl, by simp⟩

end Layout

namespace Program

theorem warnings_pieces {items : List (String × List String)} (hne : items ≠ [])
    (hnumbers : items.map (fun item => Marker.numberOf item.1) =
      (List.range' 1 items.length).map some)
    {front closing ending : List String}
    (hlines : ∀ raw ∈ front ++ (pieces items ++ (closing ++ ending)), Text.IsLine raw.toList)
    (hfront : Layout.Closed front) (hitems : ∀ item ∈ items, Layout.Closed item.2)
    (hclosing : Layout.Closed closing)
    (hending : ∀ raw ∈ ending.head?, Marker.ofCommand (Command.ofText none raw) = some .endOfPrint)
    {n : Nesting} (hread : ({} : Nesting).read (ending.map (Command.ofText none)) = some n)
    (hn : n.sequence = false) (lineEnding : LineEnding) :
    (ofLines (front ++ (pieces items ++ (closing ++ ending))) lineEnding).warnings = [] := by
  have hlayer : Marker.anyLayer (front ++ (pieces items ++ (closing ++ ending))) = true := by
    obtain ⟨item, rest, rfl⟩ := List.exists_cons_of_ne_nil hne
    have hmem : item.1 ∈ pieces (item :: rest) := mem_pieces List.mem_cons_self
    have hnumber : Marker.numberOf item.1 = some 1 := (List.cons.inj hnumbers).1
    exact Marker.anyLayer_of_mem (List.mem_append_right front (List.mem_append_left _ hmem))
      List.prefix_rfl hnumber
  rw [List.forall_mem_append, List.forall_mem_append, List.forall_mem_append] at hlines
  obtain ⟨hfrontLines, hitemLines, hclosingLines, hendingLines⟩ := hlines
  have hdetected (raws : List String) :
      (raws.foldl Layout.read { detection := .markers }).detection = .markers :=
    Layout.detection_foldl _ raws
  have hbefore := (Layout.clean_start .markers).foldl_closed rfl hfrontLines hfront
  obtain ⟨hlayers, hbegun⟩ :=
    hbefore.foldl_pieces (hdetected front) hnumbers hitemLines hitems
  rw [← List.foldl_append] at hlayers hbegun
  have hclosed := hlayers.foldl_closed (hdetected _) hclosingLines hclosing
  have hstarted := Layout.begun_foldl (hbegun hne) closing
  rw [← List.foldl_append] at hclosed hstarted
  have hended := hclosed.foldl_ending (hdetected _) hstarted hendingLines hending hread
  rw [← List.foldl_append, List.append_assoc, List.append_assoc] at hended
  rw [ofLines, hlayer]
  exact hended.warnings_finish hn lineEnding

end Program

end ToolBatching
