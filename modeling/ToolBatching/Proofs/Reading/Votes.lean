import Mathlib.Algebra.GroupWithZero.Nat
import ToolBatching.Proofs.Reading.Opening
import ToolBatching.Proofs.Reading.OwnedSegments

namespace ToolBatching

namespace LayerDraft

def votesFor (t : Tool) : List (Tool × Nat) → Nat
  | [] => 0
  | (u, n) :: rest => if u = t then n else votesFor t rest

theorem votesFor_addVote (t u : Tool) (votes : List (Tool × Nat)) :
    votesFor t (addVote u votes) = votesFor t votes + if u = t then 1 else 0 := by
  induction votes with
  | nil => simp [addVote, votesFor]
  | cons vote rest ih =>
      obtain ⟨v, n⟩ := vote
      rw [addVote]
      by_cases hsame : v = u
      · subst hsame
        rw [if_pos rfl, votesFor, votesFor]
        split <;> simp
      · rw [if_neg hsame, votesFor, votesFor, ih]
        by_cases hkey : v = t
        · subst hkey
          rw [if_pos rfl, if_pos rfl, if_neg (Ne.symm hsame), Nat.add_zero]
        · rw [if_neg hkey, if_neg hkey]

theorem keys_addVote (t : Tool) (votes : List (Tool × Nat)) :
    (addVote t votes).map Prod.fst =
      if t ∈ votes.map Prod.fst then votes.map Prod.fst else votes.map Prod.fst ++ [t] := by
  induction votes with
  | nil => simp [addVote]
  | cons vote rest ih =>
      obtain ⟨u, n⟩ := vote
      rw [addVote]
      by_cases hsame : u = t
      · simp [hsame]
      · rw [if_neg hsame, List.map_cons, ih, List.map_cons]
        by_cases hmem : t ∈ rest.map Prod.fst
        · rw [if_pos hmem, if_pos (List.mem_cons_of_mem _ hmem)]
        · rw [if_neg hmem, if_neg (by simpa [Ne.symm hsame] using hmem), List.cons_append]

theorem keys_nodup_addVote (t : Tool) {votes : List (Tool × Nat)}
    (h : (votes.map Prod.fst).Nodup) : ((addVote t votes).map Prod.fst).Nodup := by
  rw [keys_addVote]
  split
  · exact h
  · rename_i hnew
    refine List.nodup_append.mpr ⟨h, by simp, fun u hu v hv => ?_⟩
    obtain rfl := List.mem_singleton.mp hv
    rintro rfl
    exact hnew hu

theorem votesFor_of_mem {votes : List (Tool × Nat)} (h : (votes.map Prod.fst).Nodup)
    {vote : Tool × Nat} (hvote : vote ∈ votes) : votesFor vote.1 votes = vote.2 := by
  induction votes with
  | nil => exact absurd hvote (by simp)
  | cons first rest ih =>
      obtain ⟨u, n⟩ := first
      rw [List.map_cons, List.nodup_cons] at h
      rcases List.mem_cons.mp hvote with rfl | hvote
      · exact if_pos rfl
      · have hkey : vote.1 ∈ rest.map Prod.fst := List.mem_map_of_mem hvote
        have hother : u ≠ vote.1 := by
          rintro rfl
          exact h.1 hkey
        rw [votesFor, if_neg hother, ih h.2 hvote]

theorem votesFor_le {votes : List (Tool × Nat)} {most : Nat} (h : ∀ vote ∈ votes, vote.2 ≤ most)
    (t : Tool) : votesFor t votes ≤ most := by
  induction votes with
  | nil => exact Nat.zero_le most
  | cons first rest ih =>
      obtain ⟨hfirst, hrest⟩ := List.forall_mem_cons.mp h
      rw [votesFor]
      split
      · exact hfirst
      · exact ih hrest

theorem winner_eq_none {votes : List (Tool × Nat)} (h : winner votes = none) : votes = [] := by
  cases votes with
  | nil => rfl
  | cons vote rest =>
      rw [winner] at h
      split at h
      · split at h <;> exact absurd h (by simp)
      · exact absurd h (by simp)

theorem winner_spec {votes : List (Tool × Nat)} {best : Tool × Nat} (h : winner votes = some best) :
    best ∈ votes ∧ ∀ vote ∈ votes, vote.2 ≤ best.2 := by
  induction votes generalizing best with
  | nil => exact absurd h (by simp [winner])
  | cons vote rest ih =>
      rw [winner] at h
      cases hrest : winner rest with
      | none =>
          simp only [hrest] at h
          obtain rfl := Option.some.inj h
          obtain rfl := winner_eq_none hrest
          simp
      | some second =>
          obtain ⟨hmem, hmost⟩ := ih hrest
          simp only [hrest] at h
          split at h
          · rename_i hless
            obtain rfl := Option.some.inj h
            exact ⟨List.mem_cons_of_mem _ hmem,
              List.forall_mem_cons.mpr ⟨Nat.le_of_lt hless, hmost⟩⟩
          · rename_i hleast
            obtain rfl := Option.some.inj h
            refine ⟨List.mem_cons_self, List.forall_mem_cons.mpr ⟨Nat.le_refl _, ?_⟩⟩
            exact fun other hother => Nat.le_trans (hmost other hother) (Nat.not_lt.mp hleast)

theorem winner_most {votes : List (Tool × Nat)} (hkeys : (votes.map Prod.fst).Nodup) {t : Tool}
    (ht : 0 < votesFor t votes) :
    ∃ best, (winner votes).map Prod.fst = some best ∧
      ∀ u, votesFor u votes ≤ votesFor best votes := by
  cases hwinner : winner votes with
  | none =>
      obtain rfl := winner_eq_none hwinner
      exact absurd ht (by simp [votesFor])
  | some best =>
      obtain ⟨hmem, hmost⟩ := winner_spec hwinner
      refine ⟨best.1, rfl, fun u => ?_⟩
      rw [votesFor_of_mem hkeys hmem]
      exact votesFor_le hmost u

end LayerDraft

namespace Machine

open LayerDraft

/-- Votes of the print moves of commands, added to votes so far. -/
def tally (m : Machine) (votes : List (Tool × Nat)) : List Command → List (Tool × Nat)
  | [] => votes
  | c :: rest =>
      let after := m.step c
      after.tally
        (match after.tool with
          | some t => if m.prints c then addVote t votes else votes
          | none => votes) rest

/-- How many print moves among commands one tool makes. -/
def printsBy (m : Machine) (t : Tool) : List Command → Nat
  | [] => 0
  | c :: rest =>
      (if m.prints c = true ∧ m.tool = some t then 1 else 0) + (m.step c).printsBy t rest

theorem tally_append (m : Machine) (votes : List (Tool × Nat)) (cs ds : List Command) :
    m.tally votes (cs ++ ds) = (m.run cs).tally (m.tally votes cs) ds := by
  induction cs generalizing m votes with
  | nil => rfl
  | cons c cs ih => exact ih _ _

theorem tally_of_prints_eq_false (m : Machine) (votes : List (Tool × Nat)) {cs : List Command}
    (h : ∀ c ∈ cs, ∀ m : Machine, m.prints c = false) : m.tally votes cs = votes := by
  induction cs generalizing m with
  | nil => rfl
  | cons c cs ih =>
      obtain ⟨hc, hcs⟩ := List.forall_mem_cons.mp h
      rw [tally]
      simp only [hc m, Bool.false_eq_true, if_false]
      split <;> exact ih _ hcs

theorem keys_nodup_tally (m : Machine) {votes : List (Tool × Nat)} (cs : List Command)
    (h : (votes.map Prod.fst).Nodup) : ((m.tally votes cs).map Prod.fst).Nodup := by
  induction cs generalizing m votes with
  | nil => exact h
  | cons c cs ih =>
      rw [tally]
      refine ih _ ?_
      split
      · split
        · exact keys_nodup_addVote _ h
        · exact h
      · exact h

theorem votesFor_tally (m : Machine) (votes : List (Tool × Nat)) (cs : List Command) (t : Tool) :
    votesFor t (m.tally votes cs) = votesFor t votes + m.printsBy t cs := by
  induction cs generalizing m votes with
  | nil => rfl
  | cons c cs ih =>
      rw [tally, printsBy, ih, ← Nat.add_assoc]
      congr 1
      cases hprints : m.prints c with
      | false =>
          simp only [Bool.false_eq_true, if_false, false_and, Nat.add_zero]
          split <;> rfl
      | true =>
          have htool : (m.step c).tool = m.tool := by
            rw [tool_step, tool_eq_none_of_prints hprints, Option.none_or]
          rw [htool]
          cases m.tool with
          | none => simp
          | some u => simp [votesFor_addVote]

theorem printsBy_append (m : Machine) (t : Tool) (cs ds : List Command) :
    m.printsBy t (cs ++ ds) = m.printsBy t cs + (m.run cs).printsBy t ds := by
  induction cs generalizing m with
  | nil => simp [printsBy]
  | cons c cs ih => rw [List.cons_append, printsBy, printsBy, ih, run_cons, Nat.add_assoc]

theorem PrintsWith.printsBy_eq {m : Machine} {tool : Option Tool} {cs : List Command}
    (h : m.PrintsWith tool cs) (t : Tool) :
    m.printsBy t cs = if tool = some t then m.printCount cs else 0 := by
  induction cs generalizing m with
  | nil => simp [printsBy, printCount]
  | cons c cs ih =>
      obtain ⟨hc, hcs⟩ := h
      rw [printsBy, printCount, ih hcs]
      cases hprints : m.prints c with
      | false => simp
      | true =>
          rw [hc hprints]
          by_cases hown : tool = some t <;> simp [hown]

end Machine

namespace Layer

/-- Print moves of the segments of one tool. -/
def printMovesBy (l : Layer) (t : Tool) : Nat :=
  ((l.segments.filter fun s => decide (s.tool = some t)).map Segment.printMoves).sum

/-- The tool of a layer is the winner of the votes that a replay gives, with other choices only
for a layer without votes. -/
def Elected (l : Layer) : Prop :=
  ∃ fallback, l.tool =
    ((LayerDraft.winner (l.entry.tally [] l.commands)).map Prod.fst).or fallback

theorem sum_printMoves_eq {m : Machine} {segments : List Segment}
    (hchained : Chained Segment.entry Segment.commands m segments)
    (howned : ∀ s ∈ segments, s.Owned) (t : Tool) :
    ((segments.filter fun s => decide (s.tool = some t)).map Segment.printMoves).sum =
      m.printsBy t (segments.flatMap Segment.commands) := by
  induction segments generalizing m with
  | nil => rfl
  | cons s rest ih =>
      obtain ⟨hentry, hrest⟩ := hchained
      obtain ⟨hs, hothers⟩ := List.forall_mem_cons.mp howned
      rw [List.flatMap_cons, Machine.printsBy_append, ← ih hrest hothers, ← hentry,
        hs.tool.printsBy_eq, ← hs.printMoves]
      by_cases hown : s.tool = some t
      · rw [List.filter_cons_of_pos (by simpa using hown), if_pos hown, List.map_cons,
          List.sum_cons]
      · rw [List.filter_cons_of_neg (by simpa using hown), if_neg hown, Nat.zero_add]

end Layer

namespace LayerDraft

theorem votes_append (d : LayerDraft) (line : ScannedLine) :
    (d.append line).votes =
      match line.next.machine.tool with
      | some t => if line.isPrintMove then addVote t d.votes else d.votes
      | none => d.votes := by
  unfold append
  split <;> split <;> rfl

/-- The votes of a layer being read are those that a replay of its lines gives. -/
def Tallied (d : LayerDraft) : Prop :=
  d.votes = d.entry.tally [] (SegmentDraft.linesOf d.segments)

theorem Tallied.append {d : LayerDraft} (h : d.Tallied) (hne : d.segments ≠ [])
    (hintedZ : Option Float) {line : ScannedLine}
    (hbefore : line.before.machine = d.entry.run (SegmentDraft.linesOf d.segments))
    (hline : line.Regular) : Tallied ({ d with hintedZ }.append line) := by
  unfold Tallied at h ⊢
  rw [votes_append, (adds_append { d with hintedZ } line hne).linesOf, entry_append]
  simp only [Machine.tally_append, Machine.tally]
  rw [hline.next, hline.prints, hbefore, h]

theorem Tallied.elected {d : LayerDraft} (h : d.Tallied) (index : Nat) (below : Option Float) :
    (d.toLayer index below).Elected := by
  refine ⟨(((d.toLayer index below).segments.getLast?.bind Segment.tool).or d.entry.tool), ?_⟩
  have hvotes : d.votes =
      (d.toLayer index below).entry.tally [] (d.toLayer index below).commands := by
    rw [commands_toLayer]
    exact h
  rw [← hvotes]
  rfl

end LayerDraft

namespace Layout

/-- Lines that may still be given away: those of the layer being read or, in front of all
layers, those of the preamble. -/
def openLines (l : Layout) : List Command :=
  match l.current with
  | some d => SegmentDraft.linesOf d.segments
  | none => l.preamble.toList

/-- A lead-in at the end of lines, without print moves. -/
def QuietLead (lines : List Command) (lead : LeadIn) : Prop :=
  ∃ front back, lines = front ++ back ∧ back.length = lead.length ∧
    ∀ c ∈ back, ∀ m : Machine, m.prints c = false

/-- The votes of a layout are those of its lines, and a lead-in has none to give away. -/
structure Voted (l : Layout) : Prop where
  layers : ∀ layer ∈ l.layers.toList, layer.Elected
  current : ∀ d ∈ l.current, d.Tallied
  leadIn : l.ending = none → ∀ lead ∈ l.leadIn, QuietLead l.openLines lead

section Voted

variable {l : Layout}

theorem Voted.warn (h : Voted l) (w : Option Warning) : Voted (l.warn w) := by
  rw [warn_eq]
  exact ⟨h.layers, h.current, h.leadIn⟩

theorem elected_closeLayer (hlayers : ∀ layer ∈ l.layers.toList, layer.Elected)
    (hcurrent : ∀ d ∈ l.current, d.Tallied) :
    ∀ layer ∈ l.closeLayer.layers.toList, layer.Elected := by
  unfold closeLayer
  cases hd : l.current with
  | none => exact hlayers
  | some d =>
      by_cases hempty : d.isEmpty = true
      · simp only [hempty, if_true]
        exact hlayers
      · simp only [hempty, Bool.false_eq_true, if_false, Array.toList_push]
        rw [List.forall_mem_append, List.forall_mem_singleton]
        exact ⟨hlayers, (hcurrent d hd).elected _ _⟩

/-- Taking a lead-in back leaves the votes as they are, and what was taken has none. -/
theorem Voted.takeBack (h : Voted l) (hopen : l.ending = none) {lead : Option LeadIn}
    (hlead : lead = l.leadIn) (object : Option String) (before : Machine)
    {result : Layout × List SegmentDraft}
    (hresult : l.takeBack object ((lead.map LeadIn.entry).getD before)
      ((lead.map LeadIn.length).getD 0) = result) :
    (∀ layer ∈ result.1.layers.toList, layer.Elected) ∧ (∀ d ∈ result.1.current, d.Tallied) ∧
      ∀ c ∈ SegmentDraft.linesOf result.2.reverse, ∀ m : Machine, m.prints c = false := by
  subst hresult
  cases lead with
  | none =>
      rw [Option.map_none, Option.getD_none, Option.map_none, Option.getD_none, takeBack_zero]
      exact ⟨h.layers, h.current, by simp⟩
  | some lead =>
      rw [Option.map_some, Option.getD_some, Option.map_some, Option.getD_some]
      obtain ⟨front, back, hlines, hlength, hquiet⟩ := h.leadIn hopen lead hlead.symm
      rw [← hlength]
      cases hcurrent : l.current with
      | none =>
          simp only [openLines, hcurrent] at hlines
          obtain ⟨preamble, hkept, -, htaken⟩ :=
            takeBack_of_current_eq_none hcurrent object lead.entry hlines
          rw [hkept, htaken]
          exact ⟨h.layers, h.current, hquiet⟩
      | some d =>
          simp only [openLines, hcurrent] at hlines
          obtain ⟨segments, hkept, hfront, htaken⟩ :=
            takeBack_of_current_eq_some hcurrent object lead.entry hlines
          rw [hkept, htaken]
          refine ⟨h.layers, ?_, hquiet⟩
          intro kept hkept
          obtain rfl := Option.some.inj hkept
          have htallied := h.current d hcurrent
          unfold LayerDraft.Tallied at htallied ⊢
          rw [hlines, Machine.tally_append, Machine.tally_of_prints_eq_false _ _ hquiet,
            ← hfront] at htallied
          exact htallied

theorem Voted.openLayer (h : Voted l) (hopen : l.ending = none) (line : ScannedLine)
    (openedZ : Option Float) : Voted (l.openLayer line openedZ) := by
  obtain ⟨w, hintedZ, heq⟩ := l.openLayer_eq line openedZ
  have hlead : l.leadIn = (l.warn w).leadIn := by rw [warn_eq]
  obtain ⟨hlayers, hcurrent, hquiet⟩ := (h.warn w).takeBack
    ((l.frame_warn w).ending.trans hopen) hlead line.before.object line.before.machine rfl
  rw [heq]
  simp only
  generalize (l.warn w).takeBack line.before.object
    ((l.leadIn.map LeadIn.entry).getD line.before.machine)
    ((l.leadIn.map LeadIn.length).getD 0) = result at hlayers hcurrent hquiet ⊢
  refine ⟨elected_closeLayer hlayers hcurrent, ?_, fun _ lead hlead => absurd hlead (by simp)⟩
  intro d hd
  obtain rfl := Option.some.inj hd
  unfold LayerDraft.Tallied
  split
  · rfl
  · exact (Machine.tally_of_prints_eq_false _ _ hquiet).symm

theorem Voted.openAt (h : Voted l) (hopen : l.ending = none) (line : ScannedLine) :
    Voted (l.openAt line) := by
  rcases l.openAt_cases line with ⟨w, heq⟩ | ⟨lastNumber, topZ, openedZ, heq, -⟩
  · rw [heq]
    exact h.warn w
  · have hnumbered : Voted { l with lastNumber, topZ } := ⟨h.layers, h.current, h.leadIn⟩
    rw [heq]
    exact hnumbered.openLayer hopen line openedZ

theorem Voted.quietLead (h : Voted l) (hopen : l.ending = none) {line : ScannedLine}
    (hline : line.Regular) {lead : LeadIn} (hlead : lead ∈ l.nextLeadIn line) :
    QuietLead (l.openLines ++ [line.command]) lead := by
  have hquiet := prints_eq_false_of_nextLeadIn (l := l) hline
    (Option.isSome_iff_exists.mpr ⟨lead, hlead⟩)
  obtain ⟨-, ⟨last, hlast, rfl⟩ | ⟨-, -, rfl⟩⟩ := nextLeadIn_cases hlead
  · obtain ⟨front, back, hlines, hlength, hback⟩ := h.leadIn hopen last hlast
    refine ⟨front, back ++ [line.command], by rw [hlines, List.append_assoc], ?_, ?_⟩
    · rw [List.length_append, hlength, List.length_singleton]
    · rw [List.forall_mem_append, List.forall_mem_singleton]
      exact ⟨hback, hquiet⟩
  · exact ⟨l.openLines, [line.command], rfl, rfl, List.forall_mem_singleton.mpr hquiet⟩

theorem Voted.append (h : Voted l) {seen : List Command} (hsound : Sound seen l)
    (hopen : l.ending = none) {line : ScannedLine} (hreads : Reads seen line)
    (hline : line.Regular) : Voted (l.append line) := by
  cases hcurrent : l.current with
  | none =>
      obtain ⟨pendingZ, heq⟩ := append_of_current_eq_none line hcurrent
      rw [heq]
      refine ⟨h.layers, h.current, fun _ lead hlead => ?_⟩
      have hquiet := h.quietLead hopen hline hlead
      simp only [openLines, hcurrent] at hquiet ⊢
      rwa [Array.toList_push]
  | some d =>
      obtain ⟨hentry, hstack⟩ := hsound.current d hcurrent
      have hbefore := hreads.before_eq_run hsound hopen hcurrent
      rw [← hentry] at hbefore
      obtain ⟨hintedZ, pendingZ, heq⟩ := l.append_eq_of_current line hcurrent
      rw [heq]
      refine ⟨h.layers, ?_, fun _ lead hlead => ?_⟩
      · intro next hnext
        obtain rfl := Option.some.inj hnext
        exact (h.current d hcurrent).append hstack.nonempty hintedZ hbefore hline
      · have hquiet := h.quietLead hopen hline hlead
        simp only [openLines, hcurrent] at hquiet ⊢
        rwa [(LayerDraft.adds_append { d with hintedZ } line hstack.nonempty).linesOf]

theorem Voted.place (h : Voted l) {seen : List Command} (hsound : Sound seen l)
    (hleads : l.ending = none → Leads False l) {line : ScannedLine} (hreads : Reads seen line)
    (hline : line.Regular) : Voted (l.place line) := by
  cases hending : l.ending with
  | some tail =>
      rw [place_of_ending_eq_some line hending]
      exact ⟨h.layers, h.current, fun hended => absurd hended (by simp)⟩
  | none =>
      rcases place_of_ending_eq_none line hending with ⟨-, -, heq⟩ | ⟨-, heq⟩
      · obtain ⟨hnone, -, -⟩ := (hsound.closing hending).closeLayer
        rw [heq]
        refine ⟨elected_closeLayer h.layers h.current, ?_, fun hended => absurd hended (by simp)⟩
        intro d hd
        exact absurd (hnone.symm.trans hd) (by simp)
      · obtain ⟨hopened, -⟩ :=
          hsound.openAt hending (hleads hending) hreads.before hreads.moves
        rw [heq]
        exact (h.openAt hending line).append hopened
          ((l.frame_openAt line).ending.trans hending) hreads hline

theorem Voted.read (h : Voted l) {seen : List Command} (hreading : Reading seen l)
    (text : String) : Voted (l.read text) := by
  have hreads := reads_scan l.context l.line text hreading.machine
  have hline := l.context.regular_scan l.line text
  unfold Layout.read push
  generalize l.context.scan l.line text = line at hreads hline ⊢
  have hplaced := (h.warn line.warning).place (hreading.sound.warn _)
    (fun hnone => (hreading.leads ((l.frame_warn line.warning).ending.symm.trans hnone)).warn _)
    hreads hline
  exact ⟨hplaced.layers, hplaced.current, hplaced.leadIn⟩

theorem Voted.foldl (h : Voted l) {seen : List Command} (hreading : Reading seen l)
    (lines : List String) : Voted (lines.foldl Layout.read l) := by
  induction lines generalizing seen l with
  | nil => exact h
  | cons text lines ih =>
      rw [List.foldl_cons]
      exact ih (h.read hreading text) (hreading.read text)

end Voted

end Layout

namespace Program

variable {lines : List String} {lineEnding : LineEnding} {l : Layer}

theorem elected_of_mem_ofLines (hl : l ∈ (ofLines lines lineEnding).layers) : l.Elected := by
  rw [ofLines, Layout.layers_finish] at hl
  have hstart :
      Layout.Voted { detection := if Marker.anyLayer lines then .markers else .zHeight } :=
    ⟨by simp, by simp, by simp⟩
  have hvoted := hstart.foldl (Layout.reading_start _) lines
  exact Layout.elected_closeLayer hvoted.layers hvoted.current l hl

theorem printMovesBy_eq (hl : l ∈ (ofLines lines lineEnding).layers) (t : Tool) :
    l.printMovesBy t = l.entry.printsBy t l.commands := by
  obtain ⟨m, hsound⟩ := (read_ofLines lines lineEnding).layers.of_mem hl
  rw [hsound.entry]
  exact Layer.sum_printMoves_eq hsound.chained
    (fun s hs => owned_of_mem_ofLines (List.mem_flatMap.mpr ⟨l, hl, hs⟩)) t

theorem exists_tool_most (hl : l ∈ (ofLines lines lineEnding).layers) {t : Tool}
    (ht : 0 < l.printMovesBy t) :
    ∃ best, l.tool = some best ∧ ∀ u, l.printMovesBy u ≤ l.printMovesBy best := by
  have hvotes (u : Tool) :
      LayerDraft.votesFor u (l.entry.tally [] l.commands) = l.printMovesBy u := by
    rw [Machine.votesFor_tally, printMovesBy_eq hl]
    exact Nat.zero_add _
  rw [← hvotes] at ht
  obtain ⟨fallback, htool⟩ := elected_of_mem_ofLines hl
  obtain ⟨best, hbest, hmost⟩ :=
    LayerDraft.winner_most (l.entry.keys_nodup_tally l.commands (by simp)) ht
  refine ⟨best, ?_, fun u => ?_⟩
  · rw [htool, hbest]
    rfl
  · rw [← hvotes, ← hvotes]
    exact hmost u

end Program

end ToolBatching
