import ToolBatching.Proofs.Reading.OwnedSegments
import ToolBatching.Proofs.Writing.Runs
import ToolBatching.Proofs.Writing.SourceLines

namespace ToolBatching

namespace Machine

theorem tool_eq_none_of_run {m : Machine} {cs : List Command} (h : (m.run cs).tool = none) :
    m.tool = none := by
  rw [tool_run, Option.or_eq_none_iff] at h
  exact h.2

theorem Shows.tool_eq_none {m : Machine} {cs : List Command} (h : m.Shows cs none) :
    m.tool = none := by
  obtain ⟨front, -, htool⟩ := h
  exact tool_eq_none_of_run htool

theorem Shows.eq_none_of_run {m : Machine} {cs : List Command} {tool : Option Tool}
    (h : m.Shows cs tool) (hrun : (m.run cs).tool = none) : tool = none := by
  obtain ⟨front, ⟨back, rfl⟩, rfl⟩ := h
  rw [run_append] at hrun
  exact tool_eq_none_of_run hrun

end Machine

theorem Chained.shown_eq_none {α : Type} {entry : α → Machine} {commands : α → List Command}
    {shown : α → Option Tool} {picked items : List α} (hsub : picked.Sublist items) {m : Machine}
    (hchain : Chained entry commands m items)
    (hshows : ∀ a ∈ picked, (entry a).Shows (commands a) (shown a)) {front : List α} {a : α}
    {back : List α} (hpicked : picked = front ++ a :: back) (hnone : shown a = none) :
    m.tool = none ∧ ∀ b ∈ front, shown b = none := by
  induction hsub generalizing m front with
  | slnil => simp at hpicked
  | @cons picked items first hsub ih =>
      obtain ⟨-, hrest⟩ := hchain
      obtain ⟨htool, hfront⟩ := ih hrest hshows hpicked
      exact ⟨Machine.tool_eq_none_of_run htool, hfront⟩
  | @cons_cons picked items first hsub ih =>
      obtain ⟨hentry, hrest⟩ := hchain
      obtain ⟨hfirst, hshows⟩ := List.forall_mem_cons.mp hshows
      rw [hentry] at hfirst
      cases front with
      | nil =>
          obtain ⟨rfl, -⟩ := List.cons.inj hpicked
          rw [hnone] at hfirst
          exact ⟨hfirst.tool_eq_none, by simp⟩
      | cons b front =>
          obtain ⟨rfl, hbehind⟩ := List.cons.inj hpicked
          obtain ⟨htool, hfront⟩ := ih hrest hshows hbehind
          exact ⟨Machine.tool_eq_none_of_run htool,
            List.forall_mem_cons.mpr ⟨hfirst.eq_none_of_run htool, hfront⟩⟩

theorem split_eq_of_key_eq {α β : Type} {key : α → β} {items front front' back back' : List α}
    {a b : α} (hnodup : (items.map key).Nodup) (h : items = front ++ a :: back)
    (h' : items = front' ++ b :: back') (hkey : key a = key b) : front = front' ∧ a = b := by
  induction items generalizing front front' with
  | nil => simp at h
  | cons first items ih =>
      rw [List.map_cons, List.nodup_cons] at hnodup
      cases front with
      | nil =>
          obtain ⟨rfl, rfl⟩ := List.cons.inj h
          cases front' with
          | nil => exact ⟨rfl, (List.cons.inj h').1⟩
          | cons c front' =>
              obtain ⟨-, rfl⟩ := List.cons.inj h'
              apply absurd _ hnodup.1
              rw [hkey]
              simp
      | cons c front =>
          obtain ⟨rfl, hrest⟩ := List.cons.inj h
          cases front' with
          | nil =>
              obtain ⟨rfl, -⟩ := List.cons.inj h'
              apply absurd _ hnodup.1
              rw [← hkey, hrest]
              simp
          | cons d front' =>
              obtain ⟨rfl, hrest'⟩ := List.cons.inj h'
              obtain ⟨rfl, rfl⟩ := ih hnodup.2 hrest hrest'
              exact ⟨rfl, rfl⟩

theorem Machine.keeps_of_prints {m : Machine} {c : Command} (h : m.prints c = true)
    (hlayer : Marker.isLayer c = false) : Writer.keeps c = true := by
  simp only [prints, Bool.and_eq_true, Bool.not_eq_true'] at h
  rw [Writer.keeps, h.2, hlayer]
  rfl

namespace Writer

theorem Reaches.tool {p : BodyPlan} {start : Machine} {tool : Option Tool} {v : Visit}
    {front : List Command} {c : Command} (h : Reaches p start tool v front c)
    (hscanned : ∀ s ∈ v.segments, s.Scanned) : (start.run front).tool = tool := by
  obtain ⟨w, first, rest, kept, more, hrun, hmachine, htool, hkept, rfl⟩ := h
  have hentered := w.emits_enter p v.layer first ((first :: rest).flatMap Segment.commands)
  have hextends : Extends (fun _ _ => True) w _ := hentered.extends
  have hselects : kept.filterMap Command.tool = [] := by
    have hquiet := (w.enter p v.layer first
      ((first :: rest).flatMap Segment.commands)).emits_kept
        fun s hs => hscanned s (v.mem_segments_of_mem_run hrun hs)
    obtain ⟨added, hbody, -, -, hnone⟩ := hquiet.commands
    rw [(writeAll_spec _ _).1, hkept] at hbody
    obtain rfl := List.append_cancel_left hbody
    rw [List.filterMap_append] at hnone
    exact (List.append_eq_nil_iff.mp hnone).1
  rw [Machine.run_append, ← hextends.machine hmachine, Machine.tool_run, hselects, hentered.tool]
  exact htool

theorem Reaches.exists_segment {p : BodyPlan} {start : Machine} {tool : Option Tool} {v : Visit}
    {front : List Command} {c : Command} (h : Reaches p start tool v front c) :
    ∃ s ∈ v.segments, c ∈ s.commands := by
  obtain ⟨w, first, rest, kept, more, hrun, -, -, hkept, -⟩ := h
  have hmem : c ∈ ((first :: rest).flatMap Segment.commands).filter keeps := by
    rw [hkept]
    simp
  obtain ⟨s, hs, hc⟩ := List.mem_flatMap.mp (List.mem_filter.mp hmem).1
  exact ⟨s, v.mem_segments_of_mem_run hrun hs, hc⟩

end Writer

namespace Program

variable {settings : Settings} {jobs : List Job} {body : Body}

theorem Written.exists_batch {p : Program} (h : p.Written settings jobs body)
    {done left : List Job} {j : Job} (hjobs : jobs = done ++ j :: left) :
    ∃ b ∈ (p.schedule settings).batches, b.tool = j.tool ∧
      b.members.filterMap p.segment? = j.segments := by
  have htools := h.tools
  have hsegments := h.segments
  rw [hjobs, List.map_append, List.map_cons] at htools hsegments
  obtain ⟨front, rest, hbatches, hfront, hrest⟩ := List.map_eq_append_iff.mp htools.symm
  obtain ⟨b, back, rfl, htool, -⟩ := List.map_eq_cons_iff.mp hrest
  rw [hbatches, List.map_append, List.map_cons] at hsegments
  have hlength : (done.map Job.segments).length =
      (front.map fun b => b.members.filterMap p.segment?).length := by
    rw [List.length_map, List.length_map]
    simpa using (congrArg List.length hfront).symm
  obtain ⟨-, hsame⟩ := List.append_inj hsegments hlength
  exact ⟨b, by simp [hbatches], htool, (List.cons.inj hsame).1.symm⟩

theorem Written.activeTool_eq (text : String) (h : (ofText text).Written settings jobs body)
    {done left : List Job} {j : Job} (hjobs : jobs = done ++ j :: left) :
    Writer.activeTool (ofText text).preambleState.tool (done ++ [j]) = j.tool := by
  rw [Writer.activeTool_append_singleton]
  cases htool : j.tool with
  | some t => rfl
  | none =>
      have hread := read_ofText text
      obtain ⟨picked, hsub, hpicked, hshows⟩ := hread.exists_picked
        (Clearance.ofProgram (ofText text) settings.nozzle settings.clearance)
        settings.maxBatchLayers
      have htools := h.tools
      rw [show ((ofText text).schedule settings).batches.map Batch.tool = picked.map Segment.tool
        from hpicked, hjobs, List.map_append, List.map_cons] at htools
      obtain ⟨front, rest, rfl, hfront, hrest⟩ := List.map_eq_append_iff.mp htools.symm
      obtain ⟨a, back, rfl, ha, -⟩ := List.map_eq_cons_iff.mp hrest
      obtain ⟨hstart, hnone⟩ :=
        Chained.shown_eq_none hsub hread.chained hshows rfl (ha.trans htool)
      have hdone : done.filterMap Job.tool = [] := by
        rw [← filterMap_eq_of_map_eq hfront, List.filterMap_eq_nil_iff]
        exact hnone
      rw [Writer.activeTool, hdone, hstart]
      rfl

theorem Written.tool_segment (text : String) (h : (ofText text).Written settings jobs body)
    {done left : List Job} {j : Job} (hjobs : jobs = done ++ j :: left) {s : Segment}
    (hs : s ∈ j.segments) :
    s ∈ (ofText text).segments ∧ (0 < s.printMoves → s.tool = j.tool) := by
  have hread := read_ofText text
  obtain ⟨b, hb, htool, hsegments⟩ := h.exists_batch hjobs
  rw [← hsegments] at hs
  obtain ⟨id, hid, hfound⟩ := List.mem_filterMap.mp hs
  have hwell := hread.wellFormed_of_mem_schedule settings.nozzle settings.clearance
    settings.maxBatchLayers hb
  have hmember : id ∈ (ofText text).segmentIds := by
    have hperm := hread.members_schedule_perm
      (Clearance.ofProgram (ofText text) settings.nozzle settings.clearance)
      settings.maxBatchLayers
    exact hperm.mem_iff.mp (List.mem_flatMap.mpr ⟨b, hb, hid⟩)
  obtain ⟨s', hs', -, hsame⟩ := hread.exists_of_mem_segmentIds hmember
  obtain rfl : s' = s := Option.some.inj (hsame.symm.trans hfound)
  exact ⟨hs', fun hprints => (hwell.tool id hid s' hfound hprints).trans htool⟩

/-- Every print move is made by its own tool: where a line of the layers deposits material
in the text, the body reaches that line with the same tool active, or with none. -/
theorem print_moves_keep_tool (text : String) (settings : Settings) :
    let p := ofText text
    ∃ body, p.synthesize (p.schedule settings) settings = .ok body ∧
      ∀ before c after, p.bodyCommands = before ++ c :: after →
        (p.preambleState.run before).prints c = true →
        (Marker.isLayer c = false → c ∈ body.commands) ∧
        ∀ front d back, body.commands = front ++ d :: back → d.line = c.line →
          d = c ∧ (p.preambleState.run front).tool = (p.preambleState.run before).tool := by
  intro p
  have hread : Read (readCommands text) p := read_ofText text
  obtain ⟨jobs, body, hwritten⟩ := exists_written text settings
  refine ⟨body, hwritten.synthesized, ?_⟩
  intro before c after hbefore hprints
  constructor
  · intro hlayer
    have hc : c ∈ p.bodyCommands := by
      rw [hbefore]
      simp
    apply List.mem_of_mem_filter
    rw [filter_line_of_schedule text settings hwritten.synthesized hc
      (Machine.keeps_of_prints hprints hlayer)]
    exact List.mem_singleton_self c
  intro front d back hbody hline
  have hsource : d.line.isSome = true := by
    rw [hline]
    apply isSome_line_of_mem_bodyCommands text
    rw [hbefore]
    simp
  obtain ⟨done, j, left, hjobs, v, hv, hreaches⟩ := hwritten.reaches front d back hbody hsource
  rw [hwritten.activeTool_eq text hjobs] at hreaches
  have hsegments : ∀ s ∈ v.segments, s ∈ p.segments ∧ (0 < s.printMoves → s.tool = j.tool) := by
    intro s hs
    exact hwritten.tool_segment text hjobs (List.mem_flatMap.mpr ⟨v, hv, hs⟩)
  have htool := hreaches.tool fun s hs => scanned_of_mem_segments text (hsegments s hs).1
  -- The line stands at one place of the layers, so its segment reaches it in the same state.
  obtain ⟨s, hs, hd⟩ := hreaches.exists_segment
  obtain ⟨hmem, hsame⟩ := hsegments s hs
  obtain ⟨own, rest, hcommands⟩ := List.append_of_mem hd
  obtain ⟨reached, hentry, more, htiled⟩ := hread.chained.exists_run hmem
  rw [hcommands, commands_segments] at htiled
  obtain ⟨rfl, rfl⟩ := split_eq_of_key_eq (lines_bodyCommands_nodup text) hbefore
    (show p.bodyCommands = (reached ++ own) ++ d :: (rest ++ more) by rw [← htiled]; simp)
    hline.symm
  rw [Machine.run_append, ← hentry] at hprints ⊢
  have howned := owned_of_mem_segments text hmem
  have hpositive : 0 < s.printMoves := by
    rw [howned.printMoves, hcommands]
    exact Machine.printCount_pos_of_prints hprints
  have hown : s.entry.PrintsWith s.tool (own ++ c :: rest) := hcommands ▸ howned.tool
  exact ⟨rfl, by rw [htool, hown.tool hprints, hsame hpositive]⟩

end Program

end ToolBatching
