import ToolBatching.Proofs.Reading.Program
import ToolBatching.Schedule.PrintUnit

namespace ToolBatching

namespace PrintUnit

/-- A unit of the anchor with silent segments of its layer in front of it and behind it. -/
structure Spans (lead : List Segment) (a : Segment) (tail : List Segment)
    (u : PrintUnit) : Prop where
  anchor : u.anchor = a.id
  tool : u.tool = a.tool
  members : u.members = (lead ++ a :: tail).map Segment.id
  silent : ∀ s ∈ lead ++ tail, s.printMoves = 0
  layer : ∀ s ∈ lead ++ tail, s.id.layer = a.id.layer

/-- Units in a row that span segments in a row. All anchors have a property. -/
inductive Cover (stands : Segment → Prop) : List Segment → List PrintUnit → Prop where
  | nil : Cover stands [] []
  | cons {lead : List Segment} {anchor : Segment} {tail rest : List Segment} {u : PrintUnit}
      {units : List PrintUnit} : u.Spans lead anchor tail → stands anchor →
        Cover stands rest units → Cover stands (lead ++ anchor :: tail ++ rest) (u :: units)

theorem Spans.layer_of_mem {lead tail : List Segment} {a : Segment} {u : PrintUnit}
    (h : u.Spans lead a tail) {id : SegmentId} (hid : id ∈ u.members) :
    id.layer = u.anchor.layer := by
  rw [h.members] at hid
  obtain ⟨s, hs, rfl⟩ := List.mem_map.mp hid
  rw [h.anchor]
  rcases List.mem_append.mp hs with hs | hs
  · exact h.layer s (List.mem_append_left tail hs)
  · rcases List.mem_cons.mp hs with rfl | hs
    · rfl
    · exact h.layer s (List.mem_append_right lead hs)

theorem Spans.eq_anchor {lead tail : List Segment} {a : Segment} {u : PrintUnit}
    (h : u.Spans lead a tail) {s : Segment} (hs : s ∈ lead ++ a :: tail)
    (hprints : 0 < s.printMoves) : s = a := by
  rcases List.mem_append.mp hs with hs | hs
  · have := h.silent s (List.mem_append_left tail hs)
    omega
  · rcases List.mem_cons.mp hs with rfl | hs
    · rfl
    · have := h.silent s (List.mem_append_right lead hs)
      omega

variable {stands : Segment → Prop}

theorem Cover.append {xs ys : List Segment} {us vs : List PrintUnit} (h : Cover stands xs us)
    (hys : Cover stands ys vs) : Cover stands (xs ++ ys) (us ++ vs) := by
  induction h with
  | nil => exact hys
  | cons hspans hstands _ ih =>
      rw [List.append_assoc]
      exact .cons hspans hstands ih

theorem Cover.members {segments : List Segment} {units : List PrintUnit}
    (h : Cover stands segments units) :
    units.flatMap PrintUnit.members = segments.map Segment.id := by
  induction h with
  | nil => rfl
  | cons hspans _ _ ih => rw [List.flatMap_cons, ih, hspans.members, ← List.map_append]

theorem Cover.exists_spans {segments : List Segment} {units : List PrintUnit}
    (h : Cover stands segments units) {u : PrintUnit} (hu : u ∈ units) :
    ∃ lead anchor tail, u.Spans lead anchor tail ∧ stands anchor ∧
      ∀ s ∈ lead ++ anchor :: tail, s ∈ segments := by
  induction h with
  | nil => exact absurd hu (by simp)
  | @cons lead anchor tail rest u' units hspans hstands _ ih =>
      rcases List.mem_cons.mp hu with rfl | hu
      · exact ⟨lead, anchor, tail, hspans, hstands, fun s hs => List.mem_append_left rest hs⟩
      · obtain ⟨lead', anchor', tail', hspans', hstands', hmem⟩ := ih hu
        exact ⟨lead', anchor', tail', hspans', hstands',
          fun s hs => List.mem_append_right _ (hmem s hs)⟩

theorem Cover.anchors {segments : List Segment} {units : List PrintUnit}
    (h : Cover stands segments units) :
    ∃ picked : List Segment, picked.Sublist segments ∧ units.map PrintUnit.anchor =
      picked.map Segment.id ∧ units.map PrintUnit.tool = picked.map Segment.tool ∧
      ∀ a ∈ picked, stands a := by
  induction h with
  | nil => exact ⟨[], List.Sublist.slnil, rfl, rfl, by simp⟩
  | @cons lead anchor tail rest u units hspans hstands _ ih =>
      obtain ⟨picked, hsub, hanchors, htools, hall⟩ := ih
      refine ⟨anchor :: picked, ?_, ?_, ?_, List.forall_mem_cons.mpr ⟨hstands, hall⟩⟩
      · rw [List.append_assoc, List.cons_append]
        exact ((hsub.trans (List.sublist_append_right tail rest)).cons_cons anchor).trans
          (List.sublist_append_right lead _)
      · rw [List.map_cons, List.map_cons, hspans.anchor, hanchors]
      · rw [List.map_cons, List.map_cons, hspans.tool, htools]

theorem cut_spec (segments : List Segment) :
    (cut segments).1.flatMap (fun g => g.1 ++ [g.2]) ++ (cut segments).2 = segments ∧
      (∀ g ∈ (cut segments).1, 0 < g.2.printMoves ∧ ∀ s ∈ g.1, s.printMoves = 0) ∧
      ∀ s ∈ (cut segments).2, s.printMoves = 0 := by
  induction segments with
  | nil => simp [cut]
  | cons first rest ih =>
      obtain ⟨hflat, hgroups, htail⟩ := ih
      rw [cut]
      by_cases hprints : 0 < first.printMoves
      · simp only [if_pos hprints]
        refine ⟨?_, List.forall_mem_cons.mpr ⟨⟨hprints, by simp⟩, hgroups⟩, htail⟩
        rw [List.flatMap_cons, List.append_assoc, hflat]
        rfl
      · have hsilent : first.printMoves = 0 := by omega
        simp only [if_neg hprints]
        cases hcut : (cut rest).1 with
        | nil =>
            rw [hcut] at hflat
            refine ⟨?_, by simp, List.forall_mem_cons.mpr ⟨hsilent, htail⟩⟩
            exact congrArg (first :: ·) hflat
        | cons g more =>
            obtain ⟨lead, anchor⟩ := g
            rw [hcut] at hflat hgroups
            obtain ⟨hg, hmore⟩ := List.forall_mem_cons.mp hgroups
            refine ⟨?_, List.forall_mem_cons.mpr
              ⟨⟨hg.1, List.forall_mem_cons.mpr ⟨hsilent, hg.2⟩⟩, hmore⟩, htail⟩
            exact congrArg (first :: ·) hflat

theorem cover_groups (place : Nat) {tail : List Segment}
    (htail : ∀ s ∈ tail, s.printMoves = 0 ∧ s.id.layer = place)
    (groups : List (List Segment × Segment)) (hne : groups ≠ [])
    (hgroups : ∀ g ∈ groups, stands g.2 ∧ g.2.id.layer = place ∧
      ∀ s ∈ g.1, s.printMoves = 0 ∧ s.id.layer = place) :
    Cover stands (groups.flatMap (fun g => g.1 ++ [g.2]) ++ tail)
      (attach (tail.map Segment.id) (groups.map ofGroup)) := by
  induction groups with
  | nil => exact absurd rfl hne
  | cons g more ih =>
      obtain ⟨⟨hstands, hlayer, hlead⟩, hmore⟩ := List.forall_mem_cons.mp hgroups
      have hspans (after : List Segment) (hafter : ∀ s ∈ after,
          s.printMoves = 0 ∧ s.id.layer = place) (u : PrintUnit) (hanchor : u.anchor = g.2.id)
          (htool : u.tool = g.2.tool)
          (hmembers : u.members = (g.1 ++ g.2 :: after).map Segment.id) :
          u.Spans g.1 g.2 after := by
        refine ⟨hanchor, htool, hmembers, ?_, ?_⟩
        · intro s hs
          rcases List.mem_append.mp hs with hs | hs
          · exact (hlead s hs).1
          · exact (hafter s hs).1
        · intro s hs
          rw [hlayer]
          rcases List.mem_append.mp hs with hs | hs
          · exact (hlead s hs).2
          · exact (hafter s hs).2
      -- Silent segments behind the last one that prints go to its unit.
      cases more with
      | nil =>
          have hlast := hspans tail htail
            { ofGroup g with members := (ofGroup g).members ++ tail.map Segment.id } rfl rfl
            (by simp [ofGroup])
          have hcover := Cover.cons hlast hstands Cover.nil
          simpa [attach] using hcover
      | cons next more =>
          have hfirst := hspans [] (by simp) (ofGroup g) rfl rfl (by simp [ofGroup])
          have hcover := Cover.cons hfirst hstands (ih (by simp) hmore)
          rw [List.flatMap_cons, List.append_assoc]
          exact hcover

theorem cover_ofSegments {place : Nat} (segments : List Segment)
    (hlayer : ∀ s ∈ segments, s.id.layer = place)
    (hprinted : ∀ s ∈ segments, 0 < s.printMoves → stands s)
    (hfirst : (∀ s ∈ segments, s.printMoves = 0) → ∀ s ∈ segments.head?, stands s) :
    Cover stands segments (ofSegments segments) := by
  obtain ⟨hflat, hgroups, htail⟩ := cut_spec segments
  have hmemTail : ∀ s ∈ (cut segments).2, s ∈ segments := by
    intro s hs
    rw [← hflat]
    exact List.mem_append_right _ hs
  have hmemGroups : ∀ g ∈ (cut segments).1, g.2 ∈ segments ∧ ∀ s ∈ g.1, s ∈ segments := by
    intro g hg
    have hin : ∀ s ∈ g.1 ++ [g.2], s ∈ segments := by
      intro s hs
      rw [← hflat]
      exact List.mem_append_left _ (List.mem_flatMap.mpr ⟨g, hg, hs⟩)
    exact ⟨hin g.2 (by simp), fun s hs => hin s (List.mem_append_left _ hs)⟩
  unfold ofSegments
  generalize cut segments = parts at hflat hgroups htail hmemTail hmemGroups
  obtain ⟨groups, tail⟩ := parts
  cases groups with
  | nil =>
      cases tail with
      | nil =>
          obtain rfl : segments = [] := hflat.symm
          exact .nil
      | cons first rest =>
          obtain rfl : segments = first :: rest := hflat.symm
          have hsilent := (List.forall_mem_cons.mp htail).2
          have hspans : Spans [] first rest
              { anchor := first.id, members := (first :: rest).map Segment.id,
                tool := first.tool } :=
            ⟨rfl, rfl, rfl, hsilent, fun s hs =>
              (hlayer s (List.mem_cons_of_mem first hs)).trans
                (hlayer first List.mem_cons_self).symm⟩
          have hcover := Cover.cons hspans (hfirst htail first rfl) Cover.nil
          rwa [List.append_nil] at hcover
  | cons g more =>
      rw [← hflat]
      refine cover_groups place (fun s hs => ⟨htail s hs, hlayer s (hmemTail s hs)⟩)
        (g :: more) (by simp) fun g' hg' => ?_
      obtain ⟨hprints, hsilent⟩ := hgroups g' hg'
      obtain ⟨hanchor, hlead⟩ := hmemGroups g' hg'
      exact ⟨hprinted g'.2 hanchor hprints, hlayer g'.2 hanchor,
        fun s hs => ⟨hsilent s hs, hlayer s (hlead s hs)⟩⟩

end PrintUnit

namespace Program

theorem Read.cover_units {lines : List Command} {p : Program} (h : Read lines p) :
    PrintUnit.Cover (fun s => s.entry.Shows s.commands s.tool) p.segments p.units := by
  have hlayers : ∀ l ∈ p.layers, ∃ m', l.Sound l.index m' := by
    intro l hl
    exact h.layers.of_mem hl
  rw [segments, units]
  generalize p.layers = layers at hlayers ⊢
  induction layers with
  | nil => exact .nil
  | cons first rest ih =>
      obtain ⟨⟨m', hfirst⟩, hrest⟩ := List.forall_mem_cons.mp hlayers
      rw [List.flatMap_cons, List.flatMap_cons]
      exact (PrintUnit.cover_ofSegments first.segments (fun s hs => hfirst.layer_of_mem hs)
        hfirst.printed fun _ => hfirst.first).append (ih hrest)

section Read

variable {lines : List Command} {p : Program}

theorem Read.members_units (h : Read lines p) :
    p.units.flatMap PrintUnit.members = p.segmentIds :=
  h.cover_units.members

theorem Read.anchors_pairwise (h : Read lines p) :
    (p.units.map PrintUnit.anchor).Pairwise (· < ·) := by
  obtain ⟨picked, hsub, hanchors, -, -⟩ := h.cover_units.anchors
  rw [hanchors]
  exact h.segmentIds_pairwise.sublist (hsub.map Segment.id)

theorem Read.exists_spans (h : Read lines p) {u : PrintUnit} (hu : u ∈ p.units) :
    ∃ lead a tail, u.Spans lead a tail ∧ ∀ s ∈ lead ++ a :: tail, s ∈ p.segments := by
  obtain ⟨lead, a, tail, hspans, -, hmem⟩ := h.cover_units.exists_spans hu
  exact ⟨lead, a, tail, hspans, hmem⟩

theorem Read.tool_anchor (h : Read lines p) {u : PrintUnit} (hu : u ∈ p.units) :
    (p.segment? u.anchor).bind Segment.tool = u.tool := by
  obtain ⟨lead, a, tail, hspans, hmem⟩ := h.exists_spans hu
  rw [hspans.anchor, h.segment?_id (hmem a (by simp)), hspans.tool]
  rfl

theorem Read.tool_of_prints (h : Read lines p) {u : PrintUnit} (hu : u ∈ p.units)
    {id : SegmentId} (hid : id ∈ u.members) {s : Segment} (hs : p.segment? id = some s)
    (hprints : 0 < s.printMoves) : s.tool = u.tool := by
  obtain ⟨lead, a, tail, hspans, hmem⟩ := h.exists_spans hu
  rw [hspans.members] at hid
  obtain ⟨t, ht, rfl⟩ := List.mem_map.mp hid
  obtain rfl : t = s := Option.some.inj ((h.segment?_id (hmem t ht)).symm.trans hs)
  rw [hspans.eq_anchor ht hprints, hspans.tool]

end Read

end Program

end ToolBatching
