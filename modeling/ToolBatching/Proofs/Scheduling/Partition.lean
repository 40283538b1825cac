import ToolBatching.Proofs.Scheduling.BatchLayers
import ToolBatching.Proofs.Scheduling.Batches
import ToolBatching.Proofs.Scheduling.Footprints

namespace ToolBatching

/-- Well-formed batches of a program, over at most `cap` layers. -/
structure Batch.WellFormed (p : Program) (cap : Nat) (b : Batch) : Prop where
  nonempty : b.members ≠ []
  ascending : b.members.Pairwise (· < ·)
  layers : (b.members.map SegmentId.layer).toFinset.card ≤ cap
  layerCount : b.layerCount = (b.members.map SegmentId.layer).toFinset.card
  first : IsLeast { n | n ∈ b.members.map SegmentId.layer } b.firstLayer
  last : IsGreatest { n | n ∈ b.members.map SegmentId.layer } b.lastLayer
  /-- Members that print have the tool of the batch. -/
  tool : ∀ id ∈ b.members, ∀ s, p.segment? id = some s → 0 < s.printMoves → s.tool = b.tool

namespace Program

variable {lines : List Command} {p : Program}

theorem Read.members_pairwise (h : Read lines p) {units : List PrintUnit}
    (hunits : units.Sublist p.units) :
    (units.flatMap PrintUnit.members).Pairwise (· < ·) := by
  have hascending := h.segmentIds_pairwise
  rw [← h.members_units] at hascending
  exact hascending.sublist (hunits.flatMap PrintUnit.members)

/-- A batch that was split off the pending units is well-formed. -/
theorem Read.wellFormed_ofUnits (h : Read lines p) {nozzle : Nozzle}
    {settings : ClearanceSettings} {cap : Nat} {start : PrintUnit}
    {rest taken left : List PrintUnit} (hpending : (start :: rest).Sublist p.units)
    (hsplits : (Clearance.ofProgram p nozzle settings).Splits cap start rest taken left) :
    (Batch.ofUnits (start :: taken)).WellFormed p cap := by
  have htaken : (start :: taken).Sublist p.units :=
    (hsplits.taken_sublist.cons_cons start).trans hpending
  have hunits : ∀ u ∈ start :: taken, u ∈ p.units := by
    intro u hu
    exact htaken.subset hu
  have hascending := h.members_pairwise htaken
  have hne : (start :: taken).flatMap PrintUnit.members ≠ [] := by
    obtain ⟨lead, a, tail, hspans, -⟩ := h.exists_spans (hunits start List.mem_cons_self)
    rw [List.flatMap_cons, hspans.members]
    simp
  have htools : ∀ u ∈ start :: taken, u.tool = start.tool := by
    refine List.forall_mem_cons.mpr ⟨rfl, fun u hu => ?_⟩
    have hjoins := (hsplits.joins u hu).1
    rwa [Clearance.tool_ofProgram, Clearance.tool_ofProgram,
      h.tool_anchor (hunits u (List.mem_cons_of_mem start hu)),
      h.tool_anchor (hunits start List.mem_cons_self)] at hjoins
  obtain ⟨fresh, hlength, hfresh⟩ := hsplits.layers
  have hlayers : ((start :: taken).flatMap PrintUnit.members).map SegmentId.layer ⊆
      start.anchor.layer :: fresh := by
    intro n hn
    obtain ⟨id, hid, rfl⟩ := List.mem_map.mp hn
    obtain ⟨u, hu, hid⟩ := List.mem_flatMap.mp hid
    obtain ⟨lead, a, tail, hspans, -⟩ := h.exists_spans (hunits u hu)
    rw [hspans.layer_of_mem hid]
    rcases List.mem_cons.mp hu with rfl | hu
    · exact List.mem_cons_self
    · exact List.mem_cons.mpr (hfresh u hu)
  exact {
    nonempty := hne
    ascending := hascending
    layers := by
      calc
        _ ≤ (start.anchor.layer :: fresh).toFinset.card := by
          apply Finset.card_le_card
          intro n hn
          rw [List.mem_toFinset] at hn ⊢
          exact hlayers hn
        _ ≤ (start.anchor.layer :: fresh).length := List.toFinset_card_le _
        _ ≤ cap := by simpa using hlength
    layerCount := Batch.layerCount_eq_card hascending
    first := Batch.isLeast_firstLayer _ hne hascending
    last := Batch.isGreatest_lastLayer _ hne hascending
    tool := by
      intro id hid s hs hprints
      obtain ⟨u, hu, hid⟩ := List.mem_flatMap.mp hid
      exact (h.tool_of_prints (hunits u hu) hid hs hprints).trans (htools u hu) }

end Program

theorem Plan.isPartitionOf_of_perm {plan : Plan} {p : Program} (hnodup : p.segmentIds.Nodup)
    (hperm : plan.members.Perm p.segmentIds) : plan.isPartitionOf p = true := by
  simp only [isPartitionOf, Bool.and_eq_true, decide_eq_true_eq, beq_iff_eq, List.all_eq_true,
    List.contains_iff_mem]
  exact ⟨⟨hperm.nodup_iff.mpr hnodup, hperm.length_eq⟩, fun id hid => hperm.mem_iff.mpr hid⟩

theorem members_ofUnits (groups : List (List PrintUnit)) :
    (groups.map Batch.ofUnits).flatMap Batch.members =
      groups.flatten.flatMap PrintUnit.members := by
  induction groups with
  | nil => rfl
  | cons group groups ih =>
      rw [List.map_cons, List.flatMap_cons, ih, List.flatten_cons, List.flatMap_append]
      rfl

theorem starts_ofUnits {groups : List (List PrintUnit)} (hne : ∀ group ∈ groups, group ≠ []) :
    List.Forall₂ (fun u b => u.members <+: b.members ∧ u.tool = b.tool)
      (groups.filterMap List.head?) (groups.map Batch.ofUnits) := by
  induction groups with
  | nil => exact List.Forall₂.nil
  | cons group groups ih =>
      obtain ⟨hgroup, hgroups⟩ := List.forall_mem_cons.mp hne
      obtain ⟨start, taken, rfl⟩ := List.exists_cons_of_ne_nil hgroup
      exact List.Forall₂.cons ⟨List.prefix_append start.members _, rfl⟩ (ih hgroups)

namespace Program

theorem Read.exists_groups {lines : List Command} {p : Program} (h : Read lines p)
    (c : Clearance) (cap : Nat) :
    ∃ groups, c.Groups (max cap 1) p.units groups ∧
      (c.schedule cap p.units).batches = groups.map Batch.ofUnits :=
  c.groups_batches (Nat.le_max_right cap 1) p.units h.anchors_pairwise

theorem Read.members_schedule_perm {lines : List Command} {p : Program} (h : Read lines p)
    (c : Clearance) (cap : Nat) : (c.schedule cap p.units).members.Perm p.segmentIds := by
  obtain ⟨groups, hgroups, hbatches⟩ := h.exists_groups c cap
  rw [Plan.members, hbatches, members_ofUnits, ← h.members_units]
  exact hgroups.perm.flatMap_right PrintUnit.members

theorem Read.wellFormed_of_mem_schedule {lines : List Command} {p : Program} (h : Read lines p)
    (nozzle : Nozzle) (settings : ClearanceSettings) (cap : Nat) {b : Batch}
    (hb : b ∈ ((Clearance.ofProgram p nozzle settings).schedule cap p.units).batches) :
    b.WellFormed p (max cap 1) := by
  obtain ⟨groups, hgroups, hbatches⟩ :=
    h.exists_groups (Clearance.ofProgram p nozzle settings) cap
  rw [hbatches] at hb
  obtain ⟨group, hgroup, rfl⟩ := List.mem_map.mp hb
  obtain ⟨start, rest, taken, left, rfl, hpending, hsplits⟩ := hgroups.exists_splits hgroup
  exact h.wellFormed_ofUnits hpending hsplits

/-- A schedule is a partition of the program into well-formed batches, and the units at
which successive batches start stand in program order. -/
theorem schedule_isPartition (text : String) (nozzle : Nozzle) (settings : ClearanceSettings)
    (cap : Nat) :
    let p := ofText text
    let plan := (Clearance.ofProgram p nozzle settings).schedule cap p.units
    plan.isPartitionOf p = true ∧ plan.members.Perm p.segmentIds ∧
      (∀ b ∈ plan.batches, b.WellFormed p (max cap 1)) ∧
      ∃ starts : List PrintUnit, starts.Sublist p.units ∧
        (starts.map PrintUnit.anchor).Pairwise (· < ·) ∧
        List.Forall₂ (fun u b => u.members <+: b.members ∧ u.tool = b.tool)
          starts plan.batches := by
  have h := read_ofText text
  have hperm := h.members_schedule_perm (Clearance.ofProgram (ofText text) nozzle settings) cap
  obtain ⟨groups, hgroups, hbatches⟩ :=
    h.exists_groups (Clearance.ofProgram (ofText text) nozzle settings) cap
  refine ⟨Plan.isPartitionOf_of_perm h.segmentIds_nodup hperm, hperm,
    fun b hb => h.wellFormed_of_mem_schedule nozzle settings cap hb,
    groups.filterMap List.head?, hgroups.starts_sublist, ?_, ?_⟩
  · exact h.anchors_pairwise.sublist (hgroups.starts_sublist.map PrintUnit.anchor)
  · rw [hbatches]
    exact starts_ofUnits hgroups.ne_nil

end Program

end ToolBatching
