import ToolBatching.Proofs.Scheduling.Partition

namespace ToolBatching

namespace SegmentId

theorem lt_or_lt_of_ne {a b : SegmentId} (h : a ≠ b) : a < b ∨ b < a := by
  cases a with
  | mk i m =>
      cases b with
      | mk j n =>
          simp only [ne_eq, mk.injEq, not_and] at h
          simp only [lt_iff]
          omega

theorem mem_takeWhile_lt {ids : List SegmentId} (hascending : ids.Pairwise (· < ·))
    {id bound : SegmentId} (hid : id ∈ ids) (hlt : id < bound) :
    id ∈ ids.takeWhile fun p => decide (p < bound) := by
  induction ids with
  | nil => exact absurd hid (by simp)
  | cons first rest ih =>
      obtain ⟨hfirst, hrest⟩ := List.pairwise_cons.mp hascending
      rcases List.mem_cons.mp hid with rfl | hin
      · rw [List.takeWhile_cons_of_pos (by simpa using hlt)]
        exact List.mem_cons_self
      · have hbelow : first < bound := lt_trans (hfirst id hin) hlt
        rw [List.takeWhile_cons_of_pos (by simpa using hbelow)]
        exact List.mem_cons_of_mem first (ih hrest hin)

end SegmentId

namespace Clearance

variable {c : Clearance} {cap : Nat}

theorem reachable_of_canBatch {a b other : SegmentId} {pending : List SegmentId}
    (h : c.canBatch a b pending = true) (hascending : pending.Pairwise (· < ·))
    (hother : other ∈ pending) (hlt : other < b) :
    other = a ∨ c.tool other = c.tool a ∨ c.tooClose b other = false := by
  have hchecked := List.all_eq_true.mp h other (SegmentId.mem_takeWhile_lt hascending hother hlt)
  simp only [Bool.or_eq_true, beq_iff_eq, Bool.and_eq_true, decide_eq_true_eq,
    Bool.not_eq_true'] at hchecked
  rcases hchecked with (heq | ⟨-, htool⟩) | hclear
  · exact Or.inl heq
  · exact Or.inr (Or.inl htool)
  · exact Or.inr (Or.inr hclear)

/-- A unit may be printed ahead of another one that comes first in the program. -/
def Ahead (c : Clearance) (e l : PrintUnit) : Prop :=
  l.anchor < e.anchor → c.tool e.anchor ≠ c.tool l.anchor ∧ c.tooClose e.anchor l.anchor = false

theorem Splits.ahead {start : PrintUnit} {rest taken left : List PrintUnit}
    (h : c.Splits cap start rest taken left)
    (hascending : ((start :: rest).map PrintUnit.anchor).Pairwise (· < ·)) {e l : PrintUnit}
    (he : e ∈ taken) (hl : l ∈ left) : c.Ahead e l := by
  intro hlt
  obtain ⟨htool, hbatch⟩ := h.joins e he
  have hrest : l ∈ rest := h.left_sublist.subset hl
  -- What stays pending does not have the tool of the batch, or it would have joined.
  have hdisjoint : l ∉ taken := by
    have hnodup : (rest.map PrintUnit.anchor).Nodup :=
      (List.pairwise_cons.mp hascending).2.imp SegmentId.ne_of_lt
    have hparts : (taken ++ left).Nodup := h.perm.nodup_iff.mpr hnodup.of_map
    intro hmem
    exact (List.nodup_append.mp hparts).2.2 l hmem l hl rfl
  have hother : c.tool l.anchor ≠ c.tool start.anchor := by
    intro hsame
    exact hdisjoint (h.earlier e he l hrest hlt hsame)
  have hstart : start.anchor < l.anchor :=
    (List.pairwise_cons.mp hascending).1 l.anchor (List.mem_map_of_mem hrest)
  constructor
  · intro hsame
    exact hother (hsame.symm.trans htool)
  · rcases reachable_of_canBatch hbatch hascending
      (List.mem_map_of_mem (List.mem_cons_of_mem start hrest)) hlt with heq | hsame | hclear
    · exact absurd heq (SegmentId.ne_of_lt hstart).symm
    · exact absurd hsame hother
    · exact hclear

theorem ahead_of_pairwise {units : List PrintUnit}
    (h : (units.map PrintUnit.anchor).Pairwise (· < ·)) : units.Pairwise c.Ahead :=
  (List.pairwise_map.mp h).imp fun hlt hback => absurd hback (SegmentId.not_lt_of_lt hlt)

theorem Groups.ahead {pending : List PrintUnit} {groups : List (List PrintUnit)}
    (h : c.Groups cap pending groups)
    (hascending : (pending.map PrintUnit.anchor).Pairwise (· < ·)) :
    groups.flatten.Pairwise c.Ahead := by
  induction h with
  | nil => exact List.Pairwise.nil
  | @cons start rest taken left groups hsplits hgroups ih =>
      obtain ⟨hstart, hrest⟩ := List.pairwise_cons.mp hascending
      have hleft := hrest.sublist (hsplits.left_sublist.map PrintUnit.anchor)
      have hlater : ∀ l ∈ groups.flatten, l ∈ left := by
        intro l hl
        exact hgroups.perm.mem_iff.mp hl
      have hgroup : (start :: taken).Pairwise c.Ahead :=
        ahead_of_pairwise
          (hascending.sublist ((hsplits.taken_sublist.cons_cons start).map PrintUnit.anchor))
      rw [List.flatten_cons, List.pairwise_append]
      -- Everything printed later was left by this batch, so only pairs across it are new.
      refine ⟨hgroup, ih hleft, fun e he l hl => ?_⟩
      rcases List.mem_cons.mp he with rfl | he
      · have hfirst := hstart l.anchor
          (List.mem_map_of_mem (hsplits.left_sublist.subset (hlater l hl)))
        intro hback
        exact absurd hback (SegmentId.not_lt_of_lt hfirst)
      · exact hsplits.ahead hascending he (hlater l hl)

end Clearance

/-- The anchors are what is left of the members of units when all others are dropped. -/
theorem filter_anchors {units : List PrintUnit} (hanchor : ∀ u ∈ units, u.anchor ∈ u.members)
    (hnodup : (units.flatMap PrintUnit.members).Nodup) :
    (units.flatMap PrintUnit.members).filter
      (fun id => decide (id ∈ units.map PrintUnit.anchor)) = units.map PrintUnit.anchor := by
  induction units with
  | nil => rfl
  | cons u rest ih =>
      obtain ⟨hu, hrest⟩ := List.forall_mem_cons.mp hanchor
      rw [List.flatMap_cons, List.nodup_append] at hnodup
      obtain ⟨hmembers, hnodup, hdisjoint⟩ := hnodup
      have hothers : ∀ v ∈ rest, v.anchor ∈ rest.flatMap PrintUnit.members :=
        fun v hv => List.mem_flatMap.mpr ⟨v, hv, hrest v hv⟩
      have hfirst : u.members.filter
          (fun id => decide (id ∈ (u :: rest).map PrintUnit.anchor)) = [u.anchor] := by
        have hsame : ∀ id ∈ u.members,
            decide (id ∈ (u :: rest).map PrintUnit.anchor) = (id == u.anchor) := by
          intro id hid
          rw [Bool.eq_iff_iff, decide_eq_true_eq, beq_iff_eq, List.map_cons, List.mem_cons]
          refine or_iff_left fun hmem => ?_
          obtain ⟨v, hv, rfl⟩ := List.mem_map.mp hmem
          exact hdisjoint _ hid _ (hothers v hv) rfl
        rw [List.filter_congr hsame, List.filter_beq, hmembers.count, if_pos hu]
        rfl
      have hrest' : (rest.flatMap PrintUnit.members).filter
          (fun id => decide (id ∈ (u :: rest).map PrintUnit.anchor)) =
            rest.map PrintUnit.anchor := by
        rw [← ih hrest hnodup]
        refine List.filter_congr fun id hid => ?_
        rw [decide_eq_decide, List.map_cons, List.mem_cons]
        exact or_iff_right fun heq => hdisjoint _ hu _ hid heq.symm
      rw [List.flatMap_cons, List.filter_append, hfirst, hrest']
      rfl

namespace Program

/-- Unit anchors that are printed ahead of earlier ones have another tool and keep clear
of them, so the anchors of one tool are printed in program order. -/
theorem deferred_anchors_reachable (text : String) (nozzle : Nozzle)
    (settings : ClearanceSettings) (cap : Nat) :
    let p := ofText text
    let c := Clearance.ofProgram p nozzle settings
    let toolOf := fun id => (p.segment? id).bind Segment.tool
    let printed := (c.schedule cap p.units).members.filter fun id =>
      decide (id ∈ p.units.map PrintUnit.anchor)
    printed.Perm (p.units.map PrintUnit.anchor) ∧
      printed.Pairwise (fun e l => l < e → toolOf e ≠ toolOf l ∧ c.tooClose e l = false) ∧
      ∀ tool, (printed.filter fun id => decide (toolOf id = tool)).Pairwise (· < ·) := by
  intro p c toolOf printed
  have h : Read (readCommands text) p := read_ofText text
  obtain ⟨groups, hgroups, hbatches⟩ := h.exists_groups c cap
  have hprinted : printed = groups.flatten.map PrintUnit.anchor := by
    have hanchor : ∀ u ∈ groups.flatten, u.anchor ∈ u.members := by
      intro u hu
      obtain ⟨lead, a, tail, hspans, -⟩ := h.exists_spans (hgroups.perm.mem_iff.mp hu)
      rw [hspans.anchor, hspans.members]
      exact List.mem_map_of_mem (by simp)
    have hnodup : (groups.flatten.flatMap PrintUnit.members).Nodup := by
      rw [(hgroups.perm.flatMap_right PrintUnit.members).nodup_iff, h.members_units]
      exact h.segmentIds_nodup
    rw [← filter_anchors hanchor hnodup]
    simp only [printed]
    rw [Plan.members, hbatches, members_ofUnits]
    refine List.filter_congr fun id _ => ?_
    rw [decide_eq_decide]
    exact (hgroups.perm.map PrintUnit.anchor).mem_iff.symm
  have hperm : printed.Perm (p.units.map PrintUnit.anchor) := by
    rw [hprinted]
    exact hgroups.perm.map PrintUnit.anchor
  have hahead : printed.Pairwise
      (fun e l => l < e → toolOf e ≠ toolOf l ∧ c.tooClose e l = false) := by
    rw [hprinted, List.pairwise_map]
    refine (hgroups.ahead h.anchors_pairwise).imp fun {e l} hel hlt => ?_
    have hclear := hel hlt
    rwa [Clearance.tool_ofProgram, Clearance.tool_ofProgram] at hclear
  refine ⟨hperm, hahead, fun tool => ?_⟩
  have hnodup : printed.Nodup :=
    hperm.nodup_iff.mpr (h.anchors_pairwise.imp SegmentId.ne_of_lt)
  rw [List.pairwise_filter]
  refine (hahead.and hnodup).imp fun {e l} hel he hl => ?_
  obtain ⟨hdeferred, hne⟩ := hel
  rcases SegmentId.lt_or_lt_of_ne hne with hlt | hlt
  · exact hlt
  · exact absurd ((of_decide_eq_true he).trans (of_decide_eq_true hl).symm) (hdeferred hlt).1

end Program

end ToolBatching
