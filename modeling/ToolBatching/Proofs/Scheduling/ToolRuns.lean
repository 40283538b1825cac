import Mathlib.Data.List.TakeWhile
import ToolBatching.Proofs.Scheduling.Deferral
import ToolBatching.Proofs.Scheduling.LongestBatch

namespace ToolBatching

namespace Clearance

variable {c : Clearance} {cap : Nat} {start next : PrintUnit} {rest taken left : List PrintUnit}

theorem Splits.taken_before (h : c.Splits cap start rest taken (next :: left))
    (hascending : (rest.map PrintUnit.anchor).Pairwise (· < ·))
    (htool : c.tool next.anchor = c.tool start.anchor) : ∀ u ∈ taken, u.anchor < next.anchor := by
  rw [List.pairwise_map] at hascending
  have hnodup : (taken ++ next :: left).Nodup := by
    refine h.perm.nodup_iff.mpr (hascending.imp fun {u v} hlt => ?_)
    rintro rfl
    exact SegmentId.not_lt_self u.anchor hlt
  have hleft : next ∈ rest := h.left_sublist.subset List.mem_cons_self
  have hnext : next ∉ taken := fun hmem =>
    List.disjoint_of_nodup_append hnodup hmem List.mem_cons_self
  intro u hu
  have hne : u.anchor ≠ next.anchor := by
    have hinjective : rest.Pairwise fun v w => v.anchor ≠ w.anchor :=
      hascending.imp SegmentId.ne_of_lt
    have : Std.Symm fun v w : PrintUnit => v.anchor ≠ w.anchor := ⟨fun _ _ => Ne.symm⟩
    exact hinjective.forall (h.taken_sublist.subset hu) hleft fun heq => hnext (heq ▸ hu)
  rcases SegmentId.lt_or_lt_of_ne hne with hlt | hlt
  · exact hlt
  · exact absurd (h.earlier u hu next hleft hlt htool) hnext

theorem Splits.rest_eq (h : c.Splits cap start rest taken (next :: left))
    (hascending : (rest.map PrintUnit.anchor).Pairwise (· < ·))
    (htool : c.tool next.anchor = c.tool start.anchor) : rest = taken ++ next :: left := by
  have hbefore := h.taken_before hascending htool
  rw [List.pairwise_map] at hascending
  have hleft := hascending.sublist h.left_sublist
  have hsorted : (taken ++ next :: left).Pairwise fun u v => u.anchor < v.anchor := by
    refine List.pairwise_append.mpr ⟨hascending.sublist h.taken_sublist, hleft, ?_⟩
    intro u hu v hv
    rcases List.mem_cons.mp hv with rfl | hv
    · exact hbefore u hu
    · exact SegmentId.lt_trans (hbefore u hu) ((List.pairwise_cons.mp hleft).1 v hv)
  refine (List.Perm.eq_of_pairwise ?_ hsorted hascending h.perm).symm
  intro u v _ _ huv hvu
  exact absurd hvu (SegmentId.not_lt_of_lt huv)

theorem canBatch_of_own (c : Clearance) {a b : SegmentId} {pending : List SegmentId}
    (h : ∀ other ∈ pending, other < b → other = a ∨ a < other ∧ c.tool other = c.tool a) :
    c.canBatch a b pending = true := by
  refine List.all_eq_true.mpr fun other hother => ?_
  have hbefore : decide (other < b) = true :=
    List.mem_takeWhile_imp (p := fun id => decide (id < b)) hother
  rcases h other ((List.takeWhile_sublist _).subset hother) (of_decide_eq_true hbefore) with
    rfl | ⟨hlt, htool⟩
  · simp
  · simp [hlt, htool]

theorem eq_filter_of_splitBatch
    (hsplit : c.splitBatch cap start rest = (start :: taken, left)) :
    taken = rest.filter (fun u =>
        (c.extendBatch start.anchor ((start :: rest).map PrintUnit.anchor) cap).contains u.anchor) ∧
      left = rest.filter fun u =>
        !(c.extendBatch start.anchor
          ((start :: rest).map PrintUnit.anchor) cap).contains u.anchor := by
  have hparts := hsplit.symm.trans (c.splitBatch_eq cap start rest)
  rw [Prod.mk.injEq, List.cons_eq_cons] at hparts
  exact ⟨hparts.1.2, hparts.2⟩

theorem Splits.own_of_mem_taken (h : c.Splits cap start rest taken left)
    (hascending : ((start :: rest).map PrintUnit.anchor).Pairwise (· < ·)) :
    ∀ u ∈ taken, start.anchor < u.anchor ∧ c.tool u.anchor = c.tool start.anchor :=
  fun u hu => ⟨(List.pairwise_cons.mp hascending).1 _
    (List.mem_map_of_mem (h.taken_sublist.subset hu)), (h.joins u hu).1⟩

theorem Splits.prefix_candidates (h : c.Splits cap start rest taken (next :: left))
    (hascending : ((start :: rest).map PrintUnit.anchor).Pairwise (· < ·))
    (htool : c.tool next.anchor = c.tool start.anchor) :
    taken.map PrintUnit.anchor ++ [next.anchor] <+:
      c.candidates start.anchor ((start :: rest).map PrintUnit.anchor) := by
  obtain ⟨hstart, hrest⟩ := List.pairwise_cons.mp hascending
  have hnext : start.anchor < next.anchor :=
    hstart _ (List.mem_map_of_mem (h.left_sublist.subset List.mem_cons_self))
  have hstays : (taken.map PrintUnit.anchor).filter (fun p => decide (start.anchor < p) &&
      decide (c.tool p = c.tool start.anchor)) = taken.map PrintUnit.anchor := by
    refine List.filter_eq_self.mpr fun id hid => ?_
    obtain ⟨u, hu, rfl⟩ := List.mem_map.mp hid
    simpa using h.own_of_mem_taken hascending u hu
  refine ⟨c.candidates start.anchor (left.map PrintUnit.anchor), ?_⟩
  rw [candidates, candidates, h.rest_eq hrest htool, List.map_cons, List.map_append, List.map_cons,
    List.filter_cons_of_neg (by simpa using fun hlt => absurd hlt (SegmentId.not_lt_self _)),
    List.filter_append, hstays, List.filter_cons_of_pos (by simp [hnext, htool]),
    List.append_assoc, List.singleton_append]

theorem Splits.canBatch_next (h : c.Splits cap start rest taken (next :: left))
    (hascending : ((start :: rest).map PrintUnit.anchor).Pairwise (· < ·))
    (htool : c.tool next.anchor = c.tool start.anchor) :
    c.canBatch start.anchor next.anchor ((start :: rest).map PrintUnit.anchor) = true := by
  have hrest := (List.pairwise_cons.mp hascending).2
  refine c.canBatch_of_own fun other hother hlt => ?_
  rcases List.mem_cons.mp hother with rfl | hother
  · exact Or.inl rfl
  rw [h.rest_eq hrest htool, List.map_append, List.map_cons] at hother hrest
  obtain ⟨-, hbehind, -⟩ := List.pairwise_append.mp hrest
  rcases List.mem_append.mp hother with htaken | hleft
  · obtain ⟨u, hu, rfl⟩ := List.mem_map.mp htaken
    exact Or.inr (h.own_of_mem_taken hascending u hu)
  · rcases List.mem_cons.mp hleft with rfl | hleft
    · exact absurd hlt (SegmentId.not_lt_self _)
    · exact absurd hlt (SegmentId.not_lt_of_lt ((List.pairwise_cons.mp hbehind).1 _ hleft))

/-- A unit of its tool that a batch leaves first would be one layer too many. -/
theorem Splits.full (h : c.Splits cap start rest taken (next :: left))
    (hascending : ((start :: rest).map PrintUnit.anchor).Pairwise (· < ·))
    (htool : c.tool next.anchor = c.tool start.anchor) (hcap : 1 ≤ cap)
    (hsplit : c.splitBatch cap start rest = (start :: taken, next :: left)) :
    distinctLayers ((start :: taken).map PrintUnit.anchor) = cap ∧
      next.anchor.layer ∉ ((start :: taken).map PrintUnit.anchor).map SegmentId.layer := by
  obtain ⟨hstart, hrest⟩ := List.pairwise_cons.mp hascending
  obtain ⟨batch, hextend, hlongest⟩ :=
    c.extendBatch_eq_cons_longest start.anchor hascending hcap
  have htaken : ∀ u ∈ rest, u ∈ taken ↔ u.anchor ∈ batch := by
    intro u hu
    rw [(eq_filter_of_splitBatch hsplit).1, List.mem_filter, List.contains_iff_mem, hextend,
      List.mem_cons, or_iff_right (SegmentId.ne_of_lt (hstart _ (List.mem_map_of_mem hu))).symm]
    exact and_iff_right hu
  have hunder : distinctLayers ((start :: taken).map PrintUnit.anchor) ≤ cap := by
    refine (distinctLayers_mono (List.map_subset _ ?_)).trans hlongest.holds.layers
    rw [List.map_cons]
    refine List.cons_subset_cons _ fun id hid => ?_
    obtain ⟨u, hu, rfl⟩ := List.mem_map.mp hid
    exact (htaken u (h.taken_sublist.subset hu)).mp hu
  -- With the next unit the batch would still be a prefix of the candidates that may all join.
  have hover : cap < distinctLayers ((start :: taken).map PrintUnit.anchor ++ [next.anchor]) := by
    by_contra hfits
    have hjoins : ∀ e ∈ taken.map PrintUnit.anchor ++ [next.anchor],
        c.canBatch start.anchor e ((start :: rest).map PrintUnit.anchor) = true := by
      rw [List.forall_mem_append, List.forall_mem_singleton]
      refine ⟨fun id hid => ?_, h.canBatch_next hascending htool⟩
      obtain ⟨u, hu, rfl⟩ := List.mem_map.mp hid
      exact (h.joins u hu).2
    have hmore := hlongest.longest _ (h.prefix_candidates hascending htool)
      ⟨hjoins, by simpa using hfits⟩
    have hagain := (htaken next (h.left_sublist.subset List.mem_cons_self)).mpr
      (hmore.subset (by simp))
    exact SegmentId.not_lt_self _ (h.taken_before hrest htool next hagain)
  have hfresh : next.anchor.layer ∉
      ((start :: taken).map PrintUnit.anchor).map SegmentId.layer := by
    intro hmem
    rw [distinctLayers_concat_of_mem hmem] at hover
    omega
  rw [distinctLayers_concat_of_notMem hfresh] at hover
  exact ⟨by omega, hfresh⟩

end Clearance

namespace Program

variable {lines : List Command} {p : Program} {c : Clearance} {cap : Nat}
variable {start : PrintUnit} {pending rest taken left : List PrintUnit}

theorem Read.anchor_mem_members (h : Read lines p) {u : PrintUnit} (hu : u ∈ p.units) :
    u.anchor ∈ u.members := by
  obtain ⟨lead, a, tail, hspans, -⟩ := h.exists_spans hu
  rw [hspans.anchor, hspans.members]
  exact List.mem_map_of_mem (by simp)

theorem Read.eq_of_mem_members (h : Read lines p) {u v : PrintUnit} (hu : u ∈ p.units)
    (hv : v ∈ p.units) {id : SegmentId} (hidu : id ∈ u.members) (hidv : id ∈ v.members) :
    u = v := by
  by_contra hne
  have hnodup : (p.units.flatMap PrintUnit.members).Nodup := by
    rw [h.members_units]
    exact h.segmentIds_nodup
  have : Std.Symm (Function.onFun List.Disjoint PrintUnit.members) :=
    ⟨fun _ _ => List.Disjoint.symm⟩
  exact (List.nodup_flatMap.mp hnodup).2.forall hu hv hne hidu hidv

theorem Read.anchor_mem_ofUnits_iff (h : Read lines p) {units : List PrintUnit}
    (hunits : units ⊆ p.units) {u : PrintUnit} (hu : u ∈ p.units) :
    u.anchor ∈ (Batch.ofUnits units).members ↔ u ∈ units := by
  constructor
  · intro hmem
    obtain ⟨v, hv, hanchor⟩ := List.mem_flatMap.mp hmem
    rwa [h.eq_of_mem_members hu (hunits hv) (h.anchor_mem_members hu) hanchor]
  · intro hmem
    exact List.mem_flatMap.mpr ⟨u, hmem, h.anchor_mem_members hu⟩

theorem Read.mem_layers_ofUnits (h : Read lines p) {units : List PrintUnit}
    (hunits : units ⊆ p.units) (n : Nat) :
    n ∈ (Batch.ofUnits units).members.map SegmentId.layer ↔
      n ∈ (units.map PrintUnit.anchor).map SegmentId.layer := by
  constructor
  · intro hn
    obtain ⟨id, hid, rfl⟩ := List.mem_map.mp hn
    obtain ⟨u, hu, hid⟩ := List.mem_flatMap.mp hid
    obtain ⟨lead, a, tail, hspans, -⟩ := h.exists_spans (hunits hu)
    rw [hspans.layer_of_mem hid]
    exact List.mem_map_of_mem (List.mem_map_of_mem hu)
  · intro hn
    obtain ⟨id, hid, rfl⟩ := List.mem_map.mp hn
    obtain ⟨u, hu, rfl⟩ := List.mem_map.mp hid
    exact List.mem_map_of_mem
      ((h.anchor_mem_ofUnits_iff hunits (hunits hu)).mpr hu)

theorem Read.left_eq_filter (h : Read lines p) (hpending : (start :: rest).Sublist p.units)
    (hsplit : c.splitBatch cap start rest = (start :: taken, left)) :
    left = (start :: rest).filter
      fun u => decide (u.anchor ∉ (Batch.ofUnits (start :: taken)).members) := by
  obtain ⟨htaken, hleft⟩ := Clearance.eq_filter_of_splitBatch hsplit
  have hunits : start :: taken ⊆ p.units := by
    rw [htaken]
    exact List.Subset.trans (List.cons_subset_cons _ (List.filter_subset_self _)) hpending.subset
  have hfirst : start.anchor ∈ (Batch.ofUnits (start :: taken)).members :=
    (h.anchor_mem_ofUnits_iff hunits (hunits List.mem_cons_self)).mpr List.mem_cons_self
  rw [List.filter_cons_of_neg (by simpa using hfirst), hleft]
  refine List.filter_congr fun u hu => ?_
  have hnodup : (start :: rest).Nodup := by
    have hpairwise := (h.anchors_pairwise.sublist (hpending.map PrintUnit.anchor))
    exact (List.pairwise_map.mp hpairwise).imp fun hlt heq =>
      SegmentId.ne_of_lt hlt (congrArg PrintUnit.anchor heq)
  have hne : u ≠ start := by
    rintro rfl
    exact (List.nodup_cons.mp hnodup).1 hu
  rw [Bool.eq_iff_iff, Bool.not_eq_true', ← Bool.not_eq_true, decide_eq_true_eq,
    h.anchor_mem_ofUnits_iff hunits (hpending.subset (List.mem_cons_of_mem start hu)),
    List.mem_cons, or_iff_right hne, htaken, List.mem_filter, and_iff_right hu]

theorem Read.exists_split (h : Read lines p) (hcap : 1 ≤ cap) {first : Batch}
    {later : List Batch} (hpending : pending.Sublist p.units)
    (hbatches : c.batches cap pending = first :: later) :
    ∃ start rest taken left, pending = start :: rest ∧
      c.splitBatch cap start rest = (start :: taken, left) ∧
      first = Batch.ofUnits (start :: taken) ∧ c.batches cap left = later ∧
      left.Sublist p.units ∧ c.Splits cap start rest taken left := by
  cases pending with
  | nil =>
      rw [Clearance.batches] at hbatches
      exact absurd hbatches (by simp)
  | cons start rest =>
      obtain ⟨taken, left, hsplit, hsplits⟩ := c.splits_splitBatch hcap
        (h.anchors_pairwise.sublist (hpending.map PrintUnit.anchor))
      rw [Clearance.batches] at hbatches
      simp only [hsplit] at hbatches
      obtain ⟨hfirst, hlater⟩ := List.cons_eq_cons.mp hbatches
      exact ⟨start, rest, taken, left, rfl, hsplit, hfirst.symm, hlater,
        (hsplits.left_sublist.trans (List.sublist_cons_self start rest)).trans hpending, hsplits⟩

theorem Read.batches_behind (h : Read lines p) (hcap : 1 ≤ cap) {front later : List Batch}
    (hpending : pending.Sublist p.units) (hbatches : c.batches cap pending = front ++ later) :
    c.batches cap (pending.filter fun u => decide (∀ b ∈ front, u.anchor ∉ b.members)) =
      later := by
  induction front generalizing pending with
  | nil => simpa using hbatches
  | cons first front ih =>
      obtain ⟨start, rest, taken, left, rfl, hsplit, hfirst, hlater, hleft, -⟩ :=
        h.exists_split hcap hpending hbatches
      rw [← ih hleft hlater, h.left_eq_filter hpending hsplit, List.filter_filter, hfirst]
      congr 1
      refine List.filter_congr fun u _ => ?_
      rw [Bool.eq_iff_iff, Bool.and_eq_true]
      simp only [decide_eq_true_eq, List.forall_mem_cons]
      exact and_comm

/-- A tool that goes on with the next batch has filled the cap. It goes on, on a new layer, with
the unit that comes right behind its last one among those that were pending. -/
theorem Read.same_tool_batches (h : Read lines p) {nozzle : Nozzle} {settings : ClearanceSettings}
    (hcap : 1 ≤ cap) (hpending : pending.Sublist p.units) {first second : Batch}
    {back : List Batch}
    (hbatches : (Clearance.ofProgram p nozzle settings).batches cap pending =
      first :: second :: back)
    (htool : first.tool = second.tool) :
    first.layerCount = cap ∧ ∃ before last next behind, pending = before ++ last :: next :: behind ∧
      last.anchor ∈ first.members ∧ next.members <+: second.members ∧
      last.tool = first.tool ∧ next.tool = first.tool ∧
      next.anchor.layer ∉ first.members.map SegmentId.layer := by
  obtain ⟨start, rest, taken, left, rfl, hsplit, rfl, hlater, hleft, hsplits⟩ :=
    h.exists_split hcap hpending hbatches
  obtain ⟨next, left, taken', left', rfl, -, rfl, -, -, -⟩ := h.exists_split hcap hleft hlater
  have hascending := h.anchors_pairwise.sublist (hpending.map PrintUnit.anchor)
  have htaken : (start :: taken).Sublist p.units :=
    (hsplits.taken_sublist.cons_cons start).trans hpending
  have htoolOf : ∀ u ∈ p.units,
      (Clearance.ofProgram p nozzle settings).tool u.anchor = u.tool := by
    intro u hu
    rw [Clearance.tool_ofProgram, h.tool_anchor hu]
  have hstart := htaken.subset List.mem_cons_self
  have hsame : next.tool = start.tool := htool.symm
  have hown : (Clearance.ofProgram p nozzle settings).tool next.anchor =
      (Clearance.ofProgram p nozzle settings).tool start.anchor := by
    rw [htoolOf next (hleft.subset List.mem_cons_self), htoolOf start hstart, hsame]
  obtain ⟨hcount, hfresh⟩ := hsplits.full hascending hown hcap hsplit
  have hlayers := h.mem_layers_ofUnits htaken.subset
  constructor
  · rw [← hcount, Batch.layerCount_eq_card (h.members_pairwise htaken)]
    exact Nat.le_antisymm (distinctLayers_mono fun n hn => (hlayers n).mp hn)
      (distinctLayers_mono fun n hn => (hlayers n).mpr hn)
  · obtain ⟨before, last, hlast⟩ := (List.eq_nil_or_concat' (start :: taken)).resolve_left
      (List.cons_ne_nil start taken)
    have hmem : last ∈ start :: taken := by
      rw [hlast]
      simp
    have hlastTool : last.tool = start.tool := by
      rcases List.mem_cons.mp hmem with rfl | hjoined
      · rfl
      · rw [← htoolOf last (htaken.subset hmem), (hsplits.joins last hjoined).1,
          htoolOf start hstart]
    refine ⟨before, last, next, left, ?_, ?_, ?_, hlastTool, hsame, ?_⟩
    · rw [hsplits.rest_eq (List.pairwise_cons.mp hascending).2 hown, ← List.cons_append, hlast,
        List.append_assoc, List.singleton_append]
    · exact (h.anchor_mem_ofUnits_iff htaken.subset (htaken.subset hmem)).mpr hmem
    · exact List.prefix_append next.members _
    · rwa [hlayers]

/-- Where a tool goes on with the next batch, the batch before has filled the cap, and the unit
that starts the next one stands, on a new layer, right behind a unit of that batch among those
that the batches before do not have. -/
theorem schedule_tool_goes_on (lines : List String) (lineEnding : LineEnding) (nozzle : Nozzle)
    (settings : ClearanceSettings) (cap : Nat) {front back : List Batch} {first second : Batch} :
    let p := ofLines lines lineEnding
    let plan := (Clearance.ofProgram p nozzle settings).schedule cap p.units
    plan.batches = front ++ first :: second :: back → first.tool = second.tool →
      first.layerCount = max cap 1 ∧ ∃ before last next behind,
        p.units.filter (fun u => decide (∀ b ∈ front, u.anchor ∉ b.members)) =
          before ++ last :: next :: behind ∧
        last.anchor ∈ first.members ∧ next.members <+: second.members ∧
        last.tool = first.tool ∧ next.tool = first.tool ∧
        next.anchor.layer ∉ first.members.map SegmentId.layer := by
  intro p plan hplan htool
  have h : Read _ p := read_ofLines lines lineEnding
  have hcap : 1 ≤ max cap 1 := Nat.le_max_right cap 1
  exact h.same_tool_batches hcap List.filter_sublist
    (h.batches_behind hcap (List.Sublist.refl _) hplan) htool

/-- The second tool goes on above the cap. The unit that stands right behind the batch among
those left does not stand right behind it in the program. -/
theorem schedule_tool_goes_on_behind_batch :
    let p := ofLines ["G1 Z0.2", "T0", "G1 X0 Y0 E1", "T1", "G1 X50 E2", "G1 Z0.4", "G1 X51 E3",
      "G1 Z0.6", "T0", "G1 X0 E4", "G1 Z0.8", "T1", "G1 X50 E5"] .lf
    let plan := (Clearance.ofProgram p {} {}).schedule 2 p.units
    ∃ front first second back, plan.batches = front ++ first :: second :: back ∧
      first.tool = second.tool ∧ first.layerCount = 2 ∧ ∃ before last next behind,
        p.units.filter (fun u => decide (∀ b ∈ front, u.anchor ∉ b.members)) =
          before ++ last :: next :: behind ∧
        last.anchor ∈ first.members ∧ next.members <+: second.members := by
  intro p plan
  have hplan : plan.batches =
      [⟨some 0, 1, 3, [⟨1, 0⟩, ⟨1, 1⟩, ⟨3, 0⟩, ⟨3, 1⟩]⟩] ++
        ⟨some 1, 1, 2, [⟨1, 2⟩, ⟨2, 0⟩]⟩ :: ⟨some 1, 4, 4, [⟨4, 0⟩, ⟨4, 1⟩]⟩ :: [] := by
    decide +kernel
  obtain ⟨hcount, before, last, next, behind, hunits, hlast, hnext, -⟩ :=
    schedule_tool_goes_on _ .lf {} {} 2 hplan rfl
  exact ⟨_, _, _, _, hplan, rfl, hcount, before, last, next, behind, hunits, hlast, hnext⟩

/-- A tool goes on with the next batch though the unit in front of the one that starts it has
another tool, and prints three layers in a row under a cap of two. -/
theorem schedule_tool_goes_on_behind_other :
    let p := ofLines ["G1 Z0.2", "T0", "G1 X0 Y0 E1", "T1", "G1 X50 E2", "G1 Z0.4", "G1 X51 E3",
      "G1 Z0.6", "T0", "G1 X0 E4", "G1 Z0.8", "T1", "G1 X50 E5"] .lf
    let plan := (Clearance.ofProgram p {} {}).schedule 2 p.units
    ∃ first ∈ plan.batches[1]?, ∃ second ∈ plan.batches[2]?,
      ∃ other ∈ p.units[3]?, ∃ next ∈ p.units[4]?,
        first.tool = second.tool ∧ next.members <+: second.members ∧ next.tool = second.tool ∧
        other.tool ≠ second.tool ∧ first.layerCount + second.layerCount = 3 := by
  decide +kernel

end Program

end ToolBatching
