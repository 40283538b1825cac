import ToolBatching.Proofs.Scheduling.Units
import ToolBatching.Schedule.Basic

/-!
What the greedy batches are. `Splits` says which pending units a batch takes and which
it leaves, and `Groups` says so for all batches of a schedule, one batch after another.
-/

namespace ToolBatching

namespace Clearance

/-- What happens to the next candidate: it is passed over for its tool, it ends the
batch because it may not join or would be one layer too many, or it joins, on the last
layer or on a new one that the cap admits. -/
theorem extension_cons_cases (c : Clearance) (start : SegmentId) (pending : List SegmentId)
    (cap layers lastLayer : Nat) (candidate : SegmentId) (rest : List SegmentId) :
    (c.tool candidate ≠ c.tool start ∧
      c.extension start pending cap layers lastLayer (candidate :: rest) =
        c.extension start pending cap layers lastLayer rest) ∨
    (c.tool candidate = c.tool start ∧
      (c.canBatch start candidate pending = false ∨
        candidate.layer ≠ lastLayer ∧ cap < layers + 1) ∧
      c.extension start pending cap layers lastLayer (candidate :: rest) = []) ∨
    ∃ reached, c.tool candidate = c.tool start ∧ c.canBatch start candidate pending = true ∧
      (candidate.layer = lastLayer ∧ reached = layers ∨
        candidate.layer ≠ lastLayer ∧ layers + 1 ≤ cap ∧ reached = layers + 1) ∧
      c.extension start pending cap layers lastLayer (candidate :: rest) =
        candidate :: c.extension start pending cap reached candidate.layer rest := by
  rw [extension]
  by_cases htool : c.tool candidate = c.tool start
  · rw [if_neg (not_not_intro htool)]
    by_cases hbatch : c.canBatch start candidate pending = true
    · by_cases hsame : candidate.layer = lastLayer
      · exact Or.inr (Or.inr ⟨layers, htool, hbatch, Or.inl ⟨hsame, rfl⟩, by simp [hsame, hbatch]⟩)
      · by_cases hcap : layers + 1 ≤ cap
        · have hadmitted : decide (cap < layers + 1) = false := by simpa using hcap
          refine Or.inr (Or.inr ⟨layers + 1, htool, hbatch, Or.inr ⟨hsame, hcap, rfl⟩, ?_⟩)
          simp only [hsame, hbatch, hadmitted, if_false, Bool.and_false, Bool.false_eq_true,
            Bool.not_true]
        · have hover : decide (cap < layers + 1) = true := by simpa using hcap
          refine Or.inr (Or.inl ⟨htool, Or.inr ⟨hsame, of_decide_eq_true hover⟩, ?_⟩)
          simp only [hsame, hover, if_false, ne_eq, not_false_eq_true, decide_true,
            Bool.and_self, if_true]
    · exact Or.inr (Or.inl ⟨htool, Or.inl (by simpa using hbatch), by simp [hbatch]⟩)
  · exact Or.inl ⟨htool, if_pos htool⟩

theorem extension_joins (c : Clearance) (start : SegmentId) (pending : List SegmentId)
    (cap layers lastLayer : Nat) (candidates : List SegmentId) :
    ∀ e ∈ c.extension start pending cap layers lastLayer candidates,
      c.tool e = c.tool start ∧ c.canBatch start e pending = true := by
  induction candidates generalizing layers lastLayer with
  | nil => simp [extension]
  | cons candidate rest ih =>
      rcases c.extension_cons_cases start pending cap layers lastLayer candidate rest with
        ⟨-, heq⟩ | ⟨-, -, heq⟩ | ⟨reached, htool, hbatch, -, heq⟩
      · rw [heq]
        exact ih layers lastLayer
      · rw [heq]
        simp
      · rw [heq]
        exact List.forall_mem_cons.mpr ⟨⟨htool, hbatch⟩, ih reached candidate.layer⟩

theorem extension_earlier (c : Clearance) (start : SegmentId) (pending : List SegmentId)
    (cap layers lastLayer : Nat) {candidates : List SegmentId}
    (hascending : candidates.Pairwise (· < ·)) {e earlier : SegmentId}
    (he : e ∈ c.extension start pending cap layers lastLayer candidates)
    (hearlier : earlier ∈ candidates) (hlt : earlier < e) (htool : c.tool earlier = c.tool start) :
    earlier ∈ c.extension start pending cap layers lastLayer candidates := by
  induction candidates generalizing layers lastLayer with
  | nil => exact absurd hearlier (by simp)
  | cons candidate rest ih =>
      obtain ⟨hfirst, hrest⟩ := List.pairwise_cons.mp hascending
      rcases c.extension_cons_cases start pending cap layers lastLayer candidate rest with
        ⟨hother, heq⟩ | ⟨-, -, heq⟩ | ⟨reached, -, -, -, heq⟩
      · rw [heq] at he ⊢
        rcases List.mem_cons.mp hearlier with rfl | hearlier
        · exact absurd htool hother
        · exact ih layers lastLayer hrest he hearlier
      · rw [heq] at he
        exact absurd he (by simp)
      · rw [heq] at he ⊢
        -- Nothing earlier than `candidate` is left, as the candidates ascend.
        rcases List.mem_cons.mp hearlier with rfl | hin
        · exact List.mem_cons_self
        · rcases List.mem_cons.mp he with rfl | he
          · exact absurd hlt (SegmentId.not_lt_of_lt (hfirst earlier hin))
          · exact List.mem_cons_of_mem candidate (ih reached candidate.layer hrest he hin)

theorem extension_layers (c : Clearance) (start : SegmentId) (pending : List SegmentId)
    {cap layers : Nat} (lastLayer : Nat) (hlayers : layers ≤ cap) (candidates : List SegmentId) :
    ∃ fresh : List Nat, fresh.length + layers ≤ cap ∧
      ∀ e ∈ c.extension start pending cap layers lastLayer candidates,
        e.layer = lastLayer ∨ e.layer ∈ fresh := by
  induction candidates generalizing layers lastLayer with
  | nil => exact ⟨[], by simpa using hlayers, by simp [extension]⟩
  | cons candidate rest ih =>
      rcases c.extension_cons_cases start pending cap layers lastLayer candidate rest with
        ⟨-, heq⟩ | ⟨-, -, heq⟩ | ⟨reached, -, -, ⟨hsame, rfl⟩ | ⟨-, hcap, rfl⟩, heq⟩
      · rw [heq]
        exact ih lastLayer hlayers
      · rw [heq]
        exact ⟨[], by simpa using hlayers, by simp⟩
      · obtain ⟨fresh, hlength, hfresh⟩ := ih candidate.layer hlayers
        rw [heq]
        refine ⟨fresh, hlength, List.forall_mem_cons.mpr ⟨Or.inl hsame, ?_⟩⟩
        rwa [hsame] at hfresh ⊢
      · obtain ⟨fresh, hlength, hfresh⟩ := ih candidate.layer hcap
        rw [heq]
        refine ⟨candidate.layer :: fresh, by rw [List.length_cons]; omega,
          List.forall_mem_cons.mpr ⟨Or.inr List.mem_cons_self, fun e he => Or.inr ?_⟩⟩
        exact List.mem_cons.mpr (hfresh e he)

/-- What a batch takes of the pending units that `start` begins, and what it leaves. -/
structure Splits (c : Clearance) (cap : Nat) (start : PrintUnit)
    (rest taken left : List PrintUnit) : Prop where
  perm : (taken ++ left).Perm rest
  taken_sublist : taken.Sublist rest
  left_sublist : left.Sublist rest
  joins : ∀ u ∈ taken, c.tool u.anchor = c.tool start.anchor ∧
    c.canBatch start.anchor u.anchor ((start :: rest).map PrintUnit.anchor) = true
  earlier : ∀ u ∈ taken, ∀ v ∈ rest, v.anchor < u.anchor →
    c.tool v.anchor = c.tool start.anchor → v ∈ taken
  layers : ∃ fresh : List Nat, fresh.length + 1 ≤ cap ∧
    ∀ u ∈ taken, u.anchor.layer = start.anchor.layer ∨ u.anchor.layer ∈ fresh

theorem splitBatch_eq (c : Clearance) (cap : Nat) (start : PrintUnit) (rest : List PrintUnit) :
    c.splitBatch cap start rest =
      (start :: rest.filter fun u =>
          (c.extendBatch start.anchor ((start :: rest).map PrintUnit.anchor) cap).contains u.anchor,
        rest.filter fun u =>
          !(c.extendBatch start.anchor
            ((start :: rest).map PrintUnit.anchor) cap).contains u.anchor) := by
  simp only [splitBatch, List.partition_eq_filter_filter]
  rfl

theorem splits_splitBatch (c : Clearance) {cap : Nat} (hcap : 1 ≤ cap) {start : PrintUnit}
    {rest : List PrintUnit}
    (hascending : ((start :: rest).map PrintUnit.anchor).Pairwise (· < ·)) :
    ∃ taken left, c.splitBatch cap start rest = (start :: taken, left) ∧
      c.Splits cap start rest taken left := by
  obtain ⟨hstart, hrest⟩ := List.pairwise_cons.mp hascending
  have hcandidates : ((start :: rest).map PrintUnit.anchor).filter
      (fun p => decide (start.anchor < p)) = rest.map PrintUnit.anchor := by
    rw [List.map_cons, List.filter_cons_of_neg (by simpa using SegmentId.not_lt_self _),
      List.filter_eq_self]
    intro a ha
    simpa using hstart a ha
  have hanchors (u : PrintUnit) (hu : u ∈ rest) :
      u.anchor ∈ c.extendBatch start.anchor ((start :: rest).map PrintUnit.anchor) cap ↔
        u.anchor ∈ c.extension start.anchor ((start :: rest).map PrintUnit.anchor) cap 1
          start.anchor.layer (rest.map PrintUnit.anchor) := by
    rw [extendBatch, hcandidates, List.mem_cons, or_iff_right]
    exact (SegmentId.ne_of_lt (hstart u.anchor (List.mem_map_of_mem hu))).symm
  obtain ⟨fresh, hlength, hfresh⟩ := c.extension_layers start.anchor
    ((start :: rest).map PrintUnit.anchor) start.anchor.layer hcap (rest.map PrintUnit.anchor)
  refine ⟨_, _, c.splitBatch_eq cap start rest, ?_⟩
  exact {
    perm := List.filter_append_perm _ rest
    taken_sublist := List.filter_sublist
    left_sublist := List.filter_sublist
    joins := by
      intro u hu
      obtain ⟨hmem, htaken⟩ := List.mem_filter.mp hu
      exact c.extension_joins _ _ _ _ _ _ _ ((hanchors u hmem).mp (by simpa using htaken))
    earlier := by
      intro u hu v hv hlt htool
      obtain ⟨hmem, htaken⟩ := List.mem_filter.mp hu
      have hjoined := c.extension_earlier start.anchor _ cap 1 start.anchor.layer hrest
        ((hanchors u hmem).mp (by simpa using htaken)) (List.mem_map_of_mem hv) hlt htool
      exact List.mem_filter.mpr ⟨hv, by simpa using (hanchors v hv).mpr hjoined⟩
    layers := by
      refine ⟨fresh, hlength, ?_⟩
      intro u hu
      obtain ⟨hmem, htaken⟩ := List.mem_filter.mp hu
      exact hfresh _ ((hanchors u hmem).mp (by simpa using htaken)) }

end Clearance

def Batch.ofUnits (units : List PrintUnit) : Batch :=
  .ofMembers (units.head?.bind PrintUnit.tool) (units.flatMap PrintUnit.members)

namespace Clearance

/-- The units of the batches of a schedule, one batch after another. -/
inductive Groups (c : Clearance) (cap : Nat) : List PrintUnit → List (List PrintUnit) → Prop where
  | nil : Groups c cap [] []
  | cons {start : PrintUnit} {rest taken left : List PrintUnit} {groups : List (List PrintUnit)} :
      c.Splits cap start rest taken left → Groups c cap left groups →
        Groups c cap (start :: rest) ((start :: taken) :: groups)

theorem groups_batches (c : Clearance) {cap : Nat} (hcap : 1 ≤ cap) (pending : List PrintUnit)
    (hascending : (pending.map PrintUnit.anchor).Pairwise (· < ·)) :
    ∃ groups, c.Groups cap pending groups ∧ c.batches cap pending = groups.map Batch.ofUnits := by
  fun_induction c.batches cap pending with
  | case1 => exact ⟨[], .nil, rfl⟩
  | case2 start rest parts ih =>
      obtain ⟨taken, left, hsplit, hsplits⟩ := c.splits_splitBatch hcap hascending
      have hleft : (left.map PrintUnit.anchor).Pairwise (· < ·) :=
        (List.pairwise_cons.mp hascending).2.sublist (hsplits.left_sublist.map _)
      simp only [parts, hsplit] at ih ⊢
      obtain ⟨groups, hgroups, hbatches⟩ := ih hleft
      refine ⟨_, .cons hsplits hgroups, ?_⟩
      rw [hbatches]
      rfl

namespace Groups

variable {c : Clearance} {cap : Nat} {pending : List PrintUnit} {groups : List (List PrintUnit)}

theorem perm (h : c.Groups cap pending groups) : groups.flatten.Perm pending := by
  induction h with
  | nil => exact List.Perm.nil
  | @cons start rest taken left groups hsplits _ ih =>
      rw [List.flatten_cons, List.cons_append]
      exact ((ih.append_left taken).trans hsplits.perm).cons start

theorem exists_splits (h : c.Groups cap pending groups) {group : List PrintUnit}
    (hgroup : group ∈ groups) :
    ∃ start rest taken left, group = start :: taken ∧ (start :: rest).Sublist pending ∧
      c.Splits cap start rest taken left := by
  induction h with
  | nil => exact absurd hgroup (by simp)
  | @cons start rest taken left groups hsplits _ ih =>
      rcases List.mem_cons.mp hgroup with rfl | hgroup
      · exact ⟨start, rest, taken, left, rfl, List.Sublist.refl _, hsplits⟩
      · obtain ⟨start', rest', taken', left', heq, hsub, hsplits'⟩ := ih hgroup
        exact ⟨start', rest', taken', left', heq,
          (hsub.trans hsplits.left_sublist).trans (List.sublist_cons_self start rest), hsplits'⟩

theorem ne_nil (h : c.Groups cap pending groups) : ∀ group ∈ groups, group ≠ [] := by
  intro group hgroup
  obtain ⟨start, rest, taken, left, rfl, -, -⟩ := h.exists_splits hgroup
  simp

theorem starts_sublist (h : c.Groups cap pending groups) :
    (groups.filterMap List.head?).Sublist pending := by
  induction h with
  | nil => exact List.Sublist.slnil
  | @cons start rest taken left groups hsplits _ ih =>
      exact (ih.trans hsplits.left_sublist).cons_cons start

end Groups

end Clearance

end ToolBatching
