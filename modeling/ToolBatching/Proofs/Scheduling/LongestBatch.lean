import Mathlib.Data.Finset.Card
import ToolBatching.Proofs.Scheduling.Batches
import ToolBatching.Program.Layout

/-!
How far a batch extends. Of the pending segments of its tool it takes the longest prefix whose
segments may all join and stay within the cap together, so a smaller cap only cuts it short.
-/

namespace ToolBatching

/-- The longest prefix of a list among those with a property. -/
structure IsLongestPrefix {α : Type} (fits : List α → Prop) (xs taken : List α) : Prop where
  isPrefix : taken <+: xs
  holds : fits taken
  longest : ∀ other, other <+: xs → fits other → other <+: taken

namespace IsLongestPrefix

variable {α : Type} {fits : List α → Prop} {a : α} {xs taken : List α}

theorem nil (h : fits []) : IsLongestPrefix fits [] [] :=
  ⟨List.prefix_rfl, h, fun _ hother _ => hother⟩

theorem stop (h : fits []) (hfirst : ∀ other, ¬ fits (a :: other)) :
    IsLongestPrefix fits (a :: xs) [] := by
  refine ⟨List.nil_prefix, h, fun other hother hfits => ?_⟩
  cases other with
  | nil => exact List.prefix_rfl
  | cons b other =>
      obtain ⟨rfl, -⟩ := List.cons_prefix_cons.mp hother
      exact absurd hfits (hfirst other)

theorem cons (h : IsLongestPrefix (fun other => fits (a :: other)) xs taken) :
    IsLongestPrefix fits (a :: xs) (a :: taken) := by
  refine ⟨List.cons_prefix_cons.mpr ⟨rfl, h.isPrefix⟩, h.holds, fun other hother hfits => ?_⟩
  cases other with
  | nil => exact List.nil_prefix
  | cons b other =>
      obtain ⟨rfl, hrest⟩ := List.cons_prefix_cons.mp hother
      exact List.cons_prefix_cons.mpr ⟨rfl, h.longest other hrest hfits⟩

theorem congr {fits' : List α → Prop} (h : IsLongestPrefix fits xs taken)
    (hfits : ∀ other, fits other ↔ fits' other) : IsLongestPrefix fits' xs taken :=
  ⟨h.isPrefix, (hfits taken).mp h.holds, fun other hother hfits' =>
    h.longest other hother ((hfits other).mpr hfits')⟩

end IsLongestPrefix

/-- How many distinct layers segments stand on. -/
def distinctLayers (ids : List SegmentId) : Nat :=
  (ids.map SegmentId.layer).toFinset.card

section distinctLayers

variable {ids more : List SegmentId} {id : SegmentId}

theorem distinctLayers_mono (h : ids.map SegmentId.layer ⊆ more.map SegmentId.layer) :
    distinctLayers ids ≤ distinctLayers more := by
  refine Finset.card_le_card fun n hn => ?_
  rw [List.mem_toFinset] at hn ⊢
  exact h hn

theorem distinctLayers_concat_of_mem (h : id.layer ∈ ids.map SegmentId.layer) :
    distinctLayers (ids ++ [id]) = distinctLayers ids := by
  unfold distinctLayers
  congr 1
  ext n
  simp only [List.map_append, List.map_cons, List.map_nil, List.mem_toFinset, List.mem_append,
    List.mem_singleton, or_iff_left_iff_imp]
  rintro rfl
  exact h

theorem distinctLayers_concat_of_notMem (h : id.layer ∉ ids.map SegmentId.layer) :
    distinctLayers (ids ++ [id]) = distinctLayers ids + 1 := by
  unfold distinctLayers
  rw [List.map_append, List.map_singleton, List.toFinset_append, List.toFinset_cons,
    List.toFinset_nil, Finset.union_insert, Finset.union_empty,
    Finset.card_insert_of_notMem (by rwa [List.mem_toFinset])]

theorem length_eraseReps_loop {first : Nat} {ns before : List Nat}
    (h : (first :: ns).Pairwise (· ≤ ·)) :
    (List.eraseRepsBy.loop (· == ·) first ns before).length =
      before.length + (first :: ns).toFinset.card := by
  induction ns generalizing first before with
  | nil => simp [List.eraseRepsBy.loop]
  | cons n ns ih =>
      obtain ⟨hbelow, habove⟩ := List.pairwise_cons.mp h
      rw [List.eraseRepsBy.loop]
      by_cases hsame : first = n
      · subst hsame
        rw [beq_self_eq_true]
        simp only [ih habove, List.toFinset_cons, Finset.insert_idem]
      · have hfresh : first ∉ (n :: ns).toFinset := by
          intro hmem
          have hle := hbelow n List.mem_cons_self
          rcases List.mem_cons.mp (List.mem_toFinset.mp hmem) with rfl | hin
          · exact hsame rfl
          · have := (List.pairwise_cons.mp habove).1 first hin
            omega
        rw [beq_eq_false_iff_ne.mpr hsame]
        simp only
        have hinsert : (first :: n :: ns).toFinset = insert first (n :: ns).toFinset :=
          List.toFinset_cons
        rw [ih habove, hinsert, Finset.card_insert_of_notMem hfresh, List.length_cons]
        omega

theorem length_eraseReps_eq_distinctLayers
    (h : (ids.map SegmentId.layer).Pairwise (· ≤ ·)) :
    (ids.map SegmentId.layer).eraseReps.length = distinctLayers ids := by
  unfold distinctLayers
  cases hlayers : ids.map SegmentId.layer with
  | nil => rfl
  | cons first rest =>
      rw [hlayers] at h
      exact (length_eraseReps_loop h).trans (Nat.zero_add _)

end distinctLayers

/-- Segments on `layers` layers, the highest of which is `lastLayer`. -/
structure Covers (soFar : List SegmentId) (layers lastLayer : Nat) : Prop where
  count : distinctLayers soFar = layers
  last : lastLayer ∈ soFar.map SegmentId.layer
  below : ∀ n ∈ soFar.map SegmentId.layer, n ≤ lastLayer

section Covers

variable {soFar : List SegmentId} {layers lastLayer : Nat} {id : SegmentId}

theorem covers_singleton (id : SegmentId) : Covers [id] 1 id.layer :=
  ⟨rfl, List.mem_cons_self, by simp⟩

theorem Covers.below_concat (h : Covers soFar layers lastLayer) (hle : lastLayer ≤ id.layer) :
    ∀ n ∈ (soFar ++ [id]).map SegmentId.layer, n ≤ id.layer := by
  rw [List.map_append, List.forall_mem_append, List.map_singleton, List.forall_mem_singleton]
  exact ⟨fun n hn => (h.below n hn).trans hle, Nat.le_refl _⟩

theorem Covers.concat_same (h : Covers soFar layers lastLayer) (hsame : id.layer = lastLayer) :
    Covers (soFar ++ [id]) layers id.layer where
  count := by
    rw [distinctLayers_concat_of_mem (by rw [hsame]; exact h.last)]
    exact h.count
  last := by simp
  below := h.below_concat (Nat.le_of_eq hsame.symm)

theorem Covers.concat_new (h : Covers soFar layers lastLayer) (hle : lastLayer ≤ id.layer)
    (hdiffer : id.layer ≠ lastLayer) : Covers (soFar ++ [id]) (layers + 1) id.layer where
  count := by
    rw [distinctLayers_concat_of_notMem, h.count]
    intro hmem
    have := h.below _ hmem
    omega
  last := by simp
  below := h.below_concat hle

end Covers

namespace Clearance

/-- The pending segments behind `start` that have its tool. -/
def candidates (c : Clearance) (start : SegmentId) (pending : List SegmentId) : List SegmentId :=
  pending.filter fun p => decide (start < p) && decide (c.tool p = c.tool start)

/-- Segments that may join the batch of `start` together. -/
structure Admits (c : Clearance) (start : SegmentId) (pending : List SegmentId) (cap : Nat)
    (members : List SegmentId) : Prop where
  joins : ∀ e ∈ members, c.canBatch start e pending = true
  layers : distinctLayers (start :: members) ≤ cap

/-- The extension behind segments that a batch has so far is the longest that fits behind
them. -/
theorem extension_isLongestPrefix (c : Clearance) (start : SegmentId) (pending : List SegmentId)
    {cap layers lastLayer : Nat} {soFar rest : List SegmentId}
    (hcovers : Covers soFar layers lastLayer) (hcap : layers ≤ cap)
    (hrest : (lastLayer :: rest.map SegmentId.layer).Pairwise (· ≤ ·)) :
    IsLongestPrefix
      (fun members => (∀ e ∈ members, c.canBatch start e pending = true) ∧
        distinctLayers (soFar ++ members) ≤ cap)
      (rest.filter fun p => decide (c.tool p = c.tool start))
      (c.extension start pending cap layers lastLayer rest) := by
  have hnone : (∀ e ∈ ([] : List SegmentId), c.canBatch start e pending = true) ∧
      distinctLayers (soFar ++ []) ≤ cap := by
    rw [List.append_nil, hcovers.count]
    exact ⟨by simp, hcap⟩
  induction rest generalizing layers lastLayer soFar with
  | nil => exact .nil hnone
  | cons candidate rest ih =>
      obtain ⟨hbelow, habove⟩ := List.pairwise_cons.mp hrest
      have hle : lastLayer ≤ candidate.layer := hbelow _ List.mem_cons_self
      rcases c.extension_cons_cases start pending cap layers lastLayer candidate rest with
        ⟨hother, heq⟩ | ⟨htool, hstops, heq⟩ | ⟨reached, htool, hbatch, hreached, heq⟩
      · rw [heq, List.filter_cons_of_neg (by simpa using hother)]
        refine ih hcovers hcap (List.pairwise_cons.mpr ⟨fun n hn => ?_, ?_⟩) hnone
        · exact hbelow n (List.mem_cons_of_mem _ hn)
        · exact (List.pairwise_cons.mp habove).2
      · rw [heq, List.filter_cons_of_pos (by simpa using htool)]
        refine .stop hnone fun other hfits => ?_
        obtain ⟨hjoins, hcovered⟩ := hfits
        rcases hstops with hblocked | ⟨hdiffer, hover⟩
        · rw [hjoins candidate List.mem_cons_self] at hblocked
          exact absurd hblocked (by decide)
        · have hmono : distinctLayers (soFar ++ [candidate]) ≤
              distinctLayers (soFar ++ candidate :: other) :=
            distinctLayers_mono (List.map_subset _ (by simp))
          rw [(hcovers.concat_new hle hdiffer).count] at hmono
          omega
      · rw [heq, List.filter_cons_of_pos (by simpa using htool)]
        obtain ⟨hnext, hadmitted⟩ :
            Covers (soFar ++ [candidate]) reached candidate.layer ∧ reached ≤ cap := by
          rcases hreached with ⟨hsame, rfl⟩ | ⟨hdiffer, hadmitted, rfl⟩
          · exact ⟨hcovers.concat_same hsame, hcap⟩
          · exact ⟨hcovers.concat_new hle hdiffer, hadmitted⟩
        have hcandidate : distinctLayers ((soFar ++ [candidate]) ++ []) ≤ cap := by
          rwa [List.append_nil, hnext.count]
        refine ((ih hnext hadmitted habove ⟨by simp, hcandidate⟩).congr fun members => ?_).cons
        simp only [List.append_assoc, List.singleton_append, List.forall_mem_cons, hbatch,
          true_and]

theorem extendBatch_eq_cons_longest (c : Clearance) (start : SegmentId) {pending : List SegmentId}
    (hpending : pending.Pairwise (· < ·)) {cap : Nat} (hcap : 1 ≤ cap) :
    ∃ taken, c.extendBatch start pending cap = start :: taken ∧
      IsLongestPrefix (c.Admits start pending cap) (c.candidates start pending) taken := by
  refine ⟨_, rfl, ?_⟩
  have hascending : (start.layer ::
      (pending.filter fun p => decide (start < p)).map SegmentId.layer).Pairwise (· ≤ ·) := by
    refine List.pairwise_cons.mpr ⟨fun n hn => ?_, ?_⟩
    · obtain ⟨id, hid, rfl⟩ := List.mem_map.mp hn
      exact SegmentId.layer_le_of_lt (by simpa using (List.mem_filter.mp hid).2)
    · exact List.pairwise_map.mpr ((hpending.filter _).imp SegmentId.layer_le_of_lt)
  have hlongest := c.extension_isLongestPrefix start pending (covers_singleton start) hcap
    hascending
  rw [List.filter_filter] at hlongest
  have hcandidates : c.candidates start pending = pending.filter fun p =>
      decide (c.tool p = c.tool start) && decide (start < p) :=
    List.filter_congr fun p _ => Bool.and_comm _ _
  rw [hcandidates]
  exact hlongest.congr fun members =>
    ⟨fun h => ⟨h.1, h.2⟩, fun h => ⟨h.joins, h.layers⟩⟩

theorem pairwise_layers_extendBatch (c : Clearance) (start : SegmentId) {pending : List SegmentId}
    (hpending : pending.Pairwise (· < ·)) {cap : Nat} (hcap : 1 ≤ cap) :
    ((c.extendBatch start pending cap).map SegmentId.layer).Pairwise (· ≤ ·) := by
  obtain ⟨taken, heq, hlongest⟩ := c.extendBatch_eq_cons_longest start hpending hcap
  have hsub := hlongest.isPrefix.sublist
  rw [heq, List.map_cons, List.pairwise_cons]
  refine ⟨fun n hn => ?_, ?_⟩
  · obtain ⟨id, hid, rfl⟩ := List.mem_map.mp hn
    have := (List.mem_filter.mp (hsub.subset hid)).2
    rw [Bool.and_eq_true, decide_eq_true_eq] at this
    exact SegmentId.layer_le_of_lt this.1
  · exact List.pairwise_map.mpr
      (((hpending.filter _).sublist hsub).imp SegmentId.layer_le_of_lt)

theorem extendBatch_prefix (c : Clearance) (start : SegmentId) {pending : List SegmentId}
    (hpending : pending.Pairwise (· < ·)) {cap larger : Nat} (hcap : 1 ≤ cap)
    (hle : cap ≤ larger) :
    c.extendBatch start pending cap <+: c.extendBatch start pending larger := by
  obtain ⟨taken, heq, hlongest⟩ := c.extendBatch_eq_cons_longest start hpending hcap
  obtain ⟨more, heq', hlongest'⟩ :=
    c.extendBatch_eq_cons_longest start hpending (hcap.trans hle)
  rw [heq, heq', List.cons_prefix_cons]
  exact ⟨rfl, hlongest'.longest taken hlongest.isPrefix
    ⟨hlongest.holds.joins, hlongest.holds.layers.trans hle⟩⟩

/-- The batch that a segment begins is the longest safe one: the segment and the longest prefix
of the pending candidates that may all join and keeps within the cap. A smaller cap cuts it
short, and its size is the number of its layers. -/
theorem extendBatch_longest (c : Clearance) (start : SegmentId) {pending : List SegmentId}
    (hpending : pending.Pairwise (· < ·)) {cap : Nat} (hcap : 1 ≤ cap) :
    (∃ taken, c.extendBatch start pending cap = start :: taken ∧
      IsLongestPrefix (c.Admits start pending cap) (c.candidates start pending) taken) ∧
    (∀ larger, cap ≤ larger →
      c.extendBatch start pending cap <+: c.extendBatch start pending larger) ∧
    c.maxBatchSize start pending cap = distinctLayers (c.extendBatch start pending cap) ∧
    c.maxBatchSize start pending cap ≤ cap := by
  have hsize : c.maxBatchSize start pending cap =
      distinctLayers (c.extendBatch start pending cap) :=
    length_eraseReps_eq_distinctLayers (c.pairwise_layers_extendBatch start hpending hcap)
  have hlongest := c.extendBatch_eq_cons_longest start hpending hcap
  refine ⟨hlongest, fun larger hle => c.extendBatch_prefix start hpending hcap hle, hsize, ?_⟩
  obtain ⟨taken, heq, htaken⟩ := hlongest
  rw [hsize, heq]
  exact htaken.holds.layers

/-- The first tool prints on three layers and a batch may cover two of them; the other tool
prints beside it. -/
theorem extendBatch_longest_two_of_three :
    let p := Program.ofLines ["G1 Z0.2", "T0", "G1 X0 E1", "T1", "G1 X50 E2", "G1 Z0.4", "T0",
      "G1 X1 E3", "T1", "G1 X50 E4", "G1 Z0.6", "T0", "G1 X2 E5"] .lf
    let c := ofProgram p {} {}
    let pending := p.units.map PrintUnit.anchor
    pending.Pairwise (· < ·) ∧ c.candidates ⟨1, 1⟩ pending = [⟨2, 1⟩, ⟨3, 1⟩] ∧
      c.extendBatch ⟨1, 1⟩ pending 2 = [⟨1, 1⟩, ⟨2, 1⟩] ∧
      IsLongestPrefix (c.Admits ⟨1, 1⟩ pending 2) (c.candidates ⟨1, 1⟩ pending) [⟨2, 1⟩] ∧
      c.extendBatch ⟨1, 1⟩ pending 2 <+: c.extendBatch ⟨1, 1⟩ pending 3 ∧
      c.maxBatchSize ⟨1, 1⟩ pending 2 ≤ 2 := by
  intro p c pending
  obtain ⟨hpending, hcandidates, hbatch⟩ : pending.Pairwise (· < ·) ∧
      c.candidates ⟨1, 1⟩ pending = [⟨2, 1⟩, ⟨3, 1⟩] ∧
      c.extendBatch ⟨1, 1⟩ pending 2 = [⟨1, 1⟩, ⟨2, 1⟩] := by
    decide +kernel
  obtain ⟨⟨taken, heq, hlongest⟩, hprefix, -, hsize⟩ :=
    c.extendBatch_longest ⟨1, 1⟩ hpending (show 1 ≤ 2 by decide)
  obtain ⟨-, rfl⟩ := List.cons_eq_cons.mp (hbatch.symm.trans heq)
  exact ⟨hpending, hcandidates, hbatch, hlongest, hprefix 3 (by decide), hsize⟩

end Clearance

end ToolBatching
