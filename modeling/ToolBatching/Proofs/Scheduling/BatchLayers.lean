import Mathlib.Data.Finset.Card
import Mathlib.Data.List.SplitBy
import Mathlib.Order.Bounds.Basic
import ToolBatching.Proofs.Reading.Program
import ToolBatching.Schedule.Plan

namespace ToolBatching

namespace Batch

theorem isLeast_firstLayer (tool : Option Tool) {members : List SegmentId} (hne : members ≠ [])
    (hascending : members.Pairwise (· < ·)) :
    IsLeast { n | n ∈ members.map SegmentId.layer } (ofMembers tool members).firstLayer := by
  cases members with
  | nil => exact absurd rfl hne
  | cons m rest =>
      refine ⟨by simp [ofMembers], fun n hn => ?_⟩
      obtain ⟨id, hid, rfl⟩ := List.mem_map.mp hn
      rcases List.mem_cons.mp hid with rfl | hid
      · exact Nat.le_refl _
      · exact SegmentId.layer_le_of_lt ((List.pairwise_cons.mp hascending).1 id hid)

theorem isGreatest_lastLayer (tool : Option Tool) {members : List SegmentId} (hne : members ≠ [])
    (hascending : members.Pairwise (· < ·)) :
    IsGreatest { n | n ∈ members.map SegmentId.layer } (ofMembers tool members).lastLayer := by
  rcases List.eq_nil_or_concat members with rfl | ⟨front, m, rfl⟩
  · exact absurd rfl hne
  · have hlast : (ofMembers tool (front.concat m)).lastLayer = m.layer := by
      simp [ofMembers]
    rw [hlast]
    refine ⟨by simp, fun n hn => ?_⟩
    obtain ⟨id, hid, rfl⟩ := List.mem_map.mp hn
    rw [List.concat_eq_append] at hid hascending
    rcases List.mem_append.mp hid with hid | hid
    · exact SegmentId.layer_le_of_lt
        ((List.pairwise_append.mp hascending).2.2 id hid m List.mem_cons_self)
    · obtain rfl := List.mem_singleton.mp hid
      exact Nat.le_refl _

theorem layer_eq_of_isChain {visit : List SegmentId}
    (h : visit.IsChain fun s t => (s.layer == t.layer) = true) {place : Nat}
    (hplace : ∀ s ∈ visit.head?, s.layer = place) : ∀ s ∈ visit, s.layer = place := by
  induction visit with
  | nil => simp
  | cons first rest ih =>
      have hfirst := hplace first rfl
      obtain ⟨hnext, hrest⟩ := List.isChain_cons.mp h
      refine List.forall_mem_cons.mpr ⟨hfirst, ih hrest fun s hs => ?_⟩
      exact (beq_iff_eq.mp (hnext s hs)).symm.trans hfirst

theorem layer_lt_of_next {visit : List SegmentId} {rest : List (List SegmentId)}
    (hnext : ∀ w ∈ rest.head?, ∃ hv hw,
      ((visit.getLast hv).layer == (w.head hw).layer) = false)
    (hne : [] ∉ rest) (hrest : rest.flatten.Pairwise (· < ·))
    (hacross : ∀ s ∈ visit, ∀ t ∈ rest.flatten, s < t) {place : Nat}
    (hplace : ∀ s ∈ visit, s.layer = place) : ∀ t ∈ rest.flatten, place < t.layer := by
  cases rest with
  | nil => simp
  | cons w more =>
      obtain ⟨hv, hw, hdiffer⟩ := hnext w rfl
      obtain ⟨first, w, rfl⟩ := List.exists_cons_of_ne_nil hw
      have hlast := hplace _ (List.getLast_mem hv)
      have hle := SegmentId.layer_le_of_lt
        (hacross _ (List.getLast_mem hv) first (by simp))
      have hlt : place < first.layer := by
        have hdistinct : (visit.getLast hv).layer ≠ first.layer := by
          simpa using hdiffer
        omega
      intro t ht
      rw [List.flatten_cons, List.cons_append] at ht hrest
      rcases List.mem_cons.mp ht with rfl | ht
      · exact hlt
      · have := SegmentId.layer_le_of_lt ((List.pairwise_cons.mp hrest).1 t ht)
        omega

/-- Visits of ascending segments are as many as their layers. -/
theorem length_visits_eq_card {visits : List (List SegmentId)} (hne : [] ∉ visits)
    (hsame : ∀ v ∈ visits, v.IsChain fun s t => (s.layer == t.layer) = true)
    (hdiffer : visits.IsChain fun v w => ∃ hv hw,
      ((v.getLast hv).layer == (w.head hw).layer) = false)
    (hascending : visits.flatten.Pairwise (· < ·)) :
    visits.length = (visits.flatten.map SegmentId.layer).toFinset.card := by
  induction visits with
  | nil => rfl
  | cons visit rest ih =>
      obtain ⟨hvisit, hrestSame⟩ := List.forall_mem_cons.mp hsame
      obtain ⟨hnext, hrestDiffer⟩ := List.isChain_cons.mp hdiffer
      rw [List.flatten_cons, List.pairwise_append] at hascending
      obtain ⟨-, hrest, hacross⟩ := hascending
      have hrestNe : [] ∉ rest := by
        intro hmem
        exact hne (List.mem_cons_of_mem visit hmem)
      have hvisitNe : visit ≠ [] := by
        rintro rfl
        exact hne List.mem_cons_self
      obtain ⟨first, more, rfl⟩ := List.exists_cons_of_ne_nil hvisitNe
      have hplace : ∀ s ∈ first :: more, s.layer = first.layer :=
        layer_eq_of_isChain hvisit (by simp)
      have hhigher := layer_lt_of_next hnext hrestNe hrest hacross hplace
      have hlayers : ((first :: more ++ rest.flatten).map SegmentId.layer).toFinset =
          insert first.layer (rest.flatten.map SegmentId.layer).toFinset := by
        ext n
        simp only [List.mem_toFinset, List.mem_map, Finset.mem_insert, List.mem_append]
        constructor
        · rintro ⟨s, hs | hs, rfl⟩
          · exact Or.inl (hplace s hs)
          · exact Or.inr ⟨s, hs, rfl⟩
        · rintro (rfl | ⟨s, hs, rfl⟩)
          · exact ⟨first, Or.inl List.mem_cons_self, rfl⟩
          · exact ⟨s, Or.inr hs, rfl⟩
      have hfresh : first.layer ∉ (rest.flatten.map SegmentId.layer).toFinset := by
        simp only [List.mem_toFinset, List.mem_map, not_exists, not_and]
        intro s hs heq
        exact Nat.ne_of_gt (hhigher s hs) heq
      rw [List.length_cons, ih hrestNe hrestSame hrestDiffer hrest, List.flatten_cons, hlayers,
        Finset.card_insert_of_notMem hfresh]

theorem layerCount_eq_card {b : Batch} (hascending : b.members.Pairwise (· < ·)) :
    b.layerCount = (b.members.map SegmentId.layer).toFinset.card := by
  have hcard := length_visits_eq_card (List.nil_notMem_splitBy _ b.members)
    (fun v hv => List.isChain_of_mem_splitBy hv)
    (List.isChain_getLast_head_splitBy (fun s t => s.layer == t.layer) b.members)
    (by rwa [List.flatten_splitBy])
  rw [List.flatten_splitBy] at hcard
  exact hcard

end Batch

end ToolBatching
