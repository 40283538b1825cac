import Mathlib.Data.List.SplitBy
import ToolBatching.Body.Writer
import ToolBatching.Proofs.Scheduling.BatchLayers

namespace ToolBatching

theorem eq_ok_of_mem_toOption {α ε : Type} {result : Except ε α} {a : α}
    (h : a ∈ result.toOption) : result = .ok a := by
  cases result with
  | error fault => simp [Except.toOption] at h
  | ok b => simpa [Except.toOption] using h

theorem forall₂_of_mapM {α β ε : Type} {f : α → Except ε β} {xs : List α} {ys : List β}
    (h : xs.mapM f = .ok ys) : List.Forall₂ (fun x y => f x = .ok y) xs ys := by
  induction xs generalizing ys with
  | nil =>
      obtain rfl : [] = ys := Except.ok.inj h
      exact .nil
  | cons x xs ih =>
      rw [List.mapM_cons] at h
      cases hx : f x with
      | error fault => simp [hx, bind, Except.bind] at h
      | ok y =>
          cases hrest : xs.mapM f with
          | error fault => simp [hx, hrest, bind, Except.bind] at h
          | ok rest =>
              rw [hx, hrest] at h
              obtain rfl : y :: rest = ys := Except.ok.inj h
              exact .cons hx (ih hrest)

theorem exists_of_mem_forall₂ {α β : Type} {related : α → β → Prop} {xs : List α} {ys : List β}
    (h : List.Forall₂ related xs ys) {y : β} (hy : y ∈ ys) : ∃ x ∈ xs, related x y := by
  induction h with
  | nil => exact absurd hy (by simp)
  | @cons x y' xs ys hxy _ ih =>
      rcases List.mem_cons.mp hy with rfl | hy
      · exact ⟨x, List.mem_cons_self, hxy⟩
      · obtain ⟨x', hx', hrelated⟩ := ih hy
        exact ⟨x', List.mem_cons_of_mem x hx', hrelated⟩

theorem prefix_drop_of_continues {segments rest : List Segment} {first : Segment}
    (hplaces : ∀ s ∈ first :: rest, segments[s.id.ordinal]? = some s)
    (hchain : (first :: rest).IsChain fun s t => Visit.continues s t = true) :
    first :: rest <+: segments.drop first.id.ordinal := by
  induction rest generalizing first with
  | nil =>
      obtain ⟨hlt, heq⟩ := List.getElem?_eq_some_iff.mp (hplaces first List.mem_cons_self)
      rw [List.drop_eq_getElem_cons hlt, heq, List.cons_prefix_cons]
      exact ⟨rfl, List.nil_prefix⟩
  | cons next rest ih =>
      obtain ⟨hfirst, hrest⟩ := List.forall_mem_cons.mp hplaces
      obtain ⟨hcontinues, hchain⟩ := List.isChain_cons_cons.mp hchain
      obtain ⟨hlt, heq⟩ := List.getElem?_eq_some_iff.mp hfirst
      rw [List.drop_eq_getElem_cons hlt, heq, List.cons_prefix_cons, beq_iff_eq.mp hcontinues]
      exact ⟨rfl, ih hrest hchain⟩

/-- The segments of a visit stand in its layer at their places. -/
structure Visit.OfLayer (p : Program) (v : Visit) : Prop where
  layer : v.layer ∈ p.layers
  segments : ∀ s ∈ v.segments, v.layer.segments[s.id.ordinal]? = some s

namespace Visit

theorem flatten_runs (v : Visit) : v.runs.flatten = v.segments :=
  List.flatten_splitBy _ v.segments

theorem mem_segments_of_mem_run {v : Visit} {run : List Segment} (hrun : run ∈ v.runs)
    {s : Segment} (hs : s ∈ run) : s ∈ v.segments := by
  rw [← v.flatten_runs]
  exact List.mem_flatten.mpr ⟨run, hrun, hs⟩

variable {p : Program} {v : Visit}

theorem OfLayer.mem_segments (h : v.OfLayer p) {s : Segment} (hs : s ∈ v.segments) :
    s ∈ p.segments :=
  List.mem_flatMap.mpr ⟨v.layer, h.layer, List.mem_of_getElem? (h.segments s hs)⟩

theorem OfLayer.exists_split (h : v.OfLayer p) {first : Segment} {rest : List Segment}
    (hrun : first :: rest ∈ v.runs) :
    ∃ front back, p.segments = front ++ (first :: rest) ++ back := by
  obtain ⟨more, hmore⟩ := prefix_drop_of_continues
    (fun s hs => h.segments s (mem_segments_of_mem_run hrun hs)) (List.isChain_of_mem_splitBy hrun)
  obtain ⟨below, above, hlayers⟩ := List.append_of_mem h.layer
  refine ⟨below.flatMap Layer.segments ++ v.layer.segments.take first.id.ordinal,
    more ++ above.flatMap Layer.segments, ?_⟩
  have hlayer : v.layer.segments =
      v.layer.segments.take first.id.ordinal ++ (first :: rest ++ more) := by
    rw [hmore, List.take_append_drop]
  rw [Program.segments, hlayers, List.flatMap_append, List.flatMap_cons]
  conv_lhs => rw [hlayer]
  simp

end Visit

namespace Program

variable {lines : List Command} {p : Program}

theorem mem_layers_of_layer? {index : Nat} {l : Layer} (h : p.layer? index = some l) :
    l ∈ p.layers := by
  unfold layer? at h
  split at h
  · exact absurd h (by simp)
  · exact List.mem_of_getElem? h

theorem mem_segments_of_segment? {id : SegmentId} {s : Segment} (h : p.segment? id = some s) :
    s ∈ p.segments := by
  obtain ⟨l, hl, hs⟩ := Option.bind_eq_some_iff.mp h
  exact List.mem_flatMap.mpr ⟨l, mem_layers_of_layer? hl, List.mem_of_getElem? hs⟩

theorem segment?_of_findSegment {id : SegmentId} {s : Segment} (h : p.findSegment id = .ok s) :
    p.segment? id = some s := by
  unfold findSegment at h
  split at h
  · rename_i found hfound
    obtain rfl := Except.ok.inj h
    exact hfound
  · exact absurd h (by simp)

theorem forall₂_of_resolveVisits {runs : List (List SegmentId)} {visits : List Visit}
    (hne : [] ∉ runs) (h : p.resolveVisits runs = .ok visits) :
    List.Forall₂ (fun ids v => ∃ first rest, ids = first :: rest ∧
      p.resolveVisit first rest = .ok v) runs visits := by
  induction runs generalizing visits with
  | nil =>
      obtain rfl : [] = visits := Except.ok.inj h
      exact .nil
  | cons run runs ih =>
      obtain ⟨hrun, hruns⟩ := List.ne_and_not_mem_of_not_mem_cons hne
      cases run with
      | nil => exact absurd rfl hrun
      | cons first rest =>
          rw [resolveVisits] at h
          cases hfirst : p.resolveVisit first rest with
          | error fault => simp [hfirst, bind, Except.bind] at h
          | ok visit =>
              cases hmore : p.resolveVisits runs with
              | error fault => simp [hfirst, hmore, bind, Except.bind] at h
              | ok more =>
                  rw [hfirst, hmore] at h
                  obtain rfl : visit :: more = visits := Except.ok.inj h
                  exact .cons ⟨first, rest, rfl, hfirst⟩ (ih hruns hmore)

theorem Read.ofLayer_of_resolveVisit (h : Read lines p) {first : SegmentId}
    {rest : List SegmentId} {v : Visit} (hv : p.resolveVisit first rest = .ok v)
    (hsame : ∀ id ∈ first :: rest, id.layer = first.layer) : v.OfLayer p := by
  unfold resolveVisit at hv
  split at hv
  · exact absurd hv (by simp)
  · rename_i l hl
    cases hsegments : (first :: rest).mapM p.findSegment with
    | error fault => simp [hsegments, bind, Except.bind] at hv
    | ok segments =>
        rw [hsegments] at hv
        obtain rfl : ⟨l, segments⟩ = v := Except.ok.inj hv
        refine ⟨mem_layers_of_layer? hl, ?_⟩
        intro s hs
        obtain ⟨id, hid, hfind⟩ := exists_of_mem_forall₂ (forall₂_of_mapM hsegments) hs
        have hfound := segment?_of_findSegment hfind
        rw [segment?, hsame id hid, hl, Option.bind_some] at hfound
        obtain ⟨m, hsound⟩ := h.layers.of_mem (mem_layers_of_layer? hl)
        rw [hsound.id_of_getElem? hfound]
        exact hfound

theorem exists_resolveVisit_of_resolve {plan : Plan} {jobs : List Job}
    (hjobs : p.resolve plan = .ok jobs) {j : Job} (hj : j ∈ jobs) {v : Visit}
    (hv : v ∈ j.visits) :
    ∃ first rest, p.resolveVisit first rest = .ok v ∧
      ∀ id ∈ first :: rest, id.layer = first.layer := by
  obtain ⟨b, -, hb⟩ := exists_of_mem_forall₂ (forall₂_of_mapM hjobs) hj
  cases hvisits : p.resolveVisits b.visits with
  | error fault => simp [hvisits, bind, Except.bind] at hb
  | ok visits =>
      rw [hvisits] at hb
      obtain rfl : ⟨b.tool, visits⟩ = j := Except.ok.inj hb
      obtain ⟨run, hrun, first, rest, rfl, hvisit⟩ := exists_of_mem_forall₂
        (forall₂_of_resolveVisits (List.nil_notMem_splitBy _ _) hvisits) hv
      exact ⟨first, rest, hvisit,
        Batch.layer_eq_of_isChain (List.isChain_of_mem_splitBy hrun) (by simp)⟩

theorem Read.ofLayer_of_resolve (h : Read lines p) {plan : Plan} {jobs : List Job}
    (hjobs : p.resolve plan = .ok jobs) {j : Job} (hj : j ∈ jobs) {v : Visit}
    (hv : v ∈ j.visits) : v.OfLayer p := by
  obtain ⟨first, rest, hvisit, hsame⟩ := exists_resolveVisit_of_resolve hjobs hj hv
  exact h.ofLayer_of_resolveVisit hvisit hsame

theorem mem_of_resolve {plan : Plan} {jobs : List Job} (hjobs : p.resolve plan = .ok jobs)
    {j : Job} (hj : j ∈ jobs) {v : Visit} (hv : v ∈ j.visits) :
    v.layer ∈ p.layers ∧ ∀ s ∈ v.segments, s ∈ p.segments := by
  obtain ⟨first, rest, hvisit, -⟩ := exists_resolveVisit_of_resolve hjobs hj hv
  unfold resolveVisit at hvisit
  split at hvisit
  · exact absurd hvisit (by simp)
  · rename_i l hl
    cases hsegments : (first :: rest).mapM p.findSegment with
    | error fault => simp [hsegments, bind, Except.bind] at hvisit
    | ok segments =>
        rw [hsegments] at hvisit
        obtain rfl : ⟨l, segments⟩ = v := Except.ok.inj hvisit
        refine ⟨mem_layers_of_layer? hl, ?_⟩
        intro s hs
        obtain ⟨id, -, hfind⟩ := exists_of_mem_forall₂ (forall₂_of_mapM hsegments) hs
        exact mem_segments_of_segment? (segment?_of_findSegment hfind)

theorem forall₂_of_resolve {plan : Plan} {jobs : List Job} (h : p.resolve plan = .ok jobs) :
    List.Forall₂ (fun ids v => ∃ first rest, ids = first :: rest ∧
      p.resolveVisit first rest = .ok v)
      (plan.batches.flatMap Batch.visits) (jobs.flatMap Job.visits) := by
  refine List.rel_flatMap (forall₂_of_mapM h) fun b j hj => ?_
  dsimp only at hj
  cases hvisits : p.resolveVisits b.visits with
  | error fault => simp [hvisits, bind, Except.bind] at hj
  | ok visits =>
      rw [hvisits] at hj
      obtain rfl : ⟨b.tool, visits⟩ = j := Except.ok.inj hj
      exact forall₂_of_resolveVisits (List.nil_notMem_splitBy _ _) hvisits

theorem Read.exists_before_run (h : Read lines p) {v : Visit} (hv : v.OfLayer p)
    {first : Segment} {rest : List Segment} (hrun : first :: rest ∈ v.runs) :
    ∃ before after, first.entry = p.preambleState.run before ∧
      p.bodyCommands = before ++ (first :: rest).flatMap Segment.commands ++ after := by
  obtain ⟨front, back, hsegments⟩ := hv.exists_split hrun
  have hchained := h.chained
  rw [hsegments, List.append_assoc, Chained.append_iff, List.cons_append] at hchained
  refine ⟨front.flatMap Segment.commands, back.flatMap Segment.commands, hchained.2.1, ?_⟩
  rw [← commands_segments, hsegments, List.flatMap_append, List.flatMap_append]

end Program

namespace Writer

variable {w : Writer} {p : BodyPlan}

theorem visit_induction {motive : Writer → Prop} {v : Visit} {due : Option (Option Tool × Tool)}
    (hmark : motive (w.mark p v.layer))
    (hchange : ∀ w source tool, due = some (source, tool) → motive w →
      motive (w.change p.settings.toolChange source tool))
    (hcatchUp : ∀ w, motive w → motive (w.catchUp p v.layer.index))
    (hrun : ∀ w, ∀ run ∈ v.runs, motive w → motive (w.run p v.layer run))
    (hlast : ∀ w last, motive w → motive { w with lastLayer := last }) :
    motive (w.visit p due v) := by
  cases due with
  | none =>
      exact hlast _ _ (List.foldlRecOn _ _ (hcatchUp _ hmark) fun w hw run hmem => hrun w run hmem hw)
  | some change =>
      have hchanged := hchange _ change.1 change.2 rfl hmark
      exact hlast _ _
        (List.foldlRecOn _ _ (hcatchUp _ hchanged) fun w hw run hmem => hrun w run hmem hw)

end Writer

end ToolBatching
