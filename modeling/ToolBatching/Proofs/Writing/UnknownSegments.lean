import ToolBatching.Proofs.Writing.SourceLines
import ToolBatching.Proofs.Writing.Visits

namespace ToolBatching

namespace Program

/-- The outcome of looking up segments: a result if the program has all of them, and otherwise
the first that it does not have as the fault. -/
def Answers {α : Type} (p : Program) (ids : List SegmentId) (outcome : Except Fault α) : Prop :=
  match ids.find? fun id => (p.segment? id).isNone with
  | some id => outcome = .error (.unknownSegment id)
  | none => ∃ result, outcome = .ok result

section Answers

variable {α β : Type} {p : Program} {ids more : List SegmentId}

theorem answers_ok (p : Program) (result : α) : p.Answers [] (.ok result) :=
  ⟨result, rfl⟩

theorem Answers.bind {outcome : Except Fault α} {next : α → Except Fault β}
    (h : p.Answers ids outcome) (hnext : ∀ result, p.Answers more (next result)) :
    p.Answers (ids ++ more) (outcome >>= next) := by
  unfold Answers at h
  cases hfirst : ids.find? fun id => (p.segment? id).isNone with
  | some id =>
      simp only [hfirst] at h
      rw [Answers, List.find?_append, hfirst, h]
      rfl
  | none =>
      simp only [hfirst] at h
      obtain ⟨result, rfl⟩ := h
      have hlater := hnext result
      unfold Answers at hlater ⊢
      rw [List.find?_append, hfirst, Option.none_or]
      exact hlater

theorem Answers.map {outcome : Except Fault α} (h : p.Answers ids outcome) (f : α → β) :
    p.Answers ids (outcome >>= fun result => pure (f result)) := by
  have hbound := h.bind fun result => answers_ok p (f result)
  rwa [List.append_nil] at hbound

theorem answers_findSegment (p : Program) (id : SegmentId) :
    p.Answers [id] (p.findSegment id) := by
  unfold findSegment
  cases hs : p.segment? id with
  | none => simp [Answers, hs]
  | some s => simp [Answers, hs]

theorem answers_mapM (p : Program) (ids : List SegmentId) :
    p.Answers ids (ids.mapM p.findSegment) := by
  induction ids with
  | nil => exact answers_ok p []
  | cons id ids ih =>
      rw [List.mapM_cons]
      exact (p.answers_findSegment id).bind fun s => ih.map (s :: ·)

theorem answers_resolveVisit (p : Program) (first : SegmentId) (rest : List SegmentId) :
    p.Answers (first :: rest) (p.resolveVisit first rest) := by
  unfold resolveVisit
  cases hlayer : p.layer? first.layer with
  | none => simp [Answers, segment?, hlayer]
  | some layer => exact (p.answers_mapM (first :: rest)).map _

theorem answers_resolveVisits (p : Program) (runs : List (List SegmentId)) :
    p.Answers runs.flatten (p.resolveVisits runs) := by
  induction runs with
  | nil => exact answers_ok p []
  | cons run runs ih =>
      cases run with
      | nil => exact ih
      | cons first rest =>
          rw [resolveVisits, List.flatten_cons]
          exact (p.answers_resolveVisit first rest).bind fun visit => ih.map (visit :: ·)

theorem answers_resolve (p : Program) (plan : Plan) : p.Answers plan.members (p.resolve plan) := by
  rw [resolve, Plan.members]
  induction plan.batches with
  | nil => exact answers_ok p []
  | cons b batches ih =>
      have hmembers : b.visits.flatten = b.members := List.flatten_splitBy _ b.members
      rw [List.mapM_cons, List.flatMap_cons, ← hmembers]
      exact ((p.answers_resolveVisits b.visits).map _).bind fun job => ih.map (job :: ·)

theorem answers_synthesize (p : Program) (plan : Plan) (settings : Settings) :
    p.Answers plan.members (p.synthesize plan settings) :=
  (p.answers_resolve plan).map _

theorem Answers.eq_error_iff {outcome : Except Fault α} (h : p.Answers ids outcome)
    {fault : Fault} :
    outcome = .error fault ↔ ∃ front id back, ids = front ++ id :: back ∧
      (∀ known ∈ front, p.segment? known ≠ none) ∧ p.segment? id = none ∧
      fault = .unknownSegment id := by
  unfold Answers at h
  cases hfirst : ids.find? fun id => (p.segment? id).isNone with
  | none =>
      simp only [hfirst] at h
      obtain ⟨result, rfl⟩ := h
      rw [List.find?_eq_none] at hfirst
      constructor
      · intro herror
        exact absurd herror (by simp)
      · rintro ⟨front, id, back, rfl, -, hnone, -⟩
        exact absurd (by rw [hnone]; rfl) (hfirst id (by simp))
  | some unknown =>
      simp only [hfirst] at h
      subst h
      constructor
      · intro herror
        obtain rfl := Except.error.inj herror
        obtain ⟨hnone, front, back, hids, hfront⟩ := List.find?_eq_some_iff_append.mp hfirst
        refine ⟨front, unknown, back, hids, fun known hknown => ?_, ?_, rfl⟩
        · simpa [Option.isSome_iff_ne_none] using hfront known hknown
        · simpa using hnone
      · rintro ⟨front, id, back, hids, hfront, hnone, rfl⟩
        have hagain : ids.find? (fun id => (p.segment? id).isNone) = some id := by
          refine List.find?_eq_some_iff_append.mpr ⟨by simpa using hnone, front, back, hids, ?_⟩
          intro known hknown
          simpa [Option.isSome_iff_ne_none] using hfront known hknown
        obtain rfl := Option.some.inj (hfirst.symm.trans hagain)
        rfl

theorem Answers.exists_error_iff {outcome : Except Fault α} (h : p.Answers ids outcome) :
    (∃ fault, outcome = .error fault) ↔ ∃ id ∈ ids, p.segment? id = none := by
  constructor
  · rintro ⟨fault, herror⟩
    obtain ⟨front, id, back, rfl, -, hnone, -⟩ := h.eq_error_iff.mp herror
    exact ⟨id, by simp, hnone⟩
  · rintro ⟨id, hid, hnone⟩
    unfold Answers at h
    cases hfirst : ids.find? fun id => (p.segment? id).isNone with
    | some unknown =>
        simp only [hfirst] at h
        exact ⟨_, h⟩
    | none => exact absurd (by rw [hnone]; rfl) (List.find?_eq_none.mp hfirst id hid)

end Answers

theorem Read.id_of_segment? {lines : List Command} {p : Program} (h : Read lines p)
    {id : SegmentId} {s : Segment} (hs : p.segment? id = some s) : s.id = id := by
  obtain ⟨l, hl, hplace⟩ := Option.bind_eq_some_iff.mp hs
  unfold layer? at hl
  split at hl
  · exact absurd hl (by simp)
  · rename_i hpositive
    obtain ⟨m, hsound⟩ := h.layers.getElem? hl
    rw [hsound.id_of_getElem? hplace, Nat.add_sub_cancel' (Nat.one_le_iff_ne_zero.mpr hpositive)]

theorem Read.segment?_eq_none_iff {lines : List Command} {p : Program} (h : Read lines p)
    {id : SegmentId} : p.segment? id = none ↔ id ∉ p.segmentIds := by
  constructor
  · intro hnone hid
    have hsome := h.isSome_segment? hid
    rw [hnone] at hsome
    exact absurd hsome (by decide)
  · intro hid
    cases hs : p.segment? id with
    | none => rfl
    | some s =>
        have hmem : s.id ∈ p.segmentIds := List.mem_map_of_mem (mem_segments_of_segment? hs)
        rw [h.id_of_segment? hs] at hmem
        exact absurd hmem hid

theorem Read.synthesize_eq_error_iff {lines : List Command} {p : Program} (h : Read lines p)
    (plan : Plan) (settings : Settings) (fault : Fault) :
    p.synthesize plan settings = .error fault ↔
      ∃ front id back, plan.members = front ++ id :: back ∧
        (∀ known ∈ front, known ∈ p.segmentIds) ∧ id ∉ p.segmentIds ∧
        fault = .unknownSegment id := by
  rw [(p.answers_synthesize plan settings).eq_error_iff]
  simp only [h.segment?_eq_none_iff, ne_eq, not_not]

theorem Read.exists_synthesize_schedule {lines : List Command} {p : Program} (h : Read lines p)
    (settings : Settings) : ∃ body, p.synthesize (p.schedule settings) settings = .ok body := by
  cases hbody : p.synthesize (p.schedule settings) settings with
  | ok body => exact ⟨body, rfl⟩
  | error fault =>
      obtain ⟨front, id, back, hmembers, -, hunknown, -⟩ :=
        (h.synthesize_eq_error_iff _ settings fault).mp hbody
      have hperm : (p.schedule settings).members.Perm p.segmentIds :=
        h.members_schedule_perm _ settings.maxBatchLayers
      exact absurd (hperm.mem_iff.mp (by rw [hmembers]; simp)) hunknown

theorem optimize_eq_error_iff (text : String) (settings : Settings) (fault : Fault) :
    ToolBatching.optimize text settings = .error fault ↔
      ∃ cause, settings.validate = .error cause ∧ fault = .invalidSettings cause := by
  obtain ⟨body, hbody⟩ := (read_ofText text).exists_synthesize_schedule settings
  unfold ToolBatching.optimize optimize
  cases hvalid : settings.validate with
  | error cause =>
      constructor
      · intro herror
        exact ⟨cause, rfl, (Except.error.inj herror).symm⟩
      · rintro ⟨same, hsame, rfl⟩
        obtain rfl := Except.error.inj hsame
        rfl
  | ok checked =>
      simp only [hbody]
      constructor
      · intro herror
        exact absurd herror nofun
      · rintro ⟨cause, hcause, -⟩
        exact absurd hcause nofun

/-- Writing a plan fails exactly if it names a segment that the program does not have, and the
fault names the first of them. A whole run only fails on its settings. -/
theorem synthesize_fails_on_first_unknown (lines : List String) (lineEnding : LineEnding)
    (settings : Settings) (plan : Plan) :
    let p := ofLines lines lineEnding
    ((∃ fault, p.synthesize plan settings = .error fault) ↔
      ∃ id ∈ plan.members, id ∉ p.segmentIds) ∧
    (∀ fault, p.synthesize plan settings = .error fault ↔
      ∃ front id back, plan.members = front ++ id :: back ∧
        (∀ known ∈ front, known ∈ p.segmentIds) ∧ id ∉ p.segmentIds ∧
        fault = .unknownSegment id) ∧
    ∀ text fault, ToolBatching.optimize text settings = .error fault ↔
      ∃ cause, settings.validate = .error cause ∧ fault = .invalidSettings cause := by
  intro p
  have hread : Read _ p := read_ofLines lines lineEnding
  refine ⟨?_, hread.synthesize_eq_error_iff plan settings,
    fun text fault => optimize_eq_error_iff text settings fault⟩
  rw [(p.answers_synthesize plan settings).exists_error_iff]
  simp only [hread.segment?_eq_none_iff]

end Program

end ToolBatching
