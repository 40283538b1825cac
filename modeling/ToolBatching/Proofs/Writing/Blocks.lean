import ToolBatching.Proofs.Writing.Runs
import ToolBatching.Proofs.Writing.Stages
import ToolBatching.Proofs.Writing.Surrounds

namespace ToolBatching

/-- What the writer puts down for one visit. -/
structure Block where
  number : Nat
  visit : Visit
  /-- The commands behind the two markers. -/
  more : List Command

namespace Block

def commands (total : Nat) (b : Block) : List Command :=
  .commentLine (Marker.layerText b.number total)
    :: .commentLine (Marker.heightText b.visit.layer.z) :: b.more

/-- A command that belongs behind the markers of a visit. -/
def Holds (p : BodyPlan) (v : Visit) (c : Command) : Prop :=
  p.Surrounds c ∨ ∃ s ∈ v.segments, c ∈ s.kept

end Block

namespace Writer

variable {w next last : Writer} {p : BodyPlan}

/-- A step that writes visits, one block for each. -/
structure Lays (p : BodyPlan) (visits : List Visit) (w next : Writer) : Prop where
  blocks : ∃ blocks : List Block,
    next.body.toList = w.body.toList ++ blocks.flatMap (Block.commands p.total) ∧
      blocks.map Block.visit = visits ∧
      blocks.map Block.number = List.range' (w.counts.visits + 1) visits.length ∧
      ∀ b ∈ blocks, ∀ c ∈ b.more, Block.Holds p b.visit c
  visits : next.counts.visits = w.counts.visits + visits.length

theorem writes_run (w : Writer) (layer : Layer) {v : Visit} {run : List Segment}
    (hrun : ∀ s ∈ run, s ∈ v.segments) (hsegments : ∀ s ∈ v.segments, s ∈ p.program.segments) :
    Writes (Block.Holds p v) w (w.run p layer run) := by
  cases run with
  | nil => exact .refl w
  | cons first rest =>
      have hfirst : first ∈ p.program.segments :=
        hsegments first (hrun first List.mem_cons_self)
      refine ((w.writes_enter layer hfirst _).mono fun c hc => Or.inl hc).trans
        (writes_writeAll _ ?_)
      intro c hc
      obtain ⟨hc, hkeeps⟩ := List.mem_filter.mp hc
      obtain ⟨s, hs, hc⟩ := List.mem_flatMap.mp hc
      exact Or.inr ⟨s, hrun s hs, List.mem_filter.mpr ⟨hc, hkeeps⟩⟩

theorem lays_visit (w : Writer) (due : Option (Option Tool × Tool)) {v : Visit}
    (h : ∀ s ∈ v.segments, s ∈ p.program.segments) : Lays p [v] w (w.visit p due v) := by
  obtain ⟨hmarked, -, hcounts⟩ := writeAll_spec
    { w with counts := { w.counts with visits := w.counts.visits + 1 } }
    [.commentLine (Marker.layerText (w.counts.visits + 1) p.total),
      .commentLine (Marker.heightText v.layer.z)]
  have hwritten : Writes (Block.Holds p v) (w.mark p v.layer) (w.visit p due v) := by
    apply visit_induction (.refl _)
    · intro next source tool _ hnext
      exact hnext.trans ((writes_change next source tool).mono fun c hc => Or.inl hc)
    · intro next hnext
      exact hnext.trans ((writes_catchUp next v.layer.index).mono fun c hc => Or.inl hc)
    · intro next run hrun hnext
      exact hnext.trans
        (next.writes_run v.layer (fun s hs => v.mem_segments_of_mem_run hrun hs) h)
    · intro next last hnext
      exact hnext.of_eq rfl rfl
  obtain ⟨more, hbody, hmore⟩ := hwritten.commands
  constructor
  · refine ⟨[⟨w.counts.visits + 1, v, more⟩], ?_, rfl, rfl, ?_⟩
    · rw [hbody, mark, hmarked, List.flatMap_singleton, Block.commands, List.append_assoc]
      rfl
    · rw [List.forall_mem_singleton]
      exact hmore
  · rw [hwritten.visits, mark, hcounts]
    rfl

/-- The body consists of the blocks of the visits so far. -/
structure Laid (p : BodyPlan) (visits : List Visit) (blocks : List Block) (w : Writer) : Prop where
  body : w.body.toList = blocks.flatMap (Block.commands p.total)
  printed : blocks.map Block.visit = visits
  numbers : blocks.map Block.number = List.range' 1 visits.length
  holds : ∀ b ∈ blocks, ∀ c ∈ b.more, Block.Holds p b.visit c
  count : w.counts.visits = visits.length

theorem laid_nil (start : Machine) : Laid p [] [] { machine := start } :=
  ⟨rfl, rfl, rfl, by simp, rfl⟩

theorem Laid.visit_mem {visits : List Visit} {blocks : List Block} (h : Laid p visits blocks w)
    {b : Block} (hb : b ∈ blocks) : b.visit ∈ visits := by
  rw [← h.printed]
  exact List.mem_map_of_mem hb

theorem Laid.visit {visits : List Visit} {blocks : List Block} (h : Laid p visits blocks w)
    {v : Visit} (hv : ∀ s ∈ v.segments, s ∈ p.program.segments)
    (due : Option (Option Tool × Tool)) :
    ∃ b : Block, b.visit = v ∧
      (w.visit p due v).body.toList = w.body.toList ++ b.commands p.total ∧
      Laid p (visits ++ [v]) (blocks ++ [b]) (w.visit p due v) := by
  have hlays := w.lays_visit due hv
  obtain ⟨added, hbody, hvisits, hnumbers, hholds⟩ := hlays.blocks
  cases added with
  | nil => exact absurd hvisits (by simp)
  | cons b rest =>
      obtain ⟨hb, hrest⟩ := List.cons.inj hvisits
      obtain rfl := List.map_eq_nil_iff.mp hrest
      rw [List.flatMap_singleton] at hbody
      refine ⟨b, hb, hbody, ?_, ?_, ?_, ?_, ?_⟩
      · rw [hbody, h.body, List.flatMap_append, List.flatMap_singleton]
      · rw [List.map_append, h.printed, hvisits]
      · rw [List.map_append, h.numbers, hnumbers, h.count, List.length_append,
          ← List.range'_append_1, Nat.add_comm visits.length 1]
      · rw [List.forall_mem_append]
        exact ⟨h.holds, hholds⟩
      · rw [hlays.visits, h.count, List.length_append]

end Writer

namespace Program

variable {p : Program}

theorem blocks_induction {plan : Plan} {settings : Settings} {jobs : List Job}
    (hjobs : p.resolve plan = .ok jobs) {context : BodyPlan}
    (hcontext : context = { program := p, settings, total := plan.visitCount })
    {motive : List Block → Writer → Prop} (hstart : motive [] { machine := p.preambleState })
    (hvisit : ∀ blocks w due b, ∀ j ∈ jobs, (∀ change ∈ due, j.tool = some change.2) →
      b.visit ∈ j.visits → motive blocks w →
      w.body.toList = blocks.flatMap (Block.commands context.total) →
      (w.visit context due b.visit).body.toList = w.body.toList ++ b.commands context.total →
      motive (blocks ++ [b]) (w.visit context due b.visit)) :
    ∃ blocks w body, Writer.Laid context (jobs.flatMap Job.visits) blocks w ∧ motive blocks w ∧
      p.synthesize plan settings = .ok body ∧
      body.commands = (w.finish context).body.toList ∧
      body.counts = (w.finish context).counts := by
  have hprogram : context.program = p := by rw [hcontext]
  obtain ⟨w, body, ⟨blocks, hlaid, hblocks⟩, hbody⟩ := synthesize_induction hjobs hcontext
    (motive := fun visits w => ∃ blocks, Writer.Laid context visits blocks w ∧ motive blocks w)
    ⟨[], Writer.laid_nil _, hstart⟩ (by
      rintro visits w due j hj hdue v hv ⟨blocks, hlaid, hblocks⟩
      have hsegments : ∀ s ∈ v.segments, s ∈ context.program.segments := by
        rw [hprogram]
        exact (mem_of_resolve hjobs hj hv).2
      obtain ⟨b, rfl, hbody, hnext⟩ := hlaid.visit hsegments due
      exact ⟨blocks ++ [b], hnext, hvisit blocks w due b j hj hdue hv hblocks hlaid.body hbody⟩)
  exact ⟨blocks, w, body, hlaid, hblocks, hbody⟩

end Program

end ToolBatching
