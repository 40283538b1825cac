import ToolBatching.Proofs.Coordinates
import ToolBatching.Proofs.Number.FloatValue
import ToolBatching.Proofs.Writing.ActiveTools

namespace ToolBatching

theorem exists_split_of_filter {α : Type} {keeps : α → Bool} {items kept more : List α} {a : α}
    (h : items.filter keeps = kept ++ a :: more) :
    ∃ own later, items = own ++ a :: later ∧ own.filter keeps = kept ∧ keeps a = true := by
  obtain ⟨front, back, rfl, hfront, hback⟩ := List.filter_eq_append_iff.mp h
  obtain ⟨skipped, later, rfl, hskipped, ha, -⟩ := List.filter_eq_cons_iff.mp hback
  refine ⟨front ++ skipped, later, by rw [List.append_assoc], ?_, ha⟩
  rw [List.filter_append, hfront, List.filter_eq_nil_iff.mpr hskipped, List.append_nil]

namespace Writer

/-- A source line of a body in the run that it is kept of: the writer that enters the run,
the commands of the run around the line, and what stands in front of the run in the text. -/
structure Stands (p : BodyPlan) (v : Visit) (before front : List Command) (c : Command)
    (w : Writer) (first : Segment) (rest : List Segment) (own later : List Command) : Prop where
  run : first :: rest ∈ v.runs
  commands : (first :: rest).flatMap Segment.commands = own ++ c :: later
  machine : w.machine = p.program.preambleState.run w.body.toList
  front : front = (w.enter p v.layer first (own ++ c :: later)).body.toList ++ own.filter keeps
  keeps : keeps c = true
  before : ∃ lead, before = lead ++ own ∧ first.entry = p.program.preambleState.run lead

namespace Stands

variable {p : BodyPlan} {v : Visit} {before front : List Command} {c : Command} {w : Writer}
  {first : Segment} {rest : List Segment} {own later : List Command}

theorem run_front (h : Stands p v before front c w first rest own later) :
    p.program.preambleState.run front =
      (w.enter p v.layer first (own ++ c :: later)).machine.run (own.filter Writer.keeps) := by
  have hextends : Extends (fun _ _ => True) w _ :=
    (w.emits_enter p v.layer first (own ++ c :: later)).extends
  rw [h.front, Machine.run_append, hextends.machine h.machine]

theorem run_before (h : Stands p v before front c w first rest own later) :
    p.program.preambleState.run before = first.entry.run own := by
  obtain ⟨lead, rfl, hlead⟩ := h.before
  rw [Machine.run_append, hlead]

end Stands

end Writer

theorem Job.holds_in_run {jobs : List Job} {c : Command}
    {P : Visit → Segment → List Command → List Command → Prop}
    (h : ∀ v ∈ jobs.flatMap Job.visits, ∀ run ∈ v.runs, ∀ first ∈ run.head?,
      ∀ n < (run.flatMap Segment.commands).length, (run.flatMap Segment.commands)[n]? = some c →
        P v first ((run.flatMap Segment.commands).take n)
          ((run.flatMap Segment.commands).drop (n + 1)))
    {j : Job} (hj : j ∈ jobs) {v : Visit} (hv : v ∈ j.visits) {first : Segment}
    {rest : List Segment} (hrun : first :: rest ∈ v.runs) {own later : List Command}
    (hcommands : (first :: rest).flatMap Segment.commands = own ++ c :: later) :
    P v first own later := by
  have hholds := h v (List.mem_flatMap.mpr ⟨j, hj, hv⟩) _ hrun first rfl own.length
  rw [hcommands, List.take_left, ← List.drop_drop, List.drop_left] at hholds
  exact hholds (by simp) (by simp)

namespace Program

variable {lines : List Command} {p : Program} {settings : Settings} {v : Visit}
  {before front : List Command} {c d : Command}

theorem Read.exists_stands (h : Read lines p) (hnodup : (p.bodyCommands.map Command.line).Nodup)
    (hv : v.OfLayer p) {tool : Option Tool}
    (hreaches : Writer.Reaches (p.bodyPlan settings) p.preambleState tool v front d)
    {after : List Command} (hbefore : p.bodyCommands = before ++ c :: after)
    (hline : d.line = c.line) :
    d = c ∧ ∃ w first rest own later,
      Writer.Stands (p.bodyPlan settings) v before front c w first rest own later := by
  obtain ⟨w, first, rest, kept, more, hrun, hmachine, -, hkept, hfront⟩ := hreaches
  obtain ⟨own, later, hcommands, rfl, hkeeps⟩ := exists_split_of_filter hkept
  obtain ⟨lead, behind, hentry, hbody⟩ := h.exists_before_run hv hrun
  rw [hcommands] at hbody hfront
  obtain ⟨rfl, rfl⟩ := split_eq_of_key_eq hnodup hbefore
    (show p.bodyCommands = (lead ++ own) ++ d :: (later ++ behind) by rw [hbody]; simp) hline.symm
  exact ⟨rfl, w, first, rest, own, later, hrun, hcommands, hmachine, hfront, hkeeps, lead, rfl,
    hentry⟩

theorem Read.mem_of_stands (h : Read lines p) (hv : v.OfLayer p) {w : Writer} {first : Segment}
    {rest : List Segment} {own later : List Command}
    (hstands : Writer.Stands (p.bodyPlan settings) v before front c w first rest own later) :
    ∀ d ∈ own ++ c :: later, d ∈ lines := by
  intro d hd
  rw [← hstands.commands] at hd
  obtain ⟨s, hs, hd⟩ := List.mem_flatMap.mp hd
  apply h.mem_of_mem_bodyCommands
  rw [← commands_segments]
  exact List.mem_flatMap.mpr ⟨s, hv.mem_segments (Visit.mem_segments_of_mem_run hstands.run hs), hd⟩

theorem exists_standing (text : String) (settings : Settings) :
    let p := ofText text
    ∃ jobs body, p.Written settings jobs body ∧
      ∀ before c after, p.bodyCommands = before ++ c :: after →
        ∀ front d back, body.commands = front ++ d :: back → d.line = c.line →
          d = c ∧ ∃ j ∈ jobs, ∃ v ∈ j.visits, v.OfLayer p ∧ ∃ w first rest own later,
            Writer.Stands (p.bodyPlan settings) v before front c w first rest own later := by
  intro p
  have hread : Read (readCommands text) p := read_ofText text
  obtain ⟨jobs, body, hwritten⟩ := exists_written text settings
  refine ⟨jobs, body, hwritten, ?_⟩
  intro before c after hbefore front d back hfront hline
  have hsource : d.line.isSome = true := by
    rw [hline]
    apply isSome_line_of_mem_bodyCommands text
    rw [hbefore]
    simp
  obtain ⟨done, j, left, hjobs, v, hv, hreaches⟩ := hwritten.reaches front d back hfront hsource
  have hj : j ∈ jobs := by
    rw [hjobs]
    simp
  have hlayer := hread.ofLayer_of_resolve hwritten.resolved hj hv
  obtain ⟨rfl, w, first, rest, own, later, hstands⟩ := hread.exists_stands
    (lines_bodyCommands_nodup text) hlayer hreaches hbefore hline
  exact ⟨rfl, j, hj, v, hv, hlayer, w, first, rest, own, later, hstands⟩

/-- A print move of a text with finite absolute coordinates for which the body measures
something else than the text. -/
def Alters (text : String) (settings : Settings) (bound : ℚ)
    (measured : Machine → Command → Float) : Prop :=
  let p := ofText text
  settings.validate = .ok () ∧
    (∀ c ∈ readCommands text, c.switches .x ≠ some .relative ∧
      ∀ a ∈ [Axis.x, .y, .z, .e], ∀ v ∈ c.along a, v.isFinite = true) ∧
    ∃ body, p.synthesize (p.schedule settings) settings = .ok body ∧
      ∃ before c after front back, p.bodyCommands = before ++ c :: after ∧
        body.commands = front ++ c :: back ∧ (p.preambleState.run before).prints c = true ∧
        ¬ Number.Within bound (measured (p.preambleState.run front) c)
          (measured (p.preambleState.run before) c)

theorem alters_of_drop {text : String} {settings : Settings} {bound : ℚ}
    {measured : Machine → Command → Float} (m n : Nat)
    (h : settings.validate = .ok () ∧
      (∀ c ∈ readCommands text, c.switches .x ≠ some .relative ∧
        ∀ a ∈ [Axis.x, .y, .z, .e], ∀ v ∈ c.along a, v.isFinite = true) ∧
      ∃ body ∈ ((ofText text).synthesize ((ofText text).schedule settings) settings).toOption,
        ∃ c ∈ ((ofText text).bodyCommands.drop m).head?,
          (body.commands.drop n).head? = some c ∧
          ((ofText text).preambleState.run ((ofText text).bodyCommands.take m)).prints c = true ∧
          ¬ Number.Within bound
            (measured ((ofText text).preambleState.run (body.commands.take n)) c)
            (measured ((ofText text).preambleState.run ((ofText text).bodyCommands.take m)) c)) :
    Alters text settings bound measured := by
  obtain ⟨hsettings, hlines, body, hbody, c, hbefore, hfront, hprints, hends⟩ := h
  obtain ⟨after, hbefore⟩ := List.head?_eq_some_iff.mp hbefore
  obtain ⟨back, hfront⟩ := List.head?_eq_some_iff.mp hfront
  refine ⟨hsettings, hlines, body, eq_ok_of_mem_toOption hbody, _, c, after, _, back, ?_, ?_,
    hprints, hends⟩
  · rw [← hbefore, List.take_append_drop]
  · rw [← hfront, List.take_append_drop]

end Program

end ToolBatching
