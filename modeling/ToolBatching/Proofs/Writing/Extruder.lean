import ToolBatching.Proofs.Writing.Entering
import ToolBatching.Proofs.Writing.Standing

namespace ToolBatching

open Number

namespace Machine

theorem extruded_congr {m n : Machine} (hmode : m.extrusion = n.extrusion)
    (hplace : n.extrusion = .absolute → m.e = n.e) (c : Command) : m.extruded c = n.extruded c := by
  unfold extruded
  rw [hmode]
  cases hn : n.extrusion with
  | absolute => rw [hplace hn]
  | relative => cases c.e <;> rfl

theorem exists_extruded_of_prints {m : Machine} {c : Command} (h : m.prints c = true) :
    ∃ v, ∀ n : Machine, n.extrusion = .absolute → n.extruded c = v - n.e := by
  have htool : c.tool = none := tool_eq_none_of_prints h
  have hmotion : c.isMotion = true := by
    rw [prints, Bool.and_eq_true, Bool.and_eq_true] at h
    exact h.1.2
  cases hword : c.e with
  | none =>
      rw [prints_eq_false_of_extruded_eq_zero (by simp [extruded, hword])] at h
      exact absurd h (by simp)
  | some v =>
      refine ⟨v, ?_⟩
      intro n hn
      simp [extruded, htool, hmotion, hword, hn]

end Machine

namespace Writer

theorem mode_enter (w : Writer) (p : BodyPlan) (layer : Layer) (first : Segment)
    (commands : List Command) :
    (w.enter p layer first commands).machine.mode .e = first.entry.mode .e := by
  rw [machine_enter]
  exact Machine.mode_restoration _ _

theorem within_enter_extruder {w : Writer} {p : BodyPlan} {layer : Layer} {first : Segment}
    {commands : List Command} (hfirst : first.entry.extrusion = .absolute)
    (hfinite : first.entry.e.isFinite = true)
    (hnumber : (w.enter p layer first commands).machine.e.isNaN = false) :
    Within (1 / 10 ^ 5) (w.enter p layer first commands).machine.e first.entry.e := by
  rw [machine_enter] at hnumber ⊢
  exact Machine.within_restoration hfirst hfinite hnumber

/-- Whether the last command of a list for which something is given is kept. -/
def KeepsLast {α : Type} (given : Command → Option α) (cs : List Command) : Prop :=
  ∀ d, Command.lastGiven given cs = some d → keeps d = true

theorem KeepsLast.mode_run {cs : List Command} {a : Axis}
    (h : KeepsLast (fun c => c.switches a) cs) {m n : Machine} (hmode : n.mode a = m.mode a) :
    (n.run (cs.filter keeps)).mode a = (m.run cs).mode a := by
  rw [Machine.mode_run, Machine.mode_run, hmode]
  cases hlast : Command.lastGiven (fun c => c.switches a) cs with
  | none => rw [Command.lastGiven_filter_eq_none hlast]
  | some d => rw [Command.lastGiven_filter hlast (h d hlast)]

/-- Whether a run keeps what it does to the extruder in front of a place: its last switch
if E is relative there, and otherwise the last line that leads the extruder since a place
from which on E is absolute. -/
def KeepsExtruder (first : Segment) (own : List Command) : Prop :=
  (KeepsLast (fun c => c.switches .e) own ∧ (first.entry.run own).extrusion = .relative) ∨
    ∃ pre post, own = pre ++ post ∧ KeepsLast (fun c => c.switches .e) pre ∧
      (first.entry.run pre).extrusion = .absolute ∧
      (∀ d ∈ post, d.switches .e ≠ some .relative) ∧
      ∃ d, Command.lastGiven (fun c => c.target .e) post = some d ∧ keeps d = true

/-- Whether E is absolute from the entry of a run on, and the last line that leads it is kept. -/
def LeadsExtruder (first : Segment) (own : List Command) : Prop :=
  first.entry.extrusion = .absolute ∧ (∀ d ∈ own, d.switches .e ≠ some .relative) ∧
    ∃ d ∈ Command.lastGiven (fun c => c.target .e) own, keeps d = true

instance (first : Segment) (own : List Command) : Decidable (LeadsExtruder first own) :=
  inferInstanceAs (Decidable (_ ∧ _ ∧ _))

/-- Whether the extruder still stands where the run was entered, with E absolute. -/
def RestoresExtruder (first : Segment) (own : List Command) : Prop :=
  first.entry.extrusion = .absolute ∧ first.entry.e.isFinite = true ∧
    ∀ d ∈ own, d.switches .e ≠ some .relative ∧ d.target .e = none

instance (first : Segment) (own : List Command) : Decidable (RestoresExtruder first own) :=
  inferInstanceAs (Decidable (_ ∧ _ ∧ _))

variable {first : Segment} {own : List Command} {entered : Machine}

theorem LeadsExtruder.keeps (h : LeadsExtruder first own) : KeepsExtruder first own := by
  obtain ⟨hfirst, hown, d, hlast, hkeeps⟩ := h
  have hnone : KeepsLast (fun c => c.switches .e) ([] : List Command) := by
    intro d hd
    cases hd
  exact .inr ⟨[], own, rfl, hnone, hfirst, hown, d, hlast, hkeeps⟩

theorem KeepsExtruder.extruded (h : KeepsExtruder first own)
    (hmode : entered.mode .e = first.entry.mode .e) (c : Command) :
    (entered.run (own.filter keeps)).extruded c = (first.entry.run own).extruded c := by
  rcases h with ⟨hlast, hrelative⟩ | ⟨pre, post, rfl, hpre, hm, hpost, d, hlast, hkeeps⟩
  · apply Machine.extruded_congr (hlast.mode_run hmode)
    intro habsolute
    rw [hrelative] at habsolute
    exact absurd habsolute (by decide)
  · rw [List.filter_append, Machine.run_append, Machine.run_append]
    have hn := (hpre.mode_run hmode).trans hm
    generalize first.entry.run pre = m at hm ⊢
    generalize entered.run (pre.filter keeps) = n at hn ⊢
    have hfiltered : ∀ c ∈ post.filter keeps, c.switches .e ≠ some .relative := by
      intro c hc
      exact hpost c (List.mem_filter.mp hc).1
    have hmodes : (n.run (post.filter keeps)).mode .e = (m.run post).mode .e :=
      (Machine.mode_run_eq_absolute hn hfiltered).trans
        (Machine.mode_run_eq_absolute (a := .e) hm hpost).symm
    apply Machine.extruded_congr hmodes
    intro _
    exact Machine.along_run_filter (a := .e) hm hn hpost hlast hkeeps

theorem RestoresExtruder.run (h : RestoresExtruder first own)
    (hmode : entered.mode .e = first.entry.mode .e) :
    (entered.run (own.filter keeps)).extrusion = .absolute ∧
      (first.entry.run own).extrusion = .absolute ∧
      (entered.run (own.filter keeps)).e = entered.e ∧
      (first.entry.run own).e = first.entry.e := by
  obtain ⟨hfirst, -, hown⟩ := h
  refine ⟨?_, ?_, ?_, ?_⟩
  · apply Machine.mode_run_eq_absolute (a := .e) (hmode.trans hfirst)
    intro d hd
    exact (hown d (List.mem_filter.mp hd).1).1
  · exact Machine.mode_run_eq_absolute (a := .e) hfirst fun d hd => (hown d hd).1
  · apply Machine.along_run_eq_self (a := .e)
    intro d hd
    exact (hown d (List.mem_filter.mp hd).1).2
  · exact Machine.along_run_eq_self (a := .e) fun d hd => (hown d hd).2

end Writer

namespace Program

/-- Print moves extrude as in the text. Each one occurs once in the body, in a run of a
visit. It pushes out the same amount if the run keeps what it does to the extruder, and
the distance from the restored extruder position if the run does nothing to it. -/
theorem print_moves_keep_extrusion (text : String) (settings : Settings) :
    let p := ofText text
    ∃ jobs body, p.resolve (p.schedule settings) = .ok jobs ∧
      p.synthesize (p.schedule settings) settings = .ok body ∧
      ∀ before c after, p.bodyCommands = before ++ c :: after →
        (p.preambleState.run before).prints c = true →
        (Marker.isLayer c = false →
          body.commands.filter (fun d => decide (d.line = c.line)) = [c]) ∧
        ∀ front d back, body.commands = front ++ d :: back → d.line = c.line →
          d = c ∧ ∃ j ∈ jobs, ∃ v ∈ j.visits, ∃ first rest own later,
            first :: rest ∈ v.runs ∧
            (first :: rest).flatMap Segment.commands = own ++ c :: later ∧
            first.entry.run own = p.preambleState.run before ∧
            (Writer.KeepsExtruder first own →
              (p.preambleState.run front).extruded c =
                (p.preambleState.run before).extruded c) ∧
            (Writer.RestoresExtruder first own → (p.preambleState.run front).e.isNaN = false →
              Within (1 / 10 ^ 5) (p.preambleState.run front).e (p.preambleState.run before).e ∧
              ∃ v, (p.preambleState.run front).extruded c = v - (p.preambleState.run front).e ∧
                (p.preambleState.run before).extruded c =
                  v - (p.preambleState.run before).e) := by
  intro p
  obtain ⟨jobs, body, hwritten, hstanding⟩ := exists_standing text settings
  refine ⟨jobs, body, hwritten.resolved, hwritten.synthesized, ?_⟩
  intro before c after hbefore hprints
  constructor
  · intro hlayer
    apply filter_line_of_schedule text settings hwritten.synthesized _
      (Machine.keeps_of_prints hprints hlayer)
    rw [hbefore]
    simp
  intro front d back hfront hline
  obtain ⟨rfl, j, hj, v, hv, -, w, first, rest, own, later, hstands⟩ :=
    hstanding before c after hbefore front d back hfront hline
  refine ⟨rfl, j, hj, v, hv, first, rest, own, later, hstands.run, hstands.commands,
    hstands.run_before.symm, ?_⟩
  have hmode := w.mode_enter (p.bodyPlan settings) v.layer first (own ++ d :: later)
  have hfrontRun : p.preambleState.run front = _ := hstands.run_front
  have hbeforeRun : p.preambleState.run before = _ := hstands.run_before
  obtain ⟨word, hword⟩ := Machine.exists_extruded_of_prints hprints
  rw [hfrontRun, hbeforeRun]
  constructor
  · intro hkeeps
    exact hkeeps.extruded hmode d
  · intro hrestores hnumber
    obtain ⟨hbodyMode, htextMode, hbodyPlace, htextPlace⟩ := hrestores.run hmode
    refine ⟨?_, word, hword _ hbodyMode, hword _ htextMode⟩
    rw [hbodyPlace] at hnumber ⊢
    rw [htextPlace]
    exact Writer.within_enter_extruder hrestores.1 hrestores.2.1 hnumber

/-- A run that is written behind a higher layer: its first move extrudes from the restored
position, and its second from where the first one ends. -/
theorem print_moves_keep_extrusion_lower_layer :
    let text := "; layer num/total_layer_count: 1/2\nT0\nG1 X5 Z0.2 E1\nT1\nG1 X50 E2\nG1 X51 E4\n" ++
      "; layer num/total_layer_count: 2/2\nT0\nG1 X5 Z0.4 E5\n"
    let p := ofText text
    let settings : Settings :=
      { toolChange := { flavor := .generic }, primeTower := { enabled := false } }
    let c := Command.parse 4 "G1 X50 E2"
    let d := Command.parse 5 "G1 X51 E4"
    ∃ body before after front back, p.synthesize (p.schedule settings) settings = .ok body ∧
      p.bodyCommands = before ++ c :: d :: after ∧ body.commands = front ++ c :: d :: back ∧
      (∃ b ∈ front, b.raw = "G1 X5 Z0.4 E5") ∧
      Within (1 / 10 ^ 5) (p.preambleState.run front).e (p.preambleState.run before).e ∧
      (∃ v, (p.preambleState.run front).extruded c = v - (p.preambleState.run front).e ∧
        (p.preambleState.run before).extruded c = v - (p.preambleState.run before).e) ∧
      (p.preambleState.run (front ++ [c])).extruded d =
        (p.preambleState.run (before ++ [c])).extruded d := by
  intro text p settings c d
  have htext : p.bodyCommands.drop 4 = c :: d :: p.bodyCommands.drop 6 ∧
      (p.preambleState.run (p.bodyCommands.take 4)).prints c = true ∧
      (p.preambleState.run (p.bodyCommands.take 4 ++ [c])).prints d = true := by
    decide +kernel
  have hwritten : ∃ body ∈ (p.synthesize (p.schedule settings) settings).toOption,
      body.commands.drop 22 = c :: d :: body.commands.drop 24 ∧
      (p.preambleState.run (body.commands.take 22)).e.isNaN = false ∧
      ∃ b ∈ body.commands.take 22, b.raw = "G1 X5 Z0.4 E5" := by
    decide +kernel
  have hruns : ∀ jobs ∈ (p.resolve (p.schedule settings)).toOption,
      ∀ v ∈ jobs.flatMap Job.visits, ∀ run ∈ v.runs, ∀ first ∈ run.head?,
      ∀ n < (run.flatMap Segment.commands).length,
        let own := (run.flatMap Segment.commands).take n
        ((run.flatMap Segment.commands)[n]? = some c → Writer.RestoresExtruder first own) ∧
          ((run.flatMap Segment.commands)[n]? = some d → Writer.LeadsExtruder first own) := by
    decide +kernel
  obtain ⟨htextLines, hprints, hprints'⟩ := htext
  obtain ⟨jobs, body, hjobs, hbody, hmoves⟩ := print_moves_keep_extrusion text settings
  have hruns := hruns jobs (by rw [hjobs]; rfl)
  obtain ⟨body', hbody', hbodyLines, hnumber, hearlier⟩ := hwritten
  obtain rfl : body' = body := Except.ok.inj ((eq_ok_of_mem_toOption hbody').symm.trans hbody)
  have hbefore : p.bodyCommands = p.bodyCommands.take 4 ++ c :: d :: p.bodyCommands.drop 6 := by
    rw [← htextLines, List.take_append_drop]
  have hfront : body'.commands = body'.commands.take 22 ++ c :: d :: body'.commands.drop 24 := by
    rw [← hbodyLines, List.take_append_drop]
  -- Nothing leads the extruder in the run in front of the first move.
  obtain ⟨-, hfirst⟩ := hmoves _ _ _ hbefore hprints
  obtain ⟨-, j, hj, v, hv, first, rest, own, later, hrun, hcommands, -, -, hrestores⟩ :=
    hfirst _ _ _ hfront rfl
  have hown := Job.holds_in_run (P := fun _ first own _ => Writer.RestoresExtruder first own)
    (fun v hv run hrun first hfirst n hn => (hruns v hv run hrun first hfirst n hn).1)
    hj hv hrun hcommands
  obtain ⟨hwithin, hdistance⟩ := hrestores hown hnumber
  refine ⟨body', _, _, _, _, hbody, hbefore, hfront, hearlier, hwithin, hdistance, ?_⟩
  -- The first move leads it in front of the second.
  rw [List.append_cons] at hbefore hfront
  obtain ⟨-, hsecond⟩ := hmoves _ _ _ hbefore hprints'
  obtain ⟨-, j, hj, v, hv, first, rest, own, later, hrun, hcommands, -, hkeeps, -⟩ :=
    hsecond _ _ _ hfront rfl
  have hown := Job.holds_in_run (P := fun _ first own _ => Writer.LeadsExtruder first own)
    (fun v hv run hrun first hfirst n hn => (hruns v hv run hrun first hfirst n hn).2)
    hj hv hrun hcommands
  exact hkeeps hown.keeps

/-- A position that is set in a stripped sequence is lost: the restored one is older. -/
theorem print_moves_lose_set_position :
    Alters ("; layer num/total_layer_count: 1/1\nG1 X1 E5\n" ++
        "M620 S0A\nG92 E0\nT0\nM621 S0A\nG1 X2 E1\n")
      { toolChange := { flavor := .generic } } (1 / 10 ^ 5) Machine.extruded := by
  apply alters_of_drop 6 9
  decide +kernel

end Program

end ToolBatching
