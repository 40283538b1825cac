import ToolBatching.Proofs.Writing.Entering
import ToolBatching.Proofs.Writing.Standing

namespace ToolBatching

open Number

namespace Program

variable {lines : List Command} {p : Program}

theorem Read.run_before (h : Read lines p) {before after : List Command}
    (hbefore : p.bodyCommands = before ++ after) :
    p.preambleState.run before = Machine.run {} (p.preamble ++ before) ∧
      ∀ c ∈ p.preamble ++ before, c ∈ lines := by
  refine ⟨by rw [h.preambleState, Machine.run_append], ?_⟩
  intro c hc
  rw [← h.commands, Program.commands, hbefore, ← List.append_assoc]
  exact List.mem_append_left _ (List.mem_append_left _ hc)

theorem Read.positioning_run (h : Read lines p)
    (habsolute : ∀ c ∈ lines, c.switches .x ≠ some .relative) {before after : List Command}
    (hbefore : p.bodyCommands = before ++ after) :
    (p.preambleState.run before).positioning = .absolute := by
  obtain ⟨heq, hmem⟩ := h.run_before hbefore
  rw [heq]
  exact Machine.mode_run_eq_absolute (a := .x) rfl fun c hc => habsolute c (hmem c hc)

theorem Read.isFinite_run (h : Read lines p)
    (habsolute : ∀ c ∈ lines, c.switches .x ≠ some .relative) {a : Axis} (ha : a ≠ .e)
    (hfinite : ∀ c ∈ lines, ∀ v ∈ c.along a, v.isFinite = true) {before after : List Command}
    (hbefore : p.bodyCommands = before ++ after) :
    ((p.preambleState.run before).along a).isFinite = true := by
  obtain ⟨heq, hmem⟩ := h.run_before hbefore
  have hstart : (Machine.along {} a).isFinite = true := by cases a <;> decide
  rw [heq]
  apply Machine.along_run_of (fun v => v.isFinite = true) (by decide) _ _ _ hstart
  · exact Machine.mode_of_ne ha {}
  · intro c hc
    rw [Command.switches_eq ha]
    exact habsolute c (hmem c hc)
  · intro c hc v hv
    exact hfinite c (hmem c hc) v hv

theorem Read.positioning_restores (h : Read lines p)
    (habsolute : ∀ c ∈ lines, c.switches .x ≠ some .relative) (settings : Settings) {m : Machine}
    (hm : (p.bodyPlan settings).Restores m) : m.positioning = .absolute := by
  cases hm with
  | entry hs =>
      obtain ⟨before, hentry, after, hprefix⟩ := h.chained.exists_run hs
      rw [commands_segments, List.append_assoc] at hprefix
      rw [hentry]
      exact h.positioning_run habsolute hprefix.symm
  | exit =>
      have hrun := h.positioning_run habsolute (List.append_nil p.bodyCommands).symm
      rw [h.preambleState, ← Machine.run_append, ← h.exit] at hrun
      exact hrun

theorem Read.run_body (h : Read lines p) {settings : Settings} {body : Body}
    (hbody : p.synthesize (p.schedule settings) settings = .ok body)
    (habsolute : ∀ c ∈ lines, c.switches .x ≠ some .relative)
    (hnumbers : ∀ c ∈ lines, ∀ a, ∀ v ∈ c.along a, v.isNaN = false)
    {front back : List Command} (hfront : body.commands = front ++ back) {a : Axis}
    (ha : a ≠ .e) (hstart : (p.preambleState.along a).isFinite = true) :
    (p.preambleState.run front).positioning = .absolute ∧
      ((p.preambleState.run front).along a).isNaN = false := by
  have hcomposes : ∀ c ∈ front, (p.bodyPlan settings).Composes c := by
    intro c hc
    apply h.composes hbody
    rw [hfront]
    exact List.mem_append_left back hc
  have hswitches : ∀ c ∈ front, c.switches .x ≠ some .relative := by
    intro c hc
    exact (hcomposes c hc).switches_ne
      (fun d hd => habsolute d (h.mem_of_mem_bodyCommands hd))
      fun m hm => h.positioning_restores habsolute settings hm
  have hmode : p.preambleState.positioning = .absolute :=
    h.positioning_run habsolute (List.nil_append p.bodyCommands).symm
  refine ⟨Machine.mode_run_eq_absolute (a := .x) hmode hswitches, ?_⟩
  apply Machine.along_run_of (fun v => v.isNaN = false) (by decide) _ _ _
    (isNaN_of_isFinite hstart)
  · exact (Machine.mode_of_ne ha _).trans hmode
  · intro c hc
    rw [Command.switches_eq ha]
    exact hswitches c hc
  · intro c hc v hv
    refine (hcomposes c hc).isNaN_along ?_ hv
    intro d hd
    exact hnumbers d (h.mem_of_mem_bodyCommands hd)

end Program

namespace Writer

variable {s : HopSettings} {layer : Layer} {first : Segment} {upto later : List Command} {a : Axis}

/-- Whether a run leads an axis where the text does: what leads it there is kept, or
nothing does and the run is entered at the place in front of it. -/
def KeepsPlace (s : HopSettings) (layer : Layer) (first : Segment) (upto later : List Command)
    (a : Axis) : Prop :=
  match Command.lastGiven (fun c => c.target a) upto with
  | some d => keeps d = true
  | none =>
      (s.feedrate a).isFinite = true ∧
        match a with
        | .z => ¬ first.entry.z < layer.z
        | _ => (∃ d ∈ upto, d.slides = true) ∨ ∀ d ∈ later, d.slides = false

theorem keepsPlace_of_target {c : Command} (hkeeps : keeps c = true)
    (htarget : (c.target a).isSome = true) : KeepsPlace s layer first (upto ++ [c]) later a := by
  unfold KeepsPlace
  rw [Command.lastGiven_concat htarget]
  exact hkeeps

theorem prefix_of_slides {front back : List Command} {d : Command}
    (hsplit : upto ++ later = front ++ d :: back) (hd : d.slides = true)
    (hfront : ∀ e ∈ front, e.slides = false)
    (hslides : (∃ e ∈ upto, e.slides = true) ∨ ∀ e ∈ later, e.slides = false) :
    front ++ [d] <+: upto := by
  have hbehind (hsub : upto ⊆ front) (hlater : d ∈ later) : front ++ [d] <+: upto := by
    rcases hslides with ⟨e, he, hslides⟩ | hnone
    · rw [hfront e (hsub he)] at hslides
      exact absurd hslides (by simp)
    · rw [hnone d hlater] at hd
      exact absurd hd (by simp)
  rcases List.append_eq_append_iff.mp hsplit with ⟨more, hmore, hback⟩ | ⟨more, hmore, hback⟩
  · apply hbehind
    · rw [hmore]
      exact List.subset_append_left upto more
    · rw [hback]
      simp
  · cases more with
    | nil =>
        rw [List.append_nil] at hmore
        apply hbehind (hmore ▸ List.Subset.refl _)
        rw [← List.nil_append later, ← hback]
        exact List.mem_cons_self
    | cons x more =>
        obtain ⟨rfl, -⟩ := List.cons.inj hback
        exact ⟨more, by rw [hmore, List.append_assoc, List.singleton_append]⟩

theorem landing_eq_entry (ha : a = .x ∨ a = .y)
    (hnone : Command.lastGiven (fun c => c.target a) upto = none)
    (hslides : (∃ d ∈ upto, d.slides = true) ∨ ∀ d ∈ later, d.slides = false) :
    landing layer first (upto ++ later) a = first.entry.along a := by
  cases hpoint : descentPoint first.entry (upto ++ later) with
  | none => rcases ha with rfl | rfl <;> simp [landing, hpoint, Machine.along]
  | some point =>
      obtain ⟨front, d, back, passed, hsplit, hd, hfront, hpassed, rfl⟩ :=
        exists_of_descentPoint hpoint
      have hwithin : front ++ [d] <+: upto := prefix_of_slides hsplit hd hfront hslides
      have hkeeps : (first.entry.run passed).along a = first.entry.along a := by
        apply Machine.along_run_eq_self
        intro c hc
        exact Command.lastGiven_eq_none_iff.mp hnone c (hwithin.subset (hpassed.subset hc))
      rcases ha with rfl | rfl
      · simpa [landing, hpoint, Machine.along] using hkeeps
      · simpa [landing, hpoint, Machine.along] using hkeeps

theorem isFinite_landing (ha : a = .x ∨ a = .y) {commands : List Command}
    (hentry : first.entry.positioning = .absolute)
    (habsolute : ∀ d ∈ commands, d.switches .x ≠ some .relative)
    (hfinite : ∀ d ∈ commands, ∀ v ∈ d.along a, v.isFinite = true)
    (hfirst : (first.entry.along a).isFinite = true) :
    (landing layer first commands a).isFinite = true := by
  have hne : a ≠ .e := by
    rcases ha with rfl | rfl <;> decide
  cases hpoint : descentPoint first.entry commands with
  | none =>
      rcases ha with rfl | rfl
      · simpa [landing, hpoint, Machine.along] using hfirst
      · simpa [landing, hpoint, Machine.along] using hfirst
  | some point =>
      obtain ⟨front, d, back, passed, rfl, -, -, hpassed, rfl⟩ := exists_of_descentPoint hpoint
      have hmem : ∀ c ∈ passed, c ∈ front ++ d :: back := by
        intro c hc
        have hin := hpassed.subset hc
        simp only [List.mem_append, List.mem_cons, List.not_mem_nil, or_false] at hin ⊢
        exact hin.imp_right Or.inl
      have hrun : ((first.entry.run passed).along a).isFinite = true := by
        apply Machine.along_run_of (fun v => v.isFinite = true) (by decide) _ _ _ hfirst
        · exact (Machine.mode_of_ne hne _).trans hentry
        · intro c hc
          rw [Command.switches_eq hne]
          exact habsolute c (hmem c hc)
        · intro c hc
          exact hfinite c (hmem c hc)
      rcases ha with rfl | rfl
      · simpa [landing, hpoint, Machine.along] using hrun
      · simpa [landing, hpoint, Machine.along] using hrun

/-- What one run keeps: a run that is entered at its landing point stays there along an axis
that nothing leads elsewhere, and ends where the text does along an axis whose place it
keeps. -/
theorem within_run {entered : Machine} (ha : a ≠ .e)
    (hentry : first.entry.positioning = .absolute) (hentered : entered.positioning = .absolute)
    (habsolute : ∀ d ∈ upto, d.switches .x ≠ some .relative)
    (hfinite : ∀ d ∈ upto, ∀ v ∈ d.along a, v.isFinite = true)
    (hfirst : (first.entry.along a).isFinite = true)
    (hlanding : (s.feedrate a).isFinite = true →
      (landing layer first (upto ++ later) a).isFinite = true →
      Within (1 / 1000) (entered.along a) (landing layer first (upto ++ later) a)) :
    (Command.lastGiven (fun c => c.target a) upto = none → (s.feedrate a).isFinite = true →
      (landing layer first (upto ++ later) a).isFinite = true →
      Within (1 / 1000) ((entered.run (upto.filter keeps)).along a)
        (landing layer first (upto ++ later) a)) ∧
    (KeepsPlace s layer first upto later a →
      Within (1 / 1000) ((entered.run (upto.filter keeps)).along a)
        ((first.entry.run upto).along a)) := by
  have hentryMode : first.entry.mode a = .absolute := (Machine.mode_of_ne ha _).trans hentry
  have henteredMode : entered.mode a = .absolute := (Machine.mode_of_ne ha _).trans hentered
  have hswitches : ∀ d ∈ upto, d.switches a ≠ some .relative := by
    intro d hd
    rw [Command.switches_eq ha]
    exact habsolute d hd
  have hstays (hnone : Command.lastGiven (fun c => c.target a) upto = none) :
      (entered.run (upto.filter keeps)).along a = entered.along a := by
    apply Machine.along_run_eq_self
    intro c hc
    exact Command.lastGiven_eq_none_iff.mp hnone c (List.mem_filter.mp hc).1
  constructor
  · intro hnone hfeedrate hplace
    rw [hstays hnone]
    exact hlanding hfeedrate hplace
  · intro hkeeps
    unfold KeepsPlace at hkeeps
    cases hlast : Command.lastGiven (fun c => c.target a) upto with
    | some d =>
        rw [hlast] at hkeeps
        have hreached : ((first.entry.run upto).along a).isFinite = true :=
          Machine.along_run_of (fun v => v.isFinite = true) (by decide) hentryMode hswitches
            hfinite hfirst
        rw [Machine.along_run_filter hentryMode henteredMode hswitches hlast hkeeps]
        refine ⟨hreached, hreached, ?_⟩
        rw [sub_self, abs_zero]
        norm_num
    | none =>
        rw [hlast] at hkeeps
        obtain ⟨hfeedrate, hkeeps⟩ := hkeeps
        have hself : (first.entry.run upto).along a = first.entry.along a := by
          apply Machine.along_run_eq_self
          intro c hc
          exact Command.lastGiven_eq_none_iff.mp hlast c hc
        rw [hstays hlast, hself]
        have hsideways (hside : a = .x ∨ a = .y)
            (hslides : (∃ d ∈ upto, d.slides = true) ∨ ∀ d ∈ later, d.slides = false) :
            Within (1 / 1000) (entered.along a) (first.entry.along a) := by
          have heq : landing layer first (upto ++ later) a = first.entry.along a :=
            landing_eq_entry hside hlast hslides
          rw [heq] at hlanding
          exact hlanding hfeedrate hfirst
        cases a with
        | x => exact hsideways (Or.inl rfl) hkeeps
        | y => exact hsideways (Or.inr rfl) hkeeps
        | z =>
            obtain ⟨hplace, hvalue⟩ := value_greater_of_not_lt hfirst hkeeps
            obtain ⟨hleft, -, hclose⟩ := hlanding hfeedrate hplace
            refine ⟨hleft, hfirst, ?_⟩
            rw [← hvalue]
            exact hclose
        | e => exact absurd rfl ha

end Writer

namespace Program

variable {lines : List Command} {p : Program} {settings : Settings} {v : Visit}
  {before front : List Command} {c : Command}

section Stands

variable {w : Writer} {first : Segment} {rest : List Segment} {own later : List Command}

theorem Read.entry_stands (h : Read lines p)
    (hstands : Writer.Stands (p.bodyPlan settings) v before front c w first rest own later)
    (habsolute : ∀ c ∈ lines, c.switches .x ≠ some .relative)
    (hfinite : ∀ c ∈ lines, ∀ a, a ≠ .e → ∀ v ∈ c.along a, v.isFinite = true)
    {after : List Command} (hbefore : p.bodyCommands = before ++ after) :
    first.entry.positioning = .absolute ∧
      ∀ a, a ≠ .e → (first.entry.along a).isFinite = true := by
  obtain ⟨lead, rfl, hentry⟩ := hstands.before
  rw [List.append_assoc] at hbefore
  rw [hentry]
  refine ⟨h.positioning_run habsolute hbefore, ?_⟩
  intro a ha
  exact h.isFinite_run habsolute ha (fun c hc => hfinite c hc a ha) hbefore

/-- The writer enters the run at its landing point. -/
theorem Read.within_entered (h : Read lines p) {body : Body}
    (hbody : p.synthesize (p.schedule settings) settings = .ok body)
    (hstands : Writer.Stands (p.bodyPlan settings) v before front c w first rest own later)
    (hv : v.OfLayer p) (habsolute : ∀ c ∈ lines, c.switches .x ≠ some .relative)
    (hfinite : ∀ c ∈ lines, ∀ a, a ≠ .e → ∀ v ∈ c.along a, v.isFinite = true)
    (hnumbers : ∀ c ∈ lines, ∀ a, ∀ v ∈ c.along a, v.isNaN = false) {back after : List Command}
    (hfront : body.commands = front ++ back) (hbefore : p.bodyCommands = before ++ after) {a : Axis}
    (ha : a ≠ .e) :
    (w.enter (p.bodyPlan settings) v.layer first (own ++ c :: later)).machine.positioning =
        .absolute ∧
      ((settings.hop.feedrate a).isFinite = true →
        (Writer.landing v.layer first (own ++ c :: later) a).isFinite = true →
        Within (1 / 1000)
          ((w.enter (p.bodyPlan settings) v.layer first (own ++ c :: later)).machine.along a)
          (Writer.landing v.layer first (own ++ c :: later) a)) := by
  obtain ⟨hentry, hfirst⟩ := h.entry_stands hstands habsolute hfinite hbefore
  have hmem := h.mem_of_stands hv hstands
  have hextends : Writer.Extends (fun _ _ => True) w
      (w.enter (p.bodyPlan settings) v.layer first (own ++ c :: later)) :=
    (w.emits_enter (p.bodyPlan settings) v.layer first (own ++ c :: later)).extends
  have hentered := hextends.machine hstands.machine
  obtain ⟨added, hadded, -, -⟩ := hextends
  have hreached : body.commands =
      (w.enter (p.bodyPlan settings) v.layer first (own ++ c :: later)).body.toList ++
        (own.filter Writer.keeps ++ back) := by
    rw [hfront, hstands.front, List.append_assoc]
  have hwritten : body.commands =
      w.body.toList ++ (added ++ (own.filter Writer.keeps ++ back)) := by
    rw [hreached, hadded, List.append_assoc]
  have hstart (b : Axis) (hb : b ≠ .e) : (p.preambleState.along b).isFinite = true := by
    have hrun := h.isFinite_run habsolute hb (fun c hc => hfinite c hc b hb)
      (List.nil_append p.bodyCommands).symm
    rwa [Machine.run_nil] at hrun
  have hnumber (b : Axis) (hb : b ≠ .e) : w.machine.positioning = .absolute ∧
      (w.machine.along b).isNaN = false := by
    rw [hstands.machine]
    exact h.run_body hbody habsolute hnumbers hwritten hb (hstart b hb)
  have hlands (b : Axis) (hb : b = .x ∨ b = .y) :
      (Writer.landing v.layer first (own ++ c :: later) b).isFinite = true := by
    have hne : b ≠ .e := by
      rcases hb with rfl | rfl <;> decide
    exact Writer.isFinite_landing hb hentry (fun d hd => habsolute d (hmem d hd))
      (fun d hd => hfinite d (hmem d hd) b hne) (hfirst b hne)
  obtain ⟨hsideways, hvertical⟩ := Writer.within_enter (hnumber .x (by decide)).1
    (hnumber .x (by decide)).2 (hnumber .y (by decide)).2 (hnumber .z (by decide)).2
    (p.bodyPlan settings) v.layer first (own ++ c :: later)
  constructor
  · rw [hentered]
    exact (h.run_body hbody habsolute hnumbers hreached ha (hstart a ha)).1
  · intro hfeedrate hplace
    cases a with
    | x => exact (hsideways hfeedrate hplace (hlands .y (Or.inr rfl))).1
    | y => exact (hsideways hfeedrate (hlands .x (Or.inl rfl)) hplace).2
    | z => exact hvertical hfeedrate hplace
    | e => exact absurd rfl ha

theorem Read.within_stands (h : Read lines p) {body : Body}
    (hbody : p.synthesize (p.schedule settings) settings = .ok body)
    (hstands : Writer.Stands (p.bodyPlan settings) v before front c w first rest own later)
    (hv : v.OfLayer p) (habsolute : ∀ c ∈ lines, c.switches .x ≠ some .relative)
    (hfinite : ∀ c ∈ lines, ∀ a, a ≠ .e → ∀ v ∈ c.along a, v.isFinite = true)
    (hnumbers : ∀ c ∈ lines, ∀ a, ∀ v ∈ c.along a, v.isNaN = false) {back after : List Command}
    (hfront : body.commands = front ++ c :: back)
    (hbefore : p.bodyCommands = before ++ c :: after) {a : Axis} (ha : a ≠ .e) :
    (Command.lastGiven (fun c => c.target a) (own ++ [c]) = none →
      (settings.hop.feedrate a).isFinite = true →
      (Writer.landing v.layer first (own ++ c :: later) a).isFinite = true →
      Within (1 / 1000) ((p.preambleState.run (front ++ [c])).along a)
        (Writer.landing v.layer first (own ++ c :: later) a)) ∧
    (Writer.KeepsPlace settings.hop v.layer first (own ++ [c]) later a →
      Within (1 / 1000) ((p.preambleState.run (front ++ [c])).along a)
        ((p.preambleState.run (before ++ [c])).along a)) := by
  obtain ⟨hentry, hfirst⟩ := h.entry_stands hstands habsolute hfinite hbefore
  obtain ⟨hentered, hlanding⟩ := h.within_entered hbody hstands hv habsolute hfinite hnumbers
    hfront hbefore ha
  have hmem : ∀ d ∈ own ++ [c], d ∈ lines := by
    intro d hd
    apply h.mem_of_stands hv hstands
    rw [← List.singleton_append, ← List.append_assoc]
    exact List.mem_append_left later hd
  have hkept : (own ++ [c]).filter Writer.keeps = own.filter Writer.keeps ++ [c] := by
    rw [List.filter_append, List.filter_singleton, hstands.keeps]
    rfl
  have hbodyRun : p.preambleState.run (front ++ [c]) =
      (w.enter (p.bodyPlan settings) v.layer first (own ++ c :: later)).machine.run
        ((own ++ [c]).filter Writer.keeps) := by
    rw [hkept, Machine.run_append, Machine.run_append, ← hstands.run_front]
    rfl
  have htextRun : p.preambleState.run (before ++ [c]) = first.entry.run (own ++ [c]) := by
    rw [Machine.run_append, Machine.run_append, ← hstands.run_before]
    rfl
  have hcommands : own ++ c :: later = (own ++ [c]) ++ later := by
    rw [List.append_assoc, List.singleton_append]
  rw [hbodyRun, htextRun]
  rw [hcommands] at hentered hlanding ⊢
  exact Writer.within_run ha hentry hentered (fun d hd => habsolute d (hmem d hd))
    (fun d hd => hfinite d (hmem d hd) a ha) (hfirst a ha) hlanding

end Stands

/-- Every source line of a body keeps its place. It is written in a run that holds it as
the layers do, and the body ends there where the text does along each axis that the run
keeps, and at the landing point of the run along an axis that nothing in the run leads. -/
theorem source_lines_keep_place (text : String) (settings : Settings)
    (hfinite : ∀ c ∈ readCommands text, ∀ a, a ≠ .e → ∀ v ∈ c.along a, v.isFinite = true)
    (habsolute : ∀ c ∈ readCommands text, c.switches .x ≠ some .relative) :
    let p := ofText text
    ∃ jobs body, p.resolve (p.schedule settings) = .ok jobs ∧
      p.synthesize (p.schedule settings) settings = .ok body ∧
      ∀ before c after, p.bodyCommands = before ++ c :: after →
        ∀ front d back, body.commands = front ++ d :: back → d.line = c.line →
          d = c ∧ ∃ j ∈ jobs, ∃ v ∈ j.visits, ∃ first rest own later,
            first :: rest ∈ v.runs ∧
            (first :: rest).flatMap Segment.commands = own ++ c :: later ∧
            first.entry.run own = p.preambleState.run before ∧
            ∀ a, a ≠ .e →
              (Writer.KeepsPlace settings.hop v.layer first (own ++ [c]) later a →
                Within (1 / 1000) ((p.preambleState.run (front ++ [c])).along a)
                  ((p.preambleState.run (before ++ [c])).along a)) ∧
              (Command.lastGiven (fun c => c.target a) (own ++ [c]) = none →
                (settings.hop.feedrate a).isFinite = true →
                (Writer.landing v.layer first (own ++ c :: later) a).isFinite = true →
                Within (1 / 1000) ((p.preambleState.run (front ++ [c])).along a)
                  (Writer.landing v.layer first (own ++ c :: later) a)) := by
  intro p
  have hread : Read (readCommands text) p := read_ofText text
  obtain ⟨jobs, body, hwritten, hstanding⟩ := exists_standing text settings
  refine ⟨jobs, body, hwritten.resolved, hwritten.synthesized, ?_⟩
  intro before c after hbefore front d back hfront hline
  obtain ⟨rfl, j, hj, v, hv, hlayer, w, first, rest, own, later, hstands⟩ :=
    hstanding before c after hbefore front d back hfront hline
  refine ⟨rfl, j, hj, v, hv, first, rest, own, later, hstands.run, hstands.commands,
    hstands.run_before.symm, ?_⟩
  intro a ha
  exact (hread.within_stands hwritten.synthesized hstands hlayer habsolute hfinite
    (fun c hc a v hv => isNaN_of_mem_readCommands text hc hv) hfront hbefore ha).symm

/-- The line of a lower layer that is printed behind an upper one: it leads X and Y itself, and its
run is entered at the height of its layer. -/
theorem source_lines_keep_place_lower_layer :
    let text := "; layer num/total_layer_count: 1/2\nT0\nG1 X5 Y4 Z0.2 E1\nT1\nG1 X50 Y4 E2\n" ++
      "; layer num/total_layer_count: 2/2\nG1 X50 Y9 Z0.4 E3\nT0\nG1 X5 Y9 E4\n"
    let p := ofText text
    let settings : Settings :=
      { toolChange := { flavor := .generic }, primeTower := { enabled := false } }
    let c := Command.parse 4 "G1 X50 Y4 E2"
    ((∀ c ∈ readCommands text, ∀ a ∈ [Axis.x, .y, .z], ∀ v ∈ c.along a, v.isFinite = true) ∧
      ∀ c ∈ readCommands text, c.switches .x ≠ some .relative) ∧
    ∃ body before after front back, p.synthesize (p.schedule settings) settings = .ok body ∧
      p.bodyCommands = before ++ c :: after ∧ body.commands = front ++ c :: back ∧
      (p.preambleState.run front).z = 0.2 ∧ (∃ d ∈ front, d.raw = "G1 X5 Y9 E4") ∧
      (∀ a ∈ [Axis.x, .y], Within (1 / 1000) ((p.preambleState.run (front ++ [c])).along a)
        ((p.preambleState.run (before ++ [c])).along a)) ∧
      Within (1 / 1000) (p.preambleState.run (front ++ [c])).z 0.2 := by
  intro text p settings c
  have hlines : (∀ c ∈ readCommands text, ∀ a ∈ [Axis.x, .y, .z], ∀ v ∈ c.along a,
      v.isFinite = true) ∧ ∀ c ∈ readCommands text, c.switches .x ≠ some .relative := by
    decide +kernel
  have hbodyLine : (p.bodyCommands.drop 4).head? = some c := by decide +kernel
  have hwritten : ∃ body ∈ (p.synthesize (p.schedule settings) settings).toOption,
      (body.commands.drop 22).head? = some c ∧
      (p.preambleState.run (body.commands.take 22)).z = 0.2 ∧
      ∃ d ∈ body.commands.take 22, d.raw = "G1 X5 Y9 E4" := by
    decide +kernel
  have hleads : Writer.keeps c = true ∧ ∀ a ∈ [Axis.x, .y], (c.target a).isSome = true := by
    decide +kernel
  -- The run of the line begins with it, so nothing leads it in Z.
  have hruns : ∀ jobs ∈ (p.resolve (p.schedule settings)).toOption,
      ∀ v ∈ jobs.flatMap Job.visits, ∀ run ∈ v.runs, ∀ first ∈ run.head?,
      ∀ n < (run.flatMap Segment.commands).length, (run.flatMap Segment.commands)[n]? = some c →
        let own := (run.flatMap Segment.commands).take n
        Command.lastGiven (fun c => c.target .z) (own ++ [c]) = none ∧
          Writer.landing v.layer first
            (own ++ c :: (run.flatMap Segment.commands).drop (n + 1)) .z = 0.2 := by
    decide +kernel
  have hspeed : (settings.hop.feedrate .z).isFinite = true ∧ (0.2 : Float).isFinite = true := by
    decide +kernel
  have haxes : ∀ a : Axis, a ≠ .e → a ∈ [Axis.x, .y, .z] := by
    intro a ha
    cases a <;> simp_all
  obtain ⟨hfinite, habsolute⟩ := hlines
  obtain ⟨jobs, body, hjobs, hbody, hplaces⟩ := source_lines_keep_place text settings
    (fun c hc a ha => hfinite c hc a (haxes a ha)) habsolute
  obtain ⟨body', hbody', hline, hheight, hearlier⟩ := hwritten
  obtain rfl : body' = body := Except.ok.inj ((eq_ok_of_mem_toOption hbody').symm.trans hbody)
  obtain ⟨after, hbefore⟩ := List.head?_eq_some_iff.mp hbodyLine
  obtain ⟨back, hfront⟩ := List.head?_eq_some_iff.mp hline
  have hbefore : p.bodyCommands = p.bodyCommands.take 4 ++ c :: after := by
    rw [← hbefore, List.take_append_drop]
  have hfront : body'.commands = body'.commands.take 22 ++ c :: back := by
    rw [← hfront, List.take_append_drop]
  obtain ⟨-, j, hj, v, hv, first, rest, own, later, hrun, hcommands, -, hends⟩ :=
    hplaces _ _ _ hbefore _ _ _ hfront rfl
  refine ⟨⟨hfinite, habsolute⟩, body', _, after, _, back, hbody, hbefore, hfront, hheight,
    hearlier, ?_, ?_⟩
  · intro a ha
    refine (hends a (by rintro rfl; simp at ha)).1 ?_
    exact Writer.keepsPlace_of_target hleads.1 (hleads.2 a ha)
  · obtain ⟨hlast, hheight⟩ := Job.holds_in_run (P := fun v first own later =>
        Command.lastGiven (fun c => c.target .z) (own ++ [c]) = none ∧
          Writer.landing v.layer first (own ++ c :: later) .z = 0.2)
      (hruns jobs (by rw [hjobs]; rfl)) hj hv hrun hcommands
    have hlanding := (hends .z (by decide)).2 hlast hspeed.1
    rw [hheight] at hlanding
    exact hlanding hspeed.2

/-- Lines lose their place where their run is entered below the layer, where they are led
by a line that is stripped or by none in front of the descent point, and where the travel
to their run cannot be read. -/
theorem print_moves_displaced :
    Alters "G1 Z0.2\n; layer num/total_layer_count: 1/1\n; Z_HEIGHT: 0.4\nT0\nG1 X5 E1\n"
        { toolChange := { flavor := .generic } } (1 / 1000) (fun m c => (m.step c).z) ∧
      Alters "; layer num/total_layer_count: 1/1\nM620 S1A\nT1\nG1 X9\nM621 S1A\nG1 Y5 E1\n"
        { toolChange := { flavor := .generic } } (1 / 1000) (fun m c => (m.step c).x) ∧
      Alters "; layer num/total_layer_count: 1/1\nG1 E1\nG1 X9\n"
        { toolChange := { flavor := .generic } } (1 / 1000) (fun m c => (m.step c).x) ∧
      Alters ("; layer num/total_layer_count: 1/1\nT0\nG1 X1 E1\n" ++
          "; layer num/total_layer_count: 2/2\nT1\nG1 E2\nT0\nG1 X9 E3\n")
        { toolChange := { flavor := .generic }, hop := { travelSpeed := 1e308 },
          primeTower := { enabled := false } } (1 / 1000) (fun m c => (m.step c).x) := by
  refine ⟨?_, ?_, ?_, ?_⟩
  · apply alters_of_drop 3 7
    decide +kernel
  · apply alters_of_drop 5 5
    decide +kernel
  · apply alters_of_drop 1 3
    decide +kernel
  · apply alters_of_drop 5 17
    decide +kernel

end Program

end ToolBatching
