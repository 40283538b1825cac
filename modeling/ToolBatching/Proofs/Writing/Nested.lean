import ToolBatching.Proofs.Reading.Nesting
import ToolBatching.Proofs.Writing.Blocks
import ToolBatching.Proofs.Writing.TowerMarks

namespace ToolBatching

namespace Marker

open Text

theorem prefix_of_dropLiteral {pattern text rest : List Char}
    (h : dropLiteral pattern text = some rest) : pattern <+: text := by
  induction pattern generalizing text with
  | nil => exact List.nil_prefix
  | cons p pattern ih =>
      cases text with
      | nil => exact absurd h (by simp [dropLiteral])
      | cons c text =>
          rw [dropLiteral] at h
          split at h
          · rename_i hsame
            rw [hsame]
            exact (List.prefix_cons_inj c).mpr (ih h)
          · exact absurd h (by simp)

theorem sequenceDigits_eq_none {keyword text : String} (h : Command.excludes keyword text = true)
    (more : String) : sequenceDigits keyword (Command.codeOf (text ++ more)) = none := by
  obtain ⟨c, rest, hraw, hblank⟩ := Command.exists_head_of_excludes h more
  have hcode := Command.codeOf_prefix hraw hblank
  cases hdropped : dropLiteral keyword.toList (Command.codeOf (text ++ more)) with
  | none =>
      unfold sequenceDigits
      rw [hdropped]
      rfl
  | some rest =>
      have hfront := (prefix_of_dropLiteral hdropped).trans hcode
      exact absurd rfl (Command.ne_of_excludes hfront h)

end Marker

namespace Nesting

/-- Whether a line that begins with a text opens and closes no sequence. -/
def beginsCalm (text : String) : Bool :=
  Command.excludes "M620 S" text && Command.excludes "M621 S" text

theorem isCalm_ofText {text more : String} (h : beginsCalm text = true)
    (hcolon : ':' ∉ (text ++ more).toList) (line : Option Nat) :
    isCalm (Marker.ofCommand (Command.ofText line (text ++ more))) = true := by
  rw [beginsCalm, Bool.and_eq_true] at h
  have hcode : (Command.ofText line (text ++ more)).code = Command.codeOf (text ++ more) := rfl
  unfold Marker.ofCommand
  rw [hcode, Marker.sequenceDigits_eq_none h.1, Marker.sequenceDigits_eq_none h.2]
  cases hcomment : (Command.ofText line (text ++ more)).comment with
  | none => rfl
  | some comment =>
      have hnone : ':' ∉ comment.toList := fun hc => hcolon (Command.mem_of_mem_comment hcomment hc)
      simp only [Option.isSome_none, Bool.false_eq_true, if_false, Option.bind_some]
      rw [Marker.ofComment_of_colon_notMem hnone]
      split <;> rfl

theorem isCalm_of_plain {text more : String} (h : beginsCalm text = true) {c : Command}
    (hc : c = Command.ofText none (text ++ more)) (hplain : Text.Plain c.raw) :
    isCalm (Marker.ofCommand c) = true := by
  subst hc
  exact isCalm_ofText h hplain.colon_notMem none

theorem isCalm_code {text : String} (h : beginsCalm text = true)
    (hplain : Text.Plain (Command.synthesized text).raw) :
    isCalm (Marker.ofCommand (Command.synthesized text)) = true := by
  have htext : Command.synthesized text = Command.ofText none (text ++ "") := by
    rw [String.append_empty]
    rfl
  exact isCalm_of_plain h htext hplain

end Nesting

namespace TemplatePiece

/-- Whether a template line opens and closes no sequence. -/
def beginsCalm : List TemplatePiece → Bool
  | text s :: _ => Nesting.beginsCalm s
  | _ => false

/-- The line that opens the sequence of a block. -/
def opener : List TemplatePiece :=
  [text "M620 S", tool, text "A"]

/-- The line that closes the sequence of a block. -/
def closer : List TemplatePiece :=
  [text "M621 S", tool, text "A"]

theorem ofCommand_parse_opener {v : ChangeValues} {t : Nat} (hv : v.tool = t) (ht : t < 10) :
    Marker.ofCommand (Command.parse 0 (String.join (opener.map (render v)))) =
      some (.toolChangeOpen t) := by
  have htexts : opener.map (render v) = ["M620 S", toString v.tool, "A"] := rfl
  have hdigits : ∀ i : Fin 10, Marker.ofCommand
      (Command.parse 0 (String.join ["M620 S", toString i.val, "A"])) =
        some (.toolChangeOpen i.val) := by
    decide
  rw [htexts, hv]
  exact hdigits ⟨t, ht⟩

theorem ofCommand_parse_closer {v : ChangeValues} {t : Nat} (hv : v.tool = t) (ht : t < 10) :
    Marker.ofCommand (Command.parse 0 (String.join (closer.map (render v)))) =
      some .toolChangeClose := by
  have htexts : closer.map (render v) = ["M621 S", toString v.tool, "A"] := rfl
  have hdigits : ∀ i : Fin 10, Marker.ofCommand
      (Command.parse 0 (String.join ["M621 S", toString i.val, "A"])) = some .toolChangeClose := by
    decide
  rw [htexts, hv]
  exact hdigits ⟨t, ht⟩

theorem isCalm_parse {line : List TemplatePiece} (h : beginsCalm line = true)
    (hplain : isPlain line = true) (v : ChangeValues) (n : Nat) :
    Nesting.isCalm (Marker.ofCommand (Command.parse n (String.join (line.map (render v))))) =
      true := by
  have hjoined := plain_join hplain v
  rw [Command.parse_of_isLine n hjoined.isLine]
  unfold beginsCalm at h
  split at h
  · rename_i s more
    have htext : (text s).render v = s := rfl
    rw [List.map_cons, String.join_cons, htext] at hjoined ⊢
    exact Nesting.isCalm_ofText h hjoined.colon_notMem (some n)
  · exact absurd h (by simp)

end TemplatePiece

namespace Flavor

theorem template_nests (f : Flavor) :
    (∀ line ∈ f.template, TemplatePiece.beginsCalm line = true) ∨
      ∃ inside behind, f.template =
          TemplatePiece.opener :: (inside ++ TemplatePiece.closer :: behind) ∧
        (∀ line ∈ inside, TemplatePiece.beginsCalm line = true) ∧
        ∀ line ∈ behind, TemplatePiece.beginsCalm line = true := by
  cases f with
  | generic => exact Or.inl (by decide)
  | bambu =>
      refine Or.inr ⟨bambuApproach.tail ++ bambuPurge.take 32, bambuPurge.drop 33, ?_, ?_, ?_⟩
      · rfl
      · decide
      · decide

end Flavor

theorem map_ofCommand_scanLines (ctx : Context) (start : Nat) (lines : List String) :
    (scanLines ctx start lines).map (fun line => Marker.ofCommand line.command) =
      lines.map fun text => Marker.ofCommand (Command.parse 0 text) := by
  induction lines generalizing ctx start with
  | nil => rfl
  | cons text rest ih =>
      have hparsed (n : Nat) : Marker.ofCommand (Command.parse n text) =
          Marker.ofCommand (Command.ofText none (Command.trimmed text)) :=
        Marker.ofCommand_ofText (some n) _
      have hmarker : Marker.ofCommand (ctx.scan start text).command =
          Marker.ofCommand (Command.parse start text) := by
        rw [ctx.command_scan]
        exact Marker.ofCommand_tagged (Command.parse start text) (some start) _
      rw [scanLines, List.map_cons, List.map_cons, hmarker, hparsed start, ← hparsed 0, ih]

/-- Outside a sequence a block leaves open what was open in front of it. -/
theorem Flavor.read_render (f : Flavor) {v : ChangeValues} {t : Nat} (hv : v.tool = t)
    (ht : t < 10) {n : Nesting} (hn : n.sequence = false) : n.read (f.render v) = some n := by
  have hcalm {template : List (List TemplatePiece)}
      (hmem : ∀ line ∈ template, line ∈ f.template)
      (h : ∀ line ∈ template, TemplatePiece.beginsCalm line = true) (n : Nesting) :
      n.read (template.map fun line =>
        Command.parse 0 (String.join (line.map (TemplatePiece.render v)))) = some n := by
    refine Nesting.read_of_isCalm (List.forall_mem_map.mpr ?_) n
    intro line hline
    exact TemplatePiece.isCalm_parse (h line hline) (f.isPlain_template line (hmem line hline)) v 0
  have hmarkers : (f.render v).map Marker.ofCommand = (f.template.map fun line =>
      Command.parse 0 (String.join (line.map (TemplatePiece.render v)))).map Marker.ofCommand := by
    have htagged : (Marker.ofCommand ∘ fun line : ScannedLine => { line.command with line := none }) =
        fun line => Marker.ofCommand line.command :=
      funext fun line => Marker.ofCommand_tagged line.command none _
    rw [render, List.map_map, htagged, map_ofCommand_scanLines, lines, List.map_map, List.map_map]
    rfl
  rw [Nesting.read_congr hmarkers]
  rcases f.template_nests with hquiet | ⟨inside, behind, heq, hinside, hbehind⟩
  · exact hcalm (fun _ h => h) hquiet n
  · have hopen : n.step (some (.toolChangeOpen t)) = some { n with sequence := true } := by
      simp [Nesting.step, hn]
    have hclose : Nesting.step { n with sequence := true } (some .toolChangeClose) = some n := by
      cases n
      simp_all [Nesting.step]
    have hmem : (∀ line ∈ inside, line ∈ f.template) ∧ ∀ line ∈ behind, line ∈ f.template := by
      rw [heq]
      exact ⟨fun _ h => by simp [h], fun _ h => by simp [h]⟩
    rw [heq, List.map_cons, List.map_append, List.map_cons, Nesting.read_cons,
      TemplatePiece.ofCommand_parse_opener hv ht, hopen, Option.bind_some,
      Nesting.read_append_of_eq (hcalm hmem.1 hinside _), Nesting.read_cons,
      TemplatePiece.ofCommand_parse_closer hv ht, hclose, Option.bind_some]
    exact hcalm hmem.2 hbehind n

namespace BodyPlan

/-- The plan with tool changes that open no sequence. -/
def bare (p : BodyPlan) : BodyPlan :=
  { p with settings :=
    { p.settings with toolChange := { p.settings.toolChange with flavor := .generic } } }

theorem isCalm_of_surrounds {p : BodyPlan} {c : Command} (h : p.bare.Surrounds c) :
    Nesting.isCalm (Marker.ofCommand c) = true := by
  have hplain := h.plain
  cases h with
  | tower tool index =>
      have hbegins : Nesting.beginsCalm "; " = true := by decide
      exact Nesting.isCalm_of_plain hbegins rfl hplain
  | @move m h =>
      obtain ⟨more, hmore⟩ := m.exists_text_eq
      have hbegins : Nesting.beginsCalm "G1" = true := by decide
      have hbuild : m.build = Command.ofText none ("G1" ++ more) := by rw [← hmore]; rfl
      exact Nesting.isCalm_of_plain hbegins hbuild hplain
  | absolute =>
      have hbegins : Nesting.beginsCalm "G90" = true := by decide
      exact Nesting.isCalm_code hbegins hplain
  | @positioning m _ =>
      have hbegins : Nesting.beginsCalm (Machine.positioningCode m.positioning) = true := by
        cases m.positioning <;> decide
      exact Nesting.isCalm_code hbegins hplain
  | extrusion mode =>
      have hbegins : Nesting.beginsCalm (Machine.extrusionCode mode) = true := by
        cases mode <;> decide
      exact Nesting.isCalm_code hbegins hplain
  | extruder e =>
      have hbegins : Nesting.beginsCalm "G92 E" = true := by decide
      exact Nesting.isCalm_of_plain hbegins rfl hplain
  | block h =>
      obtain ⟨n, tag, line, hline, rfl⟩ := Flavor.exists_of_mem_render h
      have hgeneric : ∀ line ∈ Flavor.generic.template,
          TemplatePiece.beginsCalm line = true ∧ TemplatePiece.isPlain line = true := by
        decide
      obtain ⟨hbegins, hplain⟩ := hgeneric line hline
      rw [Marker.ofCommand_tagged]
      exact TemplatePiece.isCalm_parse hbegins hplain _ n

end BodyPlan

theorem Program.inToolChange_of_opener {text : String} {c : Command} (hc : c ∈ readCommands text)
    {slot : Nat} (h : Marker.ofCommand c = some (.toolChangeOpen slot)) :
    c.inToolChange = true := by
  obtain ⟨line, hline, rfl⟩ := List.mem_map.mp hc
  obtain ⟨ctx, n, text, -, rfl⟩ := exists_of_mem_scanLines hline
  rw [ctx.command_scan] at h ⊢
  generalize Command.parse n text = c at h ⊢
  change Marker.ofCommand c = some (.toolChangeOpen slot) at h
  change ctx.isMember (Marker.ofCommand c) c = true
  rw [h]
  rfl

def Nesting.Stays (cs : List Command) : Prop :=
  ∀ c ∈ cs, ∀ slot, Marker.ofCommand c ≠ some (.toolChangeOpen slot)

namespace Nesting

variable {n next : Nesting} {cs ds : List Command}

theorem sequence_of_read (h : Stays cs) (hn : n.sequence = false) (hread : n.read cs = some next) :
    next.sequence = false := by
  induction cs generalizing n with
  | nil =>
      obtain rfl := Option.some.inj hread
      exact hn
  | cons c cs ih =>
      obtain ⟨hc, hcs⟩ := List.forall_mem_cons.mp h
      rw [read_cons] at hread
      obtain ⟨between, hstep, hread⟩ := Option.bind_eq_some_iff.mp hread
      refine ih hcs ?_ hread
      unfold step at hstep
      split at hstep
      · rename_i slot hmarker
        exact absurd hmarker (hc slot)
      · rw [if_neg (by simp [hn])] at hstep
        exact absurd hstep (by simp)
      · obtain rfl := Option.some.inj hstep
        exact hn
      · split at hstep
        · obtain rfl := Option.some.inj hstep
          exact hn
        · exact absurd hstep (by simp)
      · obtain rfl := Option.some.inj hstep
        exact hn

end Nesting

namespace Writer

variable {p : BodyPlan} {w next last : Writer} {own own' : List Command}

/-- A step that, wherever no sequence is open, nests like the source lines that it writes. -/
structure Nests (own : List Command) (w next : Writer) : Prop where
  commands : ∃ added, next.body.toList = w.body.toList ++ added ∧
    ∀ n : Nesting, n.sequence = false → n.read added = n.read own
  stays : Nesting.Stays own

namespace Nests

theorem refl (w : Writer) : Nests [] w w where
  commands := ⟨[], by simp, fun _ _ => rfl⟩
  stays := by simp [Nesting.Stays]

theorem trans (h : Nests own w next) (h' : Nests own' next last) : Nests (own ++ own') w last where
  commands := by
    obtain ⟨added, hbody, hread⟩ := h.commands
    obtain ⟨added', hbody', hread'⟩ := h'.commands
    refine ⟨added ++ added', ?_, ?_⟩
    · rw [hbody', hbody, List.append_assoc]
    · intro n hn
      rw [Nesting.read_append, Nesting.read_append, hread n hn]
      cases hown : n.read own with
      | none => rfl
      | some m => exact hread' m (Nesting.sequence_of_read h.stays hn hown)
  stays := by
    unfold Nesting.Stays
    rw [List.forall_mem_append]
    exact ⟨h.stays, h'.stays⟩

theorem of_body_eq (h : Nests own w next) (hbody : last.body = next.body) : Nests own w last where
  commands := by
    rw [hbody]
    exact h.commands
  stays := h.stays

end Nests

theorem Writes.nests (h : Writes p.bare.Surrounds w next) : Nests [] w next where
  commands := by
    obtain ⟨added, hbody, hadded⟩ := h.commands
    refine ⟨added, hbody, ?_⟩
    intro n _
    exact Nesting.read_of_isCalm (fun c hc => BodyPlan.isCalm_of_surrounds (hadded c hc)) n
  stays := by simp [Nesting.Stays]

theorem nests_change (w : Writer) (p : BodyPlan) (source : Option Tool) {tool : Tool} {t : Nat}
    (htool : tool = t) (ht : t < 10) :
    Nests [] w (w.change p.settings.toolChange source tool) := by
  have habsolute := (w.writes_ensureAbsolute (p := p.bare)).nests
  have hblock : Nests [] w.ensureAbsolute (w.ensureAbsolute.writeAll
      (p.settings.toolChange.block source tool w.ensureAbsolute.ceiling)) := by
    refine ⟨⟨_, (w.ensureAbsolute.writeAll_spec _).1, ?_⟩, by simp [Nesting.Stays]⟩
    intro n hn
    exact p.settings.toolChange.flavor.read_render htool ht hn
  exact (habsolute.trans hblock).of_body_eq rfl

theorem nests_run (w : Writer) (p : BodyPlan) (layer : Layer) {run : List Segment}
    (hsegments : ∀ s ∈ run, s ∈ p.program.segments)
    (hstays : Nesting.Stays (run.flatMap Segment.kept)) :
    Nests (run.flatMap Segment.kept) w (w.run p layer run) := by
  cases run with
  | nil => exact .refl w
  | cons first rest =>
      have hfirst : first ∈ p.program.segments := hsegments first List.mem_cons_self
      have hentered := (w.writes_enter (p := p.bare) layer hfirst
        ((first :: rest).flatMap Segment.commands)).nests
      have hkept : ((first :: rest).flatMap Segment.commands).filter keeps =
          (first :: rest).flatMap Segment.kept := by
        rw [List.filter_flatMap]
        rfl
      refine hentered.trans ⟨⟨_, (writeAll_spec _ _).1, ?_⟩, hstays⟩
      intro n _
      exact congrArg n.read hkept

theorem nests_runs (w : Writer) (p : BodyPlan) (layer : Layer) {runs : List (List Segment)}
    (hsegments : ∀ s ∈ runs.flatten, s ∈ p.program.segments)
    (hstays : Nesting.Stays (runs.flatten.flatMap Segment.kept)) :
    Nests (runs.flatten.flatMap Segment.kept) w
      (runs.foldl (fun w run => w.run p layer run) w) := by
  induction runs generalizing w with
  | nil => exact .refl w
  | cons run runs ih =>
      rw [List.flatten_cons, List.forall_mem_append] at hsegments
      rw [List.flatten_cons, List.flatMap_append, Nesting.Stays, List.forall_mem_append] at hstays
      rw [List.flatten_cons, List.flatMap_append, List.foldl_cons]
      exact (w.nests_run p layer hsegments.1 hstays.1).trans (ih _ hsegments.2 hstays.2)

theorem nests_visit (w : Writer) (p : BodyPlan) {due : Option (Option Tool × Tool)}
    (hdue : ∀ change ∈ due, ∃ t : Nat, change.2 = t ∧ t < 10) {v : Visit}
    (hsegments : ∀ s ∈ v.segments, s ∈ p.program.segments)
    (hstays : Nesting.Stays (v.segments.flatMap Segment.kept)) :
    Nests (v.segments.flatMap Segment.kept) (w.mark p v.layer) (w.visit p due v) := by
  have hrest (w : Writer) : Nests (v.segments.flatMap Segment.kept) w
      { v.runs.foldl (fun w run => w.run p v.layer run) (w.catchUp p v.layer.index) with
        lastLayer := some v.layer.index } := by
    have hcaught := (w.writes_catchUp (p := p.bare) v.layer.index).nests
    rw [← v.flatten_runs] at hsegments hstays ⊢
    exact (hcaught.trans (nests_runs _ p v.layer hsegments hstays)).of_body_eq rfl
  cases due with
  | none => exact hrest _
  | some change =>
      obtain ⟨t, htool, ht⟩ := hdue change rfl
      exact ((w.mark p v.layer).nests_change p change.1 htool ht).trans (hrest _)

end Writer

end ToolBatching
