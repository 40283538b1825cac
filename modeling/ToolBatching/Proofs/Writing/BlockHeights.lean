import ToolBatching.Proofs.Writing.PlainText
import ToolBatching.Proofs.Writing.SafeTravel

namespace ToolBatching

open Number

namespace Command

variable (c : Command) (tag : Bool) (a : Axis)

theorem target_tagged : target { c with inToolChange := tag } a = c.target a := by
  cases a <;> rfl

theorem shifts_tagged : shifts { c with inToolChange := tag } = c.shifts := by
  rw [shifts, shifts, target_tagged c tag .x, target_tagged c tag .y]

theorem switches_tagged : switches { c with inToolChange := tag } a = c.switches a := by
  cases a <;> rfl

theorem lineless_tagged :
    { { c with inToolChange := tag } with line := none } =
      { c with line := none, inToolChange := tag } :=
  rfl

theorem lineless_ofText (line : Option Nat) (text : String) (tag : Bool) :
    { ofText line text with line := none, inToolChange := tag } =
      { synthesized text with inToolChange := tag } :=
  rfl

end Command

namespace TemplatePiece

variable {line : List TemplatePiece}

/-- The command of a template line with values filled in. -/
def command (v : ChangeValues) (line : List TemplatePiece) : Command :=
  .synthesized (String.join (line.map (render v)))

/-- The commands of template lines that are scanned in a context. -/
def commands (v : ChangeValues) (ctx : Context) (n : Nat) (lines : List (List TemplatePiece)) :
    List Command :=
  (scanLines ctx n (lines.map fun line => String.join (line.map (render v)))).map
    fun scanned => { scanned.command with line := none }

theorem commands_cons (h : isPlain line = true) (v : ChangeValues) (ctx : Context) (n : Nat)
    (lines : List (List TemplatePiece)) :
    commands v ctx n (line :: lines) =
      { command v line with
        inToolChange := (ctx.scan n (String.join (line.map (render v)))).command.inToolChange } ::
        commands v (ctx.scan n (String.join (line.map (render v)))).next (n + 1) lines := by
  rw [commands, List.map_cons, scanLines, List.map_cons]
  refine congrArg (· :: _) ?_
  rw [ctx.command_scan, Command.parse_of_isLine n (plain_join h v).isLine, Command.lineless_tagged,
    Command.lineless_ofText]
  rfl

theorem exists_commands_cons (h : isPlain line = true) (v : ChangeValues) (ctx : Context) (n : Nat)
    (lines : List (List TemplatePiece)) :
    ∃ tag next, commands v ctx n (line :: lines) =
      { command v line with inToolChange := tag } :: commands v next (n + 1) lines :=
  ⟨_, _, commands_cons h v ctx n lines⟩

/-- Whether the fixed texts of a template line are without a letter. -/
def lacks (letter : Char) (line : List TemplatePiece) : Bool :=
  line.all fun
    | text s => !s.toList.contains letter
    | _ => true

/-- The letters that no value of a field has. -/
def axisLetters : List Char :=
  ['X', 'Y', 'Z', 'E', 'F']

theorem notMem_toString {letter : Char} (h : letter ∈ axisLetters) (n : Nat) :
    letter ∉ (toString n).toList := by
  have hdigit : axisLetters.all (fun c => !c.isDigit) = true := by decide
  intro hmem
  rw [Marker.toList_toString] at hmem
  have hletter := List.all_eq_true.mp hdigit letter h
  rw [Number.isDigit_of_mem_digits hmem] at hletter
  exact absurd hletter (by simp)

theorem notMem_coordinate {letter : Char} (h : letter ∈ axisLetters) (x : Float) :
    letter ∉ (coordinate axisPlaces x).toList := by
  have hcapital : axisLetters.all (fun c => c.isUpper && c != 'N') = true := by decide
  have hletter := List.all_eq_true.mp hcapital letter h
  rw [Bool.and_eq_true, bne_iff_ne] at hletter
  exact Move.notMem_coordinate hletter.1 hletter.2 axisPlaces x

theorem notMem_render {letter : Char} (h : letter ∈ axisLetters) (v : ChangeValues)
    {piece : TemplatePiece} (hpiece : ∀ s, piece = text s → letter ∉ s.toList) :
    letter ∉ (piece.render v).toList := by
  cases piece with
  | text s => exact hpiece s rfl
  | tool => exact notMem_toString h v.tool
  | source =>
      have hname : axisLetters.all (fun c => !"T".toList.contains c && !"none".toList.contains c) =
          true := by decide
      have hletter := List.all_eq_true.mp hname letter h
      simp only [Bool.and_eq_true, Bool.not_eq_true', List.contains_eq_mem,
        decide_eq_false_iff_not] at hletter
      rw [render_source]
      cases v.source with
      | none => exact hletter.2
      | some t =>
          rw [Option.elim_some, String.toList_append, List.mem_append, not_or]
          exact ⟨hletter.1, notMem_toString h t⟩
  | temperature => exact notMem_toString h v.temperature
  | lift => exact notMem_coordinate h _
  | clearance => exact notMem_coordinate h _

theorem notMem_join {letter : Char} (h : letter ∈ axisLetters) (hlacks : lacks letter line = true)
    (v : ChangeValues) : letter ∉ (String.join (line.map (render v))).toList := by
  unfold lacks at hlacks
  induction line with
  | nil => simp
  | cons piece line ih =>
      rw [List.all_cons, Bool.and_eq_true] at hlacks
      rw [List.map_cons, String.join_cons, String.toList_append, List.mem_append, not_or]
      refine ⟨notMem_render h v ?_, ih hlacks.2⟩
      rintro s rfl
      simpa using hlacks.1

/-- The template line that zeroes the extruder. -/
def reset : List TemplatePiece :=
  [text "G92 E0"]

/-- Whether a template line does not move X, Y or Z. -/
def fixes (a : Axis) (line : List TemplatePiece) : Bool :=
  line == reset && a != .e || excludes "G92" line && excludes "G28" line && lacks a.letter line

theorem mnemonic_command_ne {code : String} (h : excludes code line = true) (v : ChangeValues) :
    (command v line).mnemonic ≠ code := by
  unfold excludes at h
  split at h
  · rw [command, List.map_cons, String.join_cons]
    exact Command.mnemonic_ofText_ne none h _
  · exact absurd h (by simp)

theorem target_command {a : Axis} (h : fixes a line = true) (v : ChangeValues) :
    (command v line).target a = none := by
  rw [fixes, Bool.or_eq_true, Bool.and_eq_true, Bool.and_eq_true, Bool.and_eq_true, beq_iff_eq,
    bne_iff_ne] at h
  rcases h with ⟨rfl, ha⟩ | ⟨⟨hset, hhome⟩, hlacks⟩
  · have hreset : ∀ b ∈ [Axis.x, .y, .z], (Command.synthesized "G92 E0").target b = none := by
      decide
    apply hreset
    cases a <;> simp_all
  · have hletter : a.letter ∈ axisLetters := by cases a <;> decide
    have hword : (command v line).along a = none := by
      rw [command, Command.synthesized, Command.along_ofText]
      exact Command.addressed_eq_none _ (notMem_join hletter hlacks v)
    rw [Command.target_of_mnemonic_ne (mnemonic_command_ne hset v) (mnemonic_command_ne hhome v),
      hword, ite_self, ite_self]

theorem target_command_tagged {a : Axis} (h : fixes a line = true) (v : ChangeValues) (tag : Bool) :
    Command.target { command v line with inToolChange := tag } a = none := by
  rw [Command.target_tagged, target_command h]

theorem switches_command_ne (h : excludes "G91" line = true) (v : ChangeValues) (tag : Bool) :
    Command.switches { command v line with inToolChange := tag } .x ≠ some .relative := by
  rw [Command.switches_tagged]
  exact Command.switches_ne_relative (mnemonic_command_ne h v)

theorem shifts_command (hx : fixes .x line = true) (hy : fixes .y line = true) (v : ChangeValues) :
    (command v line).shifts = false := by
  rw [Command.shifts, target_command hx, target_command hy]
  rfl

theorem prints_command (h : lacks 'E' line = true) (m : Machine) (v : ChangeValues) (tag : Bool) :
    m.prints { command v line with inToolChange := tag } = false := by
  have hword : (command v line).e = none := by
    have halong := Command.along_ofText none (String.join (line.map (render v))) .e
    rw [Axis.letter, Command.addressed_eq_none _ (notMem_join (by decide) h v)] at halong
    exact halong
  apply Machine.prints_eq_false_of_extruded_eq_zero
  simp [Machine.extruded, hword]

/-- The template line that goes to the height for purging. -/
def goesClear : List TemplatePiece :=
  [text "G1 Z", clearance, text " F1200"]

theorem join_goesClear (v : ChangeValues) :
    String.join (goesClear.map (render v)) =
      Move.text { z := some (v.ceiling + purgeHeight), f := some 1200 } := by
  have hspeed : coordinate 0 1200 = "1200" := by decide +kernel
  have hfront : "G1 Z" = "G1" ++ (" " ++ "Z") := by decide
  have hback : " F1200" = " " ++ ("F" ++ "1200") := by decide
  simp only [goesClear, List.map_cons, List.map_nil, render, String.join_cons, String.join_nil,
    Move.text, Move.word, hspeed, hfront, hback, String.append_assoc, String.append_empty]

theorem command_goesClear (v : ChangeValues) :
    command v goesClear = Move.build { z := some (v.ceiling + purgeHeight), f := some 1200 } :=
  congrArg Command.synthesized (join_goesClear v)

theorem le_add_purgeHeight {z : Float} (h : z.isFinite = true) :
    (z + purgeHeight).isFinite = true ∧ value z ≤ value (z + purgeHeight) := by
  have hlength : purgeHeight.isFinite = true ∧ value purgeHeight = 3 := by decide +kernel
  have hfinite : (z + purgeHeight).isFinite = true := by
    apply isFinite_add h hlength.1
    rw [hlength.2]
    norm_num
  refine ⟨hfinite, value_le_add h hlength.1 ?_ hfinite⟩
  rw [hlength.2]
  norm_num

/-- Whether lines of a template move sideways only at the height for purging: in front of the
line that goes there none moves sideways or prints, and behind it the height stays until
nothing moves sideways any more. The flag tells whether the line has been passed. -/
def clears : Bool → List (List TemplatePiece) → Bool
  | _, [] => true
  | false, line :: rest =>
      fixes .x line && fixes .y line && lacks 'E' line && clears (line == goesClear) rest
  | true, line :: rest =>
      if fixes .z line then clears true rest
      else (line :: rest).all fun line => fixes .x line && fixes .y line

end TemplatePiece

theorem Flavor.clears_template (f : Flavor) : TemplatePiece.clears false f.template = true := by
  cases f <;> decide +kernel

namespace Writer

variable {s : Settings} {start : Machine} {w : Writer} {c : Command}

theorem positioning_write (h : w.machine.positioning = .absolute)
    (hswitches : c.switches .x ≠ some .relative) :
    (w.write c).machine.positioning = .absolute := by
  have hmode : (w.machine.run [c]).mode .x = .absolute :=
    Machine.mode_run_eq_absolute h (List.forall_mem_singleton.mpr hswitches)
  exact hmode

theorem Aloft.write (h : w.Aloft) (hceiling : w.ceiling.isFinite = true)
    (hz : w.machine.z.isFinite = true) (htarget : c.target .z = none)
    (hswitches : c.switches .x ≠ some .relative) : (w.write c).Aloft := by
  have hsame : (w.machine.step c).z = w.machine.z :=
    Machine.along_step_eq_self (a := .z) htarget w.machine
  constructor
  · exact positioning_write h.positioning hswitches
  · have hheight := h.height
    rw [machine_write, hsame]
    unfold Writer.write
    simp only [hsame]
    split
    · rw [(value_greater hceiling hz).2]
      rcases max_choice (value w.ceiling) (value w.machine.z) with hmax | hmax
      · rw [hmax]
        exact hheight
      · rw [hmax]
        linarith
    · exact hheight

theorem aloft_goesClear (hw : w.machine.positioning = .absolute) {v : ChangeValues}
    (hv : w.ceiling = v.ceiling) (hceiling : w.ceiling.isFinite = true)
    (hnonneg : 0 ≤ value w.ceiling) (tag : Bool) :
    (w.write { TemplatePiece.command v TemplatePiece.goesClear with
      inToolChange := tag }).Aloft := by
  obtain ⟨hfinite, hle⟩ := TemplatePiece.le_add_purgeHeight hceiling
  rw [TemplatePiece.command_goesClear, ← hv]
  exact aloft_build hw hceiling hnonneg hfinite (by decide +kernel) (by linarith) tag

namespace Guarded

theorem command (h : Guarded s start w) {line : List TemplatePiece}
    (hx : TemplatePiece.fixes .x line = true) (hy : TemplatePiece.fixes .y line = true)
    (v : ChangeValues) (tag : Bool) :
    Guarded s start (w.write { TemplatePiece.command v line with inToolChange := tag }) := by
  apply h.write_idle
  rintro ⟨-, hshifts⟩
  rw [Command.shifts_tagged, TemplatePiece.shifts_command hx hy] at hshifts
  exact absurd hshifts (by simp)

theorem still (h : Guarded s start w) {v : ChangeValues} {lines : List (List TemplatePiece)}
    (hlines : ∀ line ∈ lines, TemplatePiece.isPlain line = true ∧
      TemplatePiece.fixes .x line = true ∧ TemplatePiece.fixes .y line = true) (ctx : Context)
    (n : Nat) : Guarded s start (w.writeAll (TemplatePiece.commands v ctx n lines)) := by
  induction lines generalizing w ctx n with
  | nil => exact h
  | cons line lines ih =>
      obtain ⟨⟨hplain, hx, hy⟩, hlines⟩ := List.forall_mem_cons.mp hlines
      obtain ⟨tag, next, hcommands⟩ := TemplatePiece.exists_commands_cons hplain v ctx n lines
      rw [hcommands, writeAll_cons]
      exact ih (h.command hx hy v tag) hlines next _

/-- Writing the lines of a template keeps a writer guarded that is aloft behind the line that
goes to the height for purging. -/
theorem scanned (h : Guarded s start w) {v : ChangeValues} {lines : List (List TemplatePiece)}
    {high : Bool} (hclears : TemplatePiece.clears high lines = true)
    (hlines : ∀ line ∈ lines, TemplatePiece.isPlain line = true ∧
      TemplatePiece.excludes "G91" line = true)
    (hw : w.machine.positioning = .absolute) (hlow : high = false → w.ceiling = v.ceiling)
    (hhigh : high = true → start.Fits s.hop w.body.toList → Tops s start w → w.Aloft)
    (ctx : Context) (n : Nat) :
    Guarded s start (w.writeAll (TemplatePiece.commands v ctx n lines)) := by
  induction lines generalizing w high ctx n with
  | nil => exact h
  | cons line lines ih =>
      obtain ⟨⟨hplain, hexcludes⟩, hlines⟩ := List.forall_mem_cons.mp hlines
      obtain ⟨tag, next, hcommands⟩ := TemplatePiece.exists_commands_cons hplain v ctx n lines
      have hswitches := TemplatePiece.switches_command_ne hexcludes v tag
      have hpositioning := positioning_write hw hswitches
      rw [hcommands, writeAll_cons]
      cases high with
      | false =>
          rw [TemplatePiece.clears, Bool.and_eq_true, Bool.and_eq_true, Bool.and_eq_true] at hclears
          obtain ⟨⟨⟨hx, hy⟩, hprint⟩, hrest⟩ := hclears
          refine ih (h.command hx hy v tag) hrest hlines hpositioning ?_ ?_ next _
          · intro _
            exact (ceiling_write (TemplatePiece.prints_command hprint _ v tag)).trans (hlow rfl)
          · intro hgoes hfits _
            rw [toList_body_write] at hfits
            have htops := h.tops hfits.of_prefix
            rw [beq_iff_eq.mp hgoes]
            exact aloft_goesClear hw (hlow rfl) htops.ceiling.height htops.nonneg tag
      | true =>
          rw [TemplatePiece.clears] at hclears
          split at hclears
          · rename_i hz
            refine ih (h.write fun hfits htops _ => hhigh rfl hfits htops) hclears hlines
              hpositioning (by simp) ?_ next _
            intro _ hfits _
            rw [toList_body_write] at hfits
            have htops := h.tops hfits.of_prefix
            exact (hhigh rfl hfits.of_prefix htops).write htops.ceiling.height
              (h.fits hfits.of_prefix).height (TemplatePiece.target_command_tagged hz v tag)
              hswitches
          · rw [List.all_cons, Bool.and_eq_true, Bool.and_eq_true, List.all_eq_true] at hclears
            obtain ⟨⟨hx, hy⟩, hrest⟩ := hclears
            refine (h.command hx hy v tag).still ?_ next _
            intro line hline
            exact ⟨(hlines line hline).1, by simpa using hrest line hline⟩

theorem block (h : Guarded s start w) (hw : w.machine.positioning = .absolute)
    (source : Option Tool) (tool : Tool) :
    Guarded s start (w.writeAll (s.toolChange.block source tool w.ceiling)) := by
  refine h.scanned s.toolChange.flavor.clears_template ?_ hw (fun _ => rfl) (by simp) {} 0
  intro line hline
  exact ⟨s.toolChange.flavor.isPlain_template line hline,
    s.toolChange.flavor.excludes_template line hline⟩

end Guarded

end Writer

end ToolBatching
