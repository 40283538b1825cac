import ToolBatching.Program.Scan
import ToolBatching.Proofs.Replay

namespace ToolBatching

namespace Command

/-- Whether a line of this command fixes the tool of its segment. -/
def fixesTool (c : Command) : Bool :=
  !c.inToolChange && !c.isCommentOrBlank

theorem mnemonic_ofText_of_codeOf_nil (line : Option Nat) {raw : String}
    (h : codeOf raw = []) : (ofText line raw).mnemonic = "" := by
  simp only [ofText, h]
  rfl

theorem idle_of_codeOf_nil {c : Command} {line : Option Nat} {raw : String} {tag : Bool}
    (hc : c = { ofText line raw with inToolChange := tag }) (h : codeOf raw = []) :
    c.tool = none ∧ c.mnemonic = "" := by
  subst hc
  simp only [ofText, h]
  exact ⟨rfl, rfl⟩

theorem isCommentOrBlank_ofText_of_isMotion {line : Option Nat} {raw : String}
    (h : (ofText line raw).isMotion = true) : (ofText line raw).isCommentOrBlank = false := by
  cases hcode : codeOf raw with
  | nil =>
      rw [isMotion, mnemonic_ofText_of_codeOf_nil line hcode] at h
      exact absurd h (by decide)
  | cons a rest =>
      change (codeOf raw).isEmpty = false
      rw [hcode]
      rfl

theorem isMotion_tagged (c : Command) (tag : Bool) :
    isMotion { c with inToolChange := tag } = c.isMotion :=
  rfl

theorem isCommentOrBlank_tagged (c : Command) (tag : Bool) :
    isCommentOrBlank { c with inToolChange := tag } = c.isCommentOrBlank :=
  rfl

theorem selectedTool_lt {words : List Word} {t : Nat} (h : selectedTool words = some t) :
    t < 10 := by
  unfold selectedTool at h
  split at h
  · rename_i digit
    split at h
    · rename_i hdigit
      have hle : digit.toNat ≤ 57 := by
        simpa using (Char.isDigit_iff_toNat.mp hdigit).2
      have hvalue : digit.toNat - 48 = t := Option.some.inj h
      omega
    · exact absurd h (by simp)
  · exact absurd h (by simp)

end Command

theorem Machine.idle (m : Machine) {c : Command} (h : c.tool = none ∧ c.mnemonic = "") :
    m.step c = m ∧ m.prints c = false := by
  obtain ⟨htool, hmnemonic⟩ := h
  have hmotion : c.isMotion = false := by
    rw [Command.isMotion, hmnemonic]
    decide
  constructor
  · simp [step, htool, hmnemonic, hmotion]
  · rw [prints, hmotion, Bool.and_false, Bool.false_and]

namespace Context

variable (ctx : Context) (n : Nat) (text : String)

theorem before_scan : (ctx.scan n text).before = ctx := by
  simp only [scan]

theorem machine_scan :
    (ctx.scan n text).next.machine = ctx.machine.step (ctx.scan n text).command := by
  simp only [scan, advance, Machine.step_tagged]

theorem command_scan :
    (ctx.scan n text).command =
      { Command.parse n text with
        inToolChange := ctx.isMember (Marker.ofCommand (Command.parse n text))
          (Command.parse n text) } := by
  simp only [scan]

theorem opens_scan :
    (ctx.scan n text).opens =
      ctx.opensSequence (Marker.ofCommand (Command.parse n text)) (Command.parse n text) := by
  simp only [scan]

theorem line_scan : (ctx.scan n text).command.line = some n := by
  rw [command_scan]
  rfl

theorem inToolChange_of_tool (h : (ctx.scan n text).command.tool.isSome = true) :
    (ctx.scan n text).command.inToolChange = true := by
  rw [command_scan] at h ⊢
  generalize Command.parse n text = c at h ⊢
  generalize Marker.ofCommand c = marker
  change c.tool.isSome = true at h
  change ctx.isMember marker c = true
  unfold isMember
  split
  · rfl
  · rw [h, Bool.or_true]

theorem tool_scan_lt {t : Nat} (h : (ctx.scan n text).command.tool = some t) : t < 10 := by
  rw [command_scan] at h
  simp only [Command.parse, Command.ofText] at h
  exact Command.selectedTool_lt h

theorem inToolChange_of_opens (h : (ctx.scan n text).opens = true) :
    (ctx.scan n text).command.inToolChange = true := by
  rw [opens_scan] at h
  rw [command_scan]
  generalize Command.parse n text = c at h ⊢
  generalize Marker.ofCommand c = marker at h ⊢
  change ctx.isMember marker c = true
  unfold opensSequence at h
  unfold isMember
  split
  · rfl
  · split at h
    · rename_i slot _ hmarker
      exact absurd rfl (hmarker slot)
    · rw [h, Bool.or_true]
    · exact absurd h (by simp)

theorem boundary_of_opens (h : (ctx.scan n text).opens = true) :
    (ctx.scan n text).boundary = .before ∨ (ctx.scan n text).boundary = .after := by
  rw [opens_scan] at h
  simp only [scan, h]
  generalize Marker.ofCommand (Command.parse n text) = marker
  unfold boundaryOf
  split
  · exact Or.inl rfl
  · exact Or.inr rfl
  · exact Or.inl rfl

theorem fixesTool_of_isMotion (hmotion : (ctx.scan n text).command.isMotion = true)
    (htag : (ctx.scan n text).command.inToolChange = false) :
    (ctx.scan n text).command.fixesTool = true := by
  have hblank : (ctx.scan n text).command.isCommentOrBlank = false := by
    rw [command_scan, Command.isMotion_tagged] at hmotion
    rw [command_scan, Command.isCommentOrBlank_tagged]
    exact Command.isCommentOrBlank_ofText_of_isMotion hmotion
  simp only [Command.fixesTool, htag, hblank, Bool.not_false, Bool.and_self]

theorem fixesTool_of_movesZ (h : (ctx.scan n text).command.movesZ = true) :
    (ctx.scan n text).command.fixesTool = true := by
  simp only [Command.movesZ, Bool.and_eq_true, Bool.not_eq_true'] at h
  exact fixesTool_of_isMotion ctx n text h.1.1 h.2

theorem fixesTool_of_isPrintMove (h : (ctx.scan n text).isPrintMove = true) :
    (ctx.scan n text).command.fixesTool = true := by
  simp only [ScannedLine.isPrintMove, Bool.and_eq_true, Bool.not_eq_true'] at h
  exact fixesTool_of_isMotion ctx n text h.1.2 h.2

end Context

end ToolBatching
