import Mathlib.Data.List.Induction
import ToolBatching.Proofs.Replay

/-!
Coordinates along a replay. While an axis is read as absolute, a command either leads it to
a place of the command's own or leaves it where it is, so the coordinate behind a list of
commands is that of the last one that leads somewhere.
-/

namespace ToolBatching

/-- The axes of the printer and its extruder. -/
inductive Axis where
  | x
  | y
  | z
  | e
  deriving DecidableEq

def Axis.letter : Axis → Char
  | .x => 'X'
  | .y => 'Y'
  | .z => 'Z'
  | .e => 'E'

namespace Machine

def along (m : Machine) : Axis → Float
  | .x => m.x
  | .y => m.y
  | .z => m.z
  | .e => m.e

def mode (m : Machine) : Axis → Mode
  | .e => m.extrusion
  | _ => m.positioning

end Machine

namespace Command

def along (c : Command) : Axis → Option Float
  | .x => c.x
  | .y => c.y
  | .z => c.z
  | .e => c.e

theorem along_ofText (line : Option Nat) (raw : String) (a : Axis) :
    (ofText line raw).along a =
      addressed a.letter ((Word.scan (codeOf raw)).getD []).tail := by
  cases a <;> simp only [ofText, along, Axis.letter]

/-- Whether the command homes an axis if it is a homing command. -/
def homes (c : Command) : Axis → Bool
  | .x => named 'X'
  | .y => named 'Y'
  | .z => named 'Z'
  | .e => false
where
  /-- Whether homing covers the axis with a letter: it is named, or no axis is. -/
  named (letter : Char) : Bool :=
    let axes := (c.words.tail.map Word.letter).filter fun a => a == 'X' || a == 'Y' || a == 'Z'
    axes.isEmpty || axes.contains letter

/-- Where the command leads an axis that is read as absolute. -/
def target (c : Command) (a : Axis) : Option Float :=
  if c.tool.isSome then none
  else
    match c.mnemonic with
    | "G92" =>
        if c.x.isNone && c.y.isNone && c.z.isNone && c.e.isNone then some 0 else c.along a
    | "G28" => if c.homes a then some 0 else none
    | _ => if c.isMotion then c.along a else none

/-- The mode that a mnemonic switches X, Y and Z to. -/
def positioningMode : String → Option Mode
  | "G90" => some .absolute
  | "G91" => some .relative
  | _ => none

/-- The mode that a mnemonic switches E to. -/
def extrusionMode : String → Option Mode
  | "M82" => some .absolute
  | "M83" => some .relative
  | _ => none

/-- The mode that the command switches an axis to. -/
def switches (c : Command) (a : Axis) : Option Mode :=
  if c.tool.isSome then none
  else if a = .e then extrusionMode c.mnemonic
  else positioningMode c.mnemonic

theorem target_of_mnemonic_ne {c : Command} {a : Axis} (hset : c.mnemonic ≠ "G92")
    (hhome : c.mnemonic ≠ "G28") :
    c.target a = if c.tool.isSome then none else if c.isMotion then c.along a else none := by
  unfold target
  split
  · rfl
  · split
    · contradiction
    · contradiction
    · rfl

theorem target_of_not_isMotion {c : Command} {a : Axis} {code : String} (h : c.mnemonic = code)
    (hcode : code ∉ ["G92", "G28", "G0", "G1", "G2", "G3"]) : c.target a = none := by
  simp only [List.mem_cons, List.not_mem_nil, or_false, not_or] at hcode
  obtain ⟨hset, hhome, h0, h1, h2, h3⟩ := hcode
  have hmotion : c.isMotion = false := by
    simp only [isMotion, h, Bool.or_eq_false_iff, beq_eq_false_iff_ne]
    exact ⟨⟨⟨h0, h1⟩, h2⟩, h3⟩
  rw [target_of_mnemonic_ne (h ▸ hset) (h ▸ hhome), hmotion]
  simp

theorem positioningMode_eq_none {code : String} (h : code ∉ ["G90", "G91"]) :
    positioningMode code = none := by
  simp only [List.mem_cons, List.not_mem_nil, or_false, not_or] at h
  unfold positioningMode
  split
  · exact absurd rfl h.1
  · exact absurd rfl h.2
  · rfl

theorem extrusionMode_eq_none {code : String} (h : code ∉ ["M82", "M83"]) :
    extrusionMode code = none := by
  simp only [List.mem_cons, List.not_mem_nil, or_false, not_or] at h
  unfold extrusionMode
  split
  · exact absurd rfl h.1
  · exact absurd rfl h.2
  · rfl

theorem switches_eq_none {c : Command} (h : c.mnemonic ∉ ["G90", "G91", "M82", "M83"])
    (a : Axis) : c.switches a = none := by
  have hpositioning : positioningMode c.mnemonic = none :=
    positioningMode_eq_none fun hmem => h (by simp_all)
  have hextrusion : extrusionMode c.mnemonic = none :=
    extrusionMode_eq_none fun hmem => h (by simp_all)
  rw [switches, hpositioning, hextrusion, ite_self, ite_self]

theorem switches_eq {a : Axis} (h : a ≠ .e) (c : Command) : c.switches a = c.switches .x := by
  rw [switches, switches, if_neg h, if_neg (show Axis.x ≠ .e by decide)]

theorem target_eq_some {c : Command} {a : Axis} {v : Float} (h : c.target a = some v) :
    v = 0 ∨ c.along a = some v := by
  unfold target at h
  split at h
  · exact absurd h (by simp)
  · split at h
    · split at h
      · exact Or.inl (Option.some.inj h).symm
      · exact Or.inr h
    · split at h
      · exact Or.inl (Option.some.inj h).symm
      · exact absurd h (by simp)
    · split at h
      · exact Or.inr h
      · exact absurd h (by simp)

/-- The last command of a list for which something is given. -/
def lastGiven {α : Type} (given : Command → Option α) (cs : List Command) : Option Command :=
  (cs.filter fun c => (given c).isSome).getLast?

section LastGiven

variable {α : Type} {given : Command → Option α} {cs : List Command}

theorem lastGiven_append_singleton (given : Command → Option α) (cs : List Command)
    (c : Command) :
    (lastGiven given (cs ++ [c])).bind given = (given c).or ((lastGiven given cs).bind given) := by
  unfold lastGiven
  rw [List.filter_append]
  cases hc : given c with
  | none => simp [hc]
  | some v => simp [hc]

theorem lastGiven_concat {c : Command} (h : (given c).isSome = true) :
    lastGiven given (cs ++ [c]) = some c := by
  have hself : [c].filter (fun c => (given c).isSome) = [c] := by simp [h]
  rw [lastGiven, List.filter_append, hself, List.getLast?_concat]

theorem lastGiven_eq_none_iff : lastGiven given cs = none ↔ ∀ c ∈ cs, given c = none := by
  unfold lastGiven
  rw [List.getLast?_eq_none_iff, List.filter_eq_nil_iff]
  simp

theorem mem_of_lastGiven {d : Command} (h : lastGiven given cs = some d) :
    d ∈ cs ∧ (given d).isSome = true :=
  List.mem_filter.mp (List.mem_of_getLast? h)

theorem lastGiven_filter {keeps : Command → Bool} {d : Command}
    (h : lastGiven given cs = some d) (hkeeps : keeps d = true) :
    lastGiven given (cs.filter keeps) = some d := by
  obtain ⟨front, hfront⟩ := List.getLast?_eq_some_iff.mp h
  have hcomm : (cs.filter keeps).filter (fun c => (given c).isSome) =
      (cs.filter fun c => (given c).isSome).filter keeps := by
    rw [List.filter_filter, List.filter_filter]
    congr 1
    funext c
    exact Bool.and_comm _ _
  unfold lastGiven
  rw [hcomm, hfront, List.filter_append, List.filter_cons_of_pos hkeeps]
  simp

theorem lastGiven_filter_eq_none {keeps : Command → Bool} (h : lastGiven given cs = none) :
    lastGiven given (cs.filter keeps) = none := by
  rw [lastGiven_eq_none_iff] at h ⊢
  intro c hc
  exact h c (List.mem_filter.mp hc).1

end LastGiven

end Command

namespace Machine

open Command

theorem step_cases (m : Machine) (c : Command) :
    (∃ t, c.tool = some t ∧ m.step c = { m with tool := some t }) ∨
      (c.tool = none ∧
        ((c.mnemonic = "G90" ∧ m.step c = { m with positioning := .absolute }) ∨
          (c.mnemonic = "G91" ∧ m.step c = { m with positioning := .relative }) ∨
          (c.mnemonic = "M82" ∧ m.step c = { m with extrusion := .absolute }) ∨
          (c.mnemonic = "M83" ∧ m.step c = { m with extrusion := .relative }) ∨
          (c.mnemonic = "G92" ∧ m.step c = m.setPosition c) ∨
          (c.mnemonic = "G28" ∧ m.step c = m.home c) ∨
          (c.mnemonic ∉ ["G90", "G91", "M82", "M83", "G92", "G28"] ∧
            m.step c = if c.isMotion then m.move c else m))) := by
  unfold step
  cases htool : c.tool with
  | some t => exact Or.inl ⟨t, rfl, rfl⟩
  | none =>
      refine Or.inr ⟨rfl, ?_⟩
      simp only
      split
      · exact Or.inl ⟨by assumption, rfl⟩
      · exact Or.inr (Or.inl ⟨by assumption, rfl⟩)
      · exact Or.inr (Or.inr (Or.inl ⟨by assumption, rfl⟩))
      · exact Or.inr (Or.inr (Or.inr (Or.inl ⟨by assumption, rfl⟩)))
      · exact Or.inr (Or.inr (Or.inr (Or.inr (Or.inl ⟨by assumption, rfl⟩))))
      · exact Or.inr (Or.inr (Or.inr (Or.inr (Or.inr (Or.inl ⟨by assumption, rfl⟩)))))
      · refine Or.inr (Or.inr (Or.inr (Or.inr (Or.inr (Or.inr ⟨?_, rfl⟩)))))
        simp only [List.mem_cons, List.not_mem_nil, or_false, not_or]
        exact ⟨by assumption, by assumption, by assumption, by assumption, by assumption,
          by assumption⟩

theorem mode_setPosition (m : Machine) (c : Command) (a : Axis) :
    (m.setPosition c).mode a = m.mode a := by
  unfold setPosition
  split <;> cases a <;> rfl

theorem mode_home (m : Machine) (c : Command) (a : Axis) : (m.home c).mode a = m.mode a := by
  cases a <;> simp only [mode, home]

theorem mode_move (m : Machine) (c : Command) (a : Axis) : (m.move c).mode a = m.mode a := by
  cases a <;> rfl

theorem mode_step (m : Machine) (c : Command) (a : Axis) :
    (m.step c).mode a = (c.switches a).getD (m.mode a) := by
  obtain ⟨t, htool, heq⟩ | ⟨htool, hcases⟩ := m.step_cases c
  · rw [heq, switches, htool]
    cases a <;> rfl
  · rcases hcases with ⟨hcode, heq⟩ | ⟨hcode, heq⟩ | ⟨hcode, heq⟩ | ⟨hcode, heq⟩ | ⟨hcode, heq⟩ |
      ⟨hcode, heq⟩ | ⟨hcode, heq⟩
    · rw [heq, switches, htool, hcode]
      cases a <;> rfl
    · rw [heq, switches, htool, hcode]
      cases a <;> rfl
    · rw [heq, switches, htool, hcode]
      cases a <;> rfl
    · rw [heq, switches, htool, hcode]
      cases a <;> rfl
    · rw [heq, mode_setPosition, switches, htool, hcode]
      cases a <;> rfl
    · rw [heq, mode_home, switches, htool, hcode]
      cases a <;> rfl
    · rw [switches_eq_none (by simp_all) a, heq]
      split
      · exact mode_move m c a
      · rfl

theorem mode_run (m : Machine) (cs : List Command) (a : Axis) :
    (m.run cs).mode a =
      ((lastGiven (fun c => c.switches a) cs).bind fun c => c.switches a).getD (m.mode a) := by
  induction cs using List.reverseRecOn with
  | nil => rfl
  | append_singleton cs c ih =>
      rw [run_append, run_cons, run_nil, mode_step, ih,
        lastGiven_append_singleton fun c => c.switches a]
      cases c.switches a <;> rfl

theorem mode_run_eq_self {m : Machine} {a : Axis} {cs : List Command}
    (hcs : ∀ c ∈ cs, c.switches a = none) : (m.run cs).mode a = m.mode a := by
  rw [mode_run, lastGiven_eq_none_iff.mpr hcs, Option.bind_none, Option.getD_none]

theorem mode_of_ne {a : Axis} (h : a ≠ .e) (m : Machine) : m.mode a = m.positioning := by
  cases a with
  | x => rfl
  | y => rfl
  | z => rfl
  | e => exact absurd rfl h

theorem moved_of_absolute {mode : Mode} (h : mode = .absolute) {position : Float}
    {word : Option Float} : moved mode position word = word.getD position := by
  subst h
  cases word <;> rfl

theorem along_home (m : Machine) (c : Command) (a : Axis) :
    (m.home c).along a = if c.homes a then 0 else m.along a := by
  unfold home
  cases a with
  | x =>
      simp only [along, homes, homes.named]
      congr
  | y =>
      simp only [along, homes, homes.named]
      congr
  | z =>
      simp only [along, homes, homes.named]
      congr
  | e => simp only [along, homes, Bool.false_eq_true, if_false]

theorem along_setPosition (m : Machine) (c : Command) (a : Axis) :
    (m.setPosition c).along a =
      (if c.x.isNone && c.y.isNone && c.z.isNone && c.e.isNone then some 0
        else c.along a).getD (m.along a) := by
  unfold setPosition
  split <;> cases a <;> rfl

theorem along_move (m : Machine) (c : Command) (a : Axis) :
    (m.move c).along a = moved (m.mode a) (m.along a) (c.along a) := by
  cases a <;> rfl

theorem along_step {m : Machine} {a : Axis} (h : m.mode a = .absolute) (c : Command) :
    (m.step c).along a = (c.target a).getD (m.along a) := by
  obtain ⟨t, htool, heq⟩ | ⟨htool, hcases⟩ := m.step_cases c
  · rw [heq, target, htool]
    cases a <;> rfl
  · rcases hcases with ⟨hcode, heq⟩ | ⟨hcode, heq⟩ | ⟨hcode, heq⟩ | ⟨hcode, heq⟩ | ⟨hcode, heq⟩ |
      ⟨hcode, heq⟩ | ⟨hcode, heq⟩
    · rw [heq, target_of_not_isMotion hcode (by decide)]
      cases a <;> rfl
    · rw [heq, target_of_not_isMotion hcode (by decide)]
      cases a <;> rfl
    · rw [heq, target_of_not_isMotion hcode (by decide)]
      cases a <;> rfl
    · rw [heq, target_of_not_isMotion hcode (by decide)]
      cases a <;> rfl
    · rw [heq, along_setPosition, target, htool, hcode]
      rfl
    · rw [heq, along_home, target, htool, hcode]
      cases c.homes a <;> rfl
    · simp only [List.mem_cons, List.not_mem_nil, or_false, not_or] at hcode
      rw [heq, target_of_mnemonic_ne hcode.2.2.2.2.1 hcode.2.2.2.2.2, htool]
      by_cases hmotion : c.isMotion = true
      · simp only [hmotion, if_true, along_move, moved_of_absolute h, Option.isSome_none,
          Bool.false_eq_true, if_false]
      · simp only [hmotion, Bool.false_eq_true, if_false, Option.isSome_none, Option.getD_none]

theorem mode_run_eq_absolute {m : Machine} {a : Axis} {cs : List Command}
    (h : m.mode a = .absolute) (hcs : ∀ c ∈ cs, c.switches a ≠ some .relative) :
    (m.run cs).mode a = .absolute := by
  induction cs generalizing m with
  | nil => exact h
  | cons c cs ih =>
      obtain ⟨hc, hcs⟩ := List.forall_mem_cons.mp hcs
      refine ih ?_ hcs
      rw [mode_step]
      cases hswitch : c.switches a with
      | none => exact h
      | some mode =>
          cases mode with
          | absolute => rfl
          | relative => exact absurd hswitch hc

theorem along_run {m : Machine} {a : Axis} {cs : List Command} (h : m.mode a = .absolute)
    (hcs : ∀ c ∈ cs, c.switches a ≠ some .relative) :
    (m.run cs).along a =
      ((lastGiven (fun c => c.target a) cs).bind fun c => c.target a).getD (m.along a) := by
  induction cs using List.reverseRecOn with
  | nil => rfl
  | append_singleton cs c ih =>
      rw [List.forall_mem_append] at hcs
      rw [run_append, run_cons, run_nil, along_step (mode_run_eq_absolute h hcs.1),
        ih hcs.1, lastGiven_append_singleton fun c => c.target a]
      cases c.target a <;> rfl

theorem along_step_eq_self {c : Command} {a : Axis} (h : c.target a = none) (m : Machine) :
    (m.step c).along a = m.along a := by
  obtain ⟨t, htool, heq⟩ | ⟨htool, hcases⟩ := m.step_cases c
  · rw [heq]
    cases a <;> rfl
  · rcases hcases with ⟨hcode, heq⟩ | ⟨hcode, heq⟩ | ⟨hcode, heq⟩ | ⟨hcode, heq⟩ | ⟨hcode, heq⟩ |
      ⟨hcode, heq⟩ | ⟨hcode, heq⟩
    · rw [heq]
      cases a <;> rfl
    · rw [heq]
      cases a <;> rfl
    · rw [heq]
      cases a <;> rfl
    · rw [heq]
      cases a <;> rfl
    · simp only [target, htool, hcode, Option.isSome_none, Bool.false_eq_true, if_false] at h
      rw [heq, along_setPosition, h, Option.getD_none]
    · simp only [target, htool, hcode, Option.isSome_none, Bool.false_eq_true, if_false] at h
      rw [heq, along_home, if_neg (by simpa using h)]
    · simp only [List.mem_cons, List.not_mem_nil, or_false, not_or] at hcode
      rw [target_of_mnemonic_ne hcode.2.2.2.2.1 hcode.2.2.2.2.2, htool] at h
      rw [heq]
      split
      · rename_i hmotion
        have hword : c.along a = none := by simpa [hmotion] using h
        rw [along_move, hword, moved]
      · rfl

theorem along_run_eq_self {m : Machine} {a : Axis} {cs : List Command}
    (hcs : ∀ c ∈ cs, c.target a = none) : (m.run cs).along a = m.along a := by
  induction cs generalizing m with
  | nil => rfl
  | cons c cs ih =>
      obtain ⟨hc, hcs⟩ := List.forall_mem_cons.mp hcs
      rw [run_cons, ih hcs, along_step_eq_self hc]

theorem along_run_filter {m n : Machine} {a : Axis} {cs : List Command} {keeps : Command → Bool}
    (hm : m.mode a = .absolute) (hn : n.mode a = .absolute)
    (hcs : ∀ c ∈ cs, c.switches a ≠ some .relative) {d : Command}
    (hlast : lastGiven (fun c => c.target a) cs = some d) (hkeeps : keeps d = true) :
    (n.run (cs.filter keeps)).along a = (m.run cs).along a := by
  have hfiltered : ∀ c ∈ cs.filter keeps, c.switches a ≠ some .relative := by
    intro c hc
    exact hcs c (List.mem_filter.mp hc).1
  obtain ⟨v, hv⟩ := Option.isSome_iff_exists.mp (mem_of_lastGiven hlast).2
  rw [along_run hn hfiltered, along_run hm hcs, lastGiven_filter hlast hkeeps, hlast,
    Option.bind_some, hv, Option.getD_some, Option.getD_some]

theorem along_run_of (holds : Float → Prop) (hzero : holds 0) {m : Machine} {a : Axis}
    {cs : List Command} (h : m.mode a = .absolute)
    (hcs : ∀ c ∈ cs, c.switches a ≠ some .relative) (hwords : ∀ c ∈ cs, ∀ v ∈ c.along a, holds v)
    (hm : holds (m.along a)) : holds ((m.run cs).along a) := by
  rw [along_run h hcs]
  cases hlast : lastGiven (fun c => c.target a) cs with
  | none => exact hm
  | some d =>
      obtain ⟨hd, hsome⟩ := mem_of_lastGiven hlast
      obtain ⟨v, hv⟩ := Option.isSome_iff_exists.mp hsome
      rw [Option.bind_some, hv, Option.getD_some]
      rcases target_eq_some hv with rfl | hword
      · exact hzero
      · exact hwords d hd v hword

end Machine

end ToolBatching
