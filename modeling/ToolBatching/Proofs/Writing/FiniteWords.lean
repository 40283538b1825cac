import ToolBatching.Proofs.Number.WholeText
import ToolBatching.Proofs.Writing.BlockHeights
import ToolBatching.Proofs.Writing.Restored

namespace ToolBatching

open Number

namespace Move

variable {m : Move}

theorem mem_text_of_mem_fields (hcomment : m.comment = none) {letter : Char} {value : List Char}
    (hword : ⟨letter, value⟩ ∈ m.fields) {c : Char} (hc : c ∈ value) : c ∈ m.text.toList := by
  rw [toList_text hcomment]
  apply List.mem_append_right
  exact List.mem_flatMap.mpr ⟨_, hword, List.mem_cons_of_mem _ (List.mem_cons_of_mem _ hc)⟩

theorem mem_field {value : Option Float} {v : Float} (hv : v ∈ value) (letter : Char)
    (places : Nat) : ⟨letter, (coordinate places v).toList⟩ ∈ field letter places value := by
  rw [field, Option.mem_def.mp hv]
  exact List.mem_singleton_self _

theorem isFinite_of_scan (hcomment : m.comment = none)
    (hscan : Word.scan (Command.codeOf m.text) ≠ none) (letter : Char) (places : Nat)
    {value : Option Float} (hfield : ∀ w ∈ field letter places value, w ∈ m.fields) {v : Float}
    (hv : v ∈ value) : v.isFinite = true := by
  by_contra hfinite
  have hword := hfield _ (mem_field hv letter places)
  have hcode := Command.codeOf_spaced (toList_text hcomment) m.chars_fields
  have hunread {c : Char} (hc : c ∈ (coordinate places v).toList) :
      c ∈ Command.codeOf m.text := by
    rw [hcode]
    exact mem_text_of_mem_fields hcomment hword hc
  rcases mem_coordinate_of_not_isFinite places (eq_false_of_ne_true hfinite) with hc | hc
  · exact hscan (Word.scan_eq_none (hunread hc) (by decide) (by decide) (by decide))
  · exact hscan (Word.scan_eq_none (hunread hc) (by decide) (by decide) (by decide))

theorem finite_of_scan (hcomment : m.comment = none)
    (hscan : Word.scan (Command.codeOf m.text) ≠ none) : m.Finite where
  x _ hv := isFinite_of_scan hcomment hscan 'X' axisPlaces (fun w hw => by simp [fields, hw]) hv
  y _ hv := isFinite_of_scan hcomment hscan 'Y' axisPlaces (fun w hw => by simp [fields, hw]) hv
  z _ hv := isFinite_of_scan hcomment hscan 'Z' axisPlaces (fun w hw => by simp [fields, hw]) hv
  e _ hv := isFinite_of_scan hcomment hscan 'E' extrusionPlaces (fun w hw => by simp [fields, hw]) hv
  f _ hv := isFinite_of_scan hcomment hscan 'F' 0 (fun w hw => by simp [fields, hw]) hv

theorem isFinite_along_build (hcomment : m.comment = none) {a : Axis} {v : Float}
    (hv : m.build.along a = some v) : v.isFinite = true := by
  by_cases hscan : Word.scan (Command.codeOf m.text) = none
  · rw [build, Command.synthesized, Command.along_ofText, hscan] at hv
    exact absurd hv (by simp [Command.addressed])
  · have hfinite := finite_of_scan hcomment hscan
    rw [along_build hfinite hcomment] at hv
    cases hvalue : m.along a with
    | none =>
        rw [hvalue] at hv
        exact absurd hv (by simp [readBack])
    | some u =>
        obtain ⟨r, hread, hclose⟩ := exists_readBack a (hfinite.along hvalue)
        rw [hvalue, hread] at hv
        obtain rfl := Option.some.inj hv
        exact hclose.1

end Move

namespace Command

theorem isFinite_along_extruder {e : Float} {a : Axis} {v : Float}
    (hv : (extruder e).along a = some v) : v.isFinite = true := by
  rw [extruder, synthesized, along_ofText] at hv
  cases hfinite : e.isFinite with
  | false =>
      rw [scan_extruder_eq_none hfinite] at hv
      exact absurd hv (by simp [addressed])
  | true =>
      obtain ⟨r, hread, hclose⟩ := Move.exists_readBack .e hfinite
      rw [show Axis.e.places = extrusionPlaces from rfl] at hread
      rw [scan_extruder hfinite, Option.getD_some, List.tail_cons, Move.addressed_field, hread] at hv
      split at hv
      · obtain rfl := Option.some.inj hv
        exact hclose.1
      · exact absurd hv (by simp)

theorem along_commentLine (text : String) (a : Axis) : (commentLine text).along a = none := by
  have hcode : codeOf ("; " ++ text) = [] := code_commentText none text
  rw [commentLine, synthesized, along_ofText, hcode]
  rfl

end Command

namespace TemplatePiece

/-- Whether a template line has no extruder word or is a text whose one is finite. -/
def extrudesFinite (line : List TemplatePiece) : Bool :=
  lacks 'E' line ||
    match line with
    | [text s] => ((Command.synthesized s).along .e).all Float.isFinite
    | _ => false

theorem isFinite_of_extrudesFinite {line : List TemplatePiece} (h : extrudesFinite line = true)
    {values : ChangeValues} {n : Option Nat} {v : Float}
    (hv : (Command.ofText n (String.join (line.map (render values)))).along .e = some v) :
    v.isFinite = true := by
  rw [Command.along_ofText, Axis.letter] at hv
  unfold extrudesFinite at h
  rw [Bool.or_eq_true] at h
  rcases h with hlacks | htext
  · rw [Command.addressed_eq_none _ (notMem_join (by decide) hlacks values)] at hv
    exact absurd hv (by simp)
  · split at htext
    · rename_i s
      rw [Command.synthesized, Command.along_ofText, Axis.letter] at htext
      rw [List.map_singleton, String.join_cons, String.join_nil, String.append_empty, render] at hv
      rw [hv] at htext
      exact htext
    · exact absurd htext (by simp)

end TemplatePiece

theorem Flavor.extrudesFinite_template (f : Flavor) :
    ∀ line ∈ f.template, TemplatePiece.extrudesFinite line = true := by
  cases f <;> decide +kernel

theorem Flavor.isFinite_e_of_mem_render {f : Flavor} {values : ChangeValues} {c : Command}
    (h : c ∈ f.render values) {v : Float} (hv : c.along .e = some v) : v.isFinite = true := by
  obtain ⟨n, tag, line, hline, rfl⟩ := exists_of_mem_render h
  have hplain := TemplatePiece.plain_join (f.isPlain_template line hline) values
  rw [Command.along_tagged, Command.parse_of_isLine n hplain.isLine] at hv
  exact TemplatePiece.isFinite_of_extrudesFinite (f.extrudesFinite_template line hline) hv

theorem BodyPlan.Composes.isFinite_e {p : BodyPlan} {c : Command} (h : p.Composes c)
    (hbody : ∀ d ∈ p.program.bodyCommands, ∀ v ∈ d.along .e, v.isFinite = true) :
    ∀ v ∈ c.along .e, v.isFinite = true := by
  have hcomment (text : String) : ∀ v ∈ (Command.commentLine text).along .e, v.isFinite = true := by
    simp [Command.along_commentLine]
  have hmode {text : String} (h : (Command.synthesized text).along .e = none) :
      ∀ v ∈ (Command.synthesized text).along .e, v.isFinite = true := by
    simp [h]
  cases h with
  | kept hc _ => exact hbody c hc
  | marker number => exact hcomment _
  | height z => exact hcomment _
  | tower tool index => exact hcomment _
  | move h => exact fun v hv => Move.isFinite_along_build h hv
  | absolute => exact hmode (by decide)
  | @positioning m _ => exact hmode (by cases m.positioning <;> decide)
  | extrusion mode => exact hmode (by cases mode <;> decide)
  | extruder e => exact fun v hv => Command.isFinite_along_extruder hv
  | block hc => exact fun v hv => Flavor.isFinite_e_of_mem_render hc hv

namespace Machine

variable {m : Machine} {a : Axis}

/-- What holds of a place, of zero and of a word holds where a command leads, if it holds of
the sum where the word is relative. -/
theorem along_step_holds (holds : Float → Prop) (hzero : holds 0) (h : holds (m.along a))
    {c : Command} (hc : ∀ v ∈ c.along a, holds v)
    (hsum : m.mode a = .relative → c.isMotion = true → ∀ v ∈ c.along a, holds (m.along a + v)) :
    holds ((m.step c).along a) := by
  have hword : holds ((c.along a).getD (m.along a)) := by
    cases hvalue : c.along a with
    | none => exact h
    | some v => exact hc v hvalue
  obtain ⟨t, -, heq⟩ | ⟨-, hcases⟩ := m.step_cases c
  · rw [heq]
    cases a <;> exact h
  · rcases hcases with ⟨-, heq⟩ | ⟨-, heq⟩ | ⟨-, heq⟩ | ⟨-, heq⟩ | ⟨-, heq⟩ | ⟨-, heq⟩ | ⟨-, heq⟩
    · rw [heq]
      cases a <;> exact h
    · rw [heq]
      cases a <;> exact h
    · rw [heq]
      cases a <;> exact h
    · rw [heq]
      cases a <;> exact h
    · rw [heq, along_setPosition]
      split
      · exact hzero
      · exact hword
    · rw [heq, along_home]
      split
      · exact hzero
      · exact h
    · rw [heq]
      split
      · rename_i hmotion
        rw [along_move]
        cases hvalue : c.along a with
        | none => exact h
        | some v =>
            cases hmode : m.mode a with
            | absolute => exact hc v hvalue
            | relative => exact hsum hmode hmotion v hvalue
      · exact h

theorem isNaN_along_step (h : (m.along a).isNaN = false) {c : Command}
    (hc : ∀ v ∈ c.along a, v.isFinite = true) : ((m.step c).along a).isNaN = false := by
  apply along_step_holds (fun v => v.isNaN = false) (by decide) h
  · exact fun v hv => isNaN_of_isFinite (hc v hv)
  · exact fun _ _ v hv => isNaN_add h (hc v hv)

theorem isNaN_along_run (h : (m.along a).isNaN = false) {cs : List Command}
    (hcs : ∀ c ∈ cs, ∀ v ∈ c.along a, v.isFinite = true) :
    ((m.run cs).along a).isNaN = false := by
  induction cs generalizing m with
  | nil => exact h
  | cons c cs ih =>
      obtain ⟨hc, hcs⟩ := List.forall_mem_cons.mp hcs
      exact ih (isNaN_along_step h hc) hcs

end Machine

end ToolBatching
