import ToolBatching.Proofs.Writing.PlainText
import ToolBatching.Proofs.Writing.Restored
import ToolBatching.Proofs.Writing.Stages

namespace ToolBatching

/-- The comment in front of a layer of a tower. -/
def towerMark (tool : Tool) (index : Nat) : Command :=
  .commentLine s!"prime tower T{tool} layer {index}"

/-- How the comments in a tool's tower begin. -/
def towerFront (tool : Tool) : List Char :=
  "; prime tower T".toList ++ (Number.digits tool ++ ' ' :: "layer ".toList)

namespace Command

/-- Whether a command is not in the source and begins like those of a tool's tower. -/
def marksTower (c : Command) (tool : Tool) : Bool :=
  c.line.isNone && (towerFront tool).isPrefixOf c.raw.toList

/-- A command that begins no layer of a tower. -/
def Unmarked (c : Command) : Prop :=
  ∀ tool, c.marksTower tool = false

end Command

/-- The layers of a tool's tower among commands. -/
def towerMarks (tool : Tool) (cs : List Command) : List Command :=
  cs.filter fun c => c.marksTower tool

namespace Number

theorem eq_of_digits_eq {m n : Nat} (h : digits m = digits n) : m = n := by
  have hvalue (k : Nat) : ofDigits (digits k) = k := Nat.ofDigitChars_ten_toDigits
  rw [← hvalue m, h, hvalue]

theorem eq_of_digits_append {m n : Nat} {c : Char} (hc : c.isDigit = false) {xs ys : List Char}
    (h : digits m ++ c :: xs = digits n ++ c :: ys) : m = n := by
  have hfront (k : Nat) (zs : List Char) :
      (digits k ++ c :: zs).takeWhile Char.isDigit = digits k := by
    rw [List.takeWhile_append_of_pos fun d hd => isDigit_of_mem_digits hd,
      List.takeWhile_cons_of_neg (by simp [hc]), List.append_nil]
  apply eq_of_digits_eq
  rw [← hfront m xs, h, hfront]

theorem eq_of_prefix_digits {m n : Nat} {xs ys zs : List Char}
    (h : xs ++ (digits m ++ ' ' :: ys) <+: xs ++ (digits n ++ ' ' :: ys) ++ zs) : n = m := by
  obtain ⟨more, hmore⟩ := h
  simp only [List.append_assoc, List.cons_append] at hmore
  exact (eq_of_digits_append (by decide) (List.append_cancel_left hmore)).symm

end Number

theorem toList_raw_towerMark (tool : Tool) (index : Nat) :
    (towerMark tool index).raw.toList = towerFront tool ++ Number.digits index := by
  have hraw : (towerMark tool index).raw =
      "; " ++ ("prime tower T" ++ toString tool ++ " layer " ++ toString index) := rfl
  have hfront : "; prime tower T".toList = "; ".toList ++ "prime tower T".toList := by decide
  have hlayer : " layer ".toList = ' ' :: "layer ".toList := by decide
  have hassoc (a b c d e : List Char) : a ++ (b ++ c ++ d ++ e) = a ++ b ++ (c ++ d) ++ e := by
    simp only [List.append_assoc]
  have htext := congrArg String.toList hraw
  rw [String.toList_append, String.toList_append, String.toList_append, String.toList_append,
    Marker.toList_toString, Marker.toList_toString, hlayer, hassoc, ← hfront] at htext
  exact htext

theorem towerFront_prefix_iff (tool other : Tool) (digits : List Char) :
    towerFront tool <+: towerFront other ++ digits ↔ other = tool := by
  constructor
  · exact Number.eq_of_prefix_digits
  · rintro rfl
    exact List.prefix_append _ _

theorem marksTower_towerMark (other tool : Tool) (index : Nat) :
    (towerMark other index).marksTower tool = decide (other = tool) := by
  have hline : (towerMark other index).line.isNone = true := rfl
  rw [Command.marksTower, hline, Bool.true_and, toList_raw_towerMark, Bool.eq_iff_iff,
    List.isPrefixOf_iff_prefix, towerFront_prefix_iff, decide_eq_true_eq]

theorem towerMark_inj {tool other : Tool} {index height : Nat}
    (h : towerMark tool index = towerMark other height) : tool = other ∧ index = height := by
  have hraw : (towerMark tool index).raw.toList = (towerMark other height).raw.toList := by rw [h]
  rw [toList_raw_towerMark, toList_raw_towerMark] at hraw
  obtain rfl : other = tool := by
    rw [← towerFront_prefix_iff tool other (Number.digits height), ← hraw]
    exact List.prefix_append _ _
  exact ⟨rfl, Number.eq_of_digits_eq (List.append_cancel_left hraw)⟩

@[simp]
theorem towerMarks_append (tool : Tool) (cs ds : List Command) :
    towerMarks tool (cs ++ ds) = towerMarks tool cs ++ towerMarks tool ds := by
  simp only [towerMarks, List.filter_append]

theorem towerMarks_of_unmarked {cs : List Command} (h : ∀ c ∈ cs, c.Unmarked) (tool : Tool) :
    towerMarks tool cs = [] := by
  rw [towerMarks, List.filter_eq_nil_iff]
  intro c hc
  rw [h c hc tool]
  simp

theorem towerMarks_cons_towerMark {cs : List Command} (h : ∀ c ∈ cs, c.Unmarked)
    (tool other : Tool) (index : Nat) :
    towerMarks tool (towerMark other index :: cs) =
      if other = tool then [towerMark tool index] else [] := by
  have hrest : cs.filter (fun c => c.marksTower tool) = [] := towerMarks_of_unmarked h tool
  rw [towerMarks, List.filter_cons, hrest, marksTower_towerMark]
  by_cases hsame : other = tool
  · simp [hsame]
  · simp [hsame]

namespace Command

variable {c : Command}

theorem not_unmarked_towerMark (tool : Tool) (index : Nat) : ¬ (towerMark tool index).Unmarked := by
  intro h
  have hmarks := h tool
  rw [marksTower_towerMark, decide_eq_false_iff_not] at hmarks
  exact hmarks rfl

theorem unmarked_of_line (h : c.line.isSome = true) : c.Unmarked := by
  intro tool
  cases hline : c.line with
  | none =>
      rw [hline] at h
      exact absurd h (by simp)
  | some n => rw [marksTower, hline, Option.isNone_some, Bool.false_and]

/-- Whether a line that begins with a text is no comment of a tower. -/
def beginsOtherwise (text : String) : Bool :=
  !"; p".toList.isPrefixOf text.toList && !text.toList.isPrefixOf "; p".toList

theorem unmarked_of_begins {text more : String} (h : beginsOtherwise text = true)
    (hraw : c.raw = text ++ more) : c.Unmarked := by
  intro tool
  rw [marksTower, Bool.and_eq_false_iff]
  right
  rw [← Bool.not_eq_true, List.isPrefixOf_iff_prefix, hraw, String.toList_append]
  intro hfront
  rw [beginsOtherwise, Bool.and_eq_true, Bool.not_eq_true', Bool.not_eq_true',
    ← Bool.not_eq_true, ← Bool.not_eq_true, List.isPrefixOf_iff_prefix,
    List.isPrefixOf_iff_prefix] at h
  have hconstant : "; p".toList <+: "; prime tower T".toList := by decide
  have hshort : "; p".toList <+: towerFront tool := hconstant.trans (List.prefix_append _ _)
  rcases List.prefix_or_prefix_of_prefix (hshort.trans hfront) (List.prefix_append _ _) with hp | hp
  · exact h.1 hp
  · exact h.2 hp

theorem unmarked_synthesized {text : String} (h : beginsOtherwise text = true) (more : String) :
    (synthesized (text ++ more)).Unmarked :=
  unmarked_of_begins h rfl

theorem unmarked_commentLine {text : String} (h : beginsOtherwise ("; " ++ text) = true)
    (more : String) : (commentLine (text ++ more)).Unmarked :=
  unmarked_of_begins h String.append_assoc.symm

theorem unmarked_layerText (number total : Nat) :
    (commentLine (Marker.layerText number total)).Unmarked := by
  have hbegins : beginsOtherwise ("; " ++ "layer num/total_layer_count: ") = true := by
    decide +kernel
  have htext : Marker.layerText number total =
      "layer num/total_layer_count: " ++ (toString number ++ ("/" ++ toString total)) :=
    String.append_assoc.trans String.append_assoc
  rw [htext]
  exact unmarked_commentLine hbegins _

theorem unmarked_heightText (z : Float) : (commentLine (Marker.heightText z)).Unmarked := by
  have hbegins : beginsOtherwise ("; " ++ "Z_HEIGHT: ") = true := by decide +kernel
  exact unmarked_commentLine hbegins _

end Command

theorem Move.exists_text_eq (m : Move) : ∃ more, m.text = "G1" ++ more := by
  unfold text
  simp only [String.append_assoc]
  exact ⟨_, rfl⟩

theorem Move.unmarked_build (m : Move) : m.build.Unmarked := by
  obtain ⟨more, hmore⟩ := m.exists_text_eq
  have hbegins : Command.beginsOtherwise "G1" = true := by decide
  exact Command.unmarked_of_begins hbegins hmore

theorem Command.unmarked_code {text : String} (h : beginsOtherwise text = true) :
    (synthesized text).Unmarked :=
  unmarked_of_begins h (String.append_empty).symm

theorem Machine.unmarked_restoration {m target : Machine} {c : Command}
    (h : c ∈ m.restoration target) : c.Unmarked := by
  simp only [restoration, List.mem_append] at h
  rcases h with ((h | h) | h) | h
  · rw [mem_restorePositioning h]
    exact Command.unmarked_code (by cases target.positioning <;> decide)
  · rw [mem_restoreExtrusion h]
    exact Command.unmarked_code (by cases target.extrusion <;> decide)
  · rw [mem_restorePosition h]
    exact Command.unmarked_synthesized (by decide) _
  · obtain ⟨f, rfl⟩ := mem_restoreFeedrate h
    exact Move.unmarked_build _

namespace TemplatePiece

/-- Whether a template line is no comment of a tower. -/
def beginsOtherwise : List TemplatePiece → Bool
  | text s :: _ => Command.beginsOtherwise s
  | _ => false

end TemplatePiece

theorem Flavor.beginsOtherwise_template (f : Flavor) :
    ∀ line ∈ f.template, TemplatePiece.beginsOtherwise line = true := by
  cases f <;> decide +kernel

theorem Flavor.unmarked_of_mem_render {f : Flavor} {v : ChangeValues} {c : Command}
    (h : c ∈ f.render v) : c.Unmarked := by
  obtain ⟨n, tag, line, hline, rfl⟩ := exists_of_mem_render h
  have hplain := TemplatePiece.plain_join (f.isPlain_template line hline) v
  have hbegins := f.beginsOtherwise_template line hline
  unfold TemplatePiece.beginsOtherwise at hbegins
  split at hbegins
  · rename_i s more
    apply Command.unmarked_of_begins hbegins
    rw [Command.parse_of_isLine n hplain.isLine]
    exact String.join_cons
  · exact absurd hbegins (by simp)

theorem PrimeTower.unmarked_layerMoves (t : PrimeTower) (tool : Tool) (height : Float) :
    ∀ c ∈ t.layerMoves tool height, c.Unmarked := by
  apply forall_layerMoves
  intro perMm x y side c hc
  simp only [loop, List.mem_cons, List.not_mem_nil, or_false] at hc
  rcases hc with rfl | rfl | rfl | rfl | rfl <;> exact Move.unmarked_build _

end ToolBatching
