import ToolBatching.Proofs.Reading.Scan
import ToolBatching.Proofs.Writing.Quiet

namespace ToolBatching

namespace TemplatePiece

/-- The template line that selects the tool. -/
def select : List TemplatePiece :=
  [text "T", tool]

/-- Whether a template line begins with a text that selects no tool. -/
def isQuiet : List TemplatePiece → Bool
  | text s :: _ => Command.beginsQuiet s
  | _ => false

theorem beginsQuiet_join {line : List TemplatePiece} (h : isQuiet line = true)
    (v : ChangeValues) : Command.beginsQuiet (String.join (line.map (render v))) = true := by
  unfold isQuiet at h
  split at h
  · rw [List.map_cons, String.join_cons]
    exact Command.beginsQuiet_append h _
  · exact absurd h (by simp)

theorem tool_parse_select {v : ChangeValues} {t : Nat} (hv : v.tool = t) (ht : t < 10) :
    (Command.parse 0 (String.join (select.map (render v)))).tool = some v.tool := by
  have hselect : select.map (render v) = ["T", toString v.tool] := rfl
  have hdigits : ∀ i : Fin 10,
      (Command.parse 0 (String.join ["T", toString i.val])).tool = some i.val := by
    decide
  -- A tool is a number here, and only ten of them are one digit.
  rw [hselect, hv]
  exact hdigits ⟨t, ht⟩

end TemplatePiece

theorem filterMap_tool_scanLines (ctx : Context) (start : Nat) (lines : List String) :
    (scanLines ctx start lines).filterMap (fun line => line.command.tool) =
      lines.filterMap fun text => (Command.parse 0 text).tool := by
  induction lines generalizing ctx start with
  | nil => rfl
  | cons text rest ih =>
      have htool : (ctx.scan start text).command.tool = (Command.parse 0 text).tool := by
        rw [ctx.command_scan]
        simp only [Command.parse, Command.ofText]
      rw [scanLines, List.filterMap_cons, List.filterMap_cons, htool, ih]

namespace Flavor

theorem template_cases (f : Flavor) :
    (∀ line ∈ f.template, line = TemplatePiece.select ∨ TemplatePiece.isQuiet line = true) ∧
      f.template.filter (fun line => decide (line = TemplatePiece.select)) =
        [TemplatePiece.select] := by
  cases f <;> decide

theorem filterMap_eq_map_filter (selected : List TemplatePiece → Option Tool)
    {template : List (List TemplatePiece)} {t : Tool}
    (hselect : selected TemplatePiece.select = some t)
    (hother : ∀ line ∈ template, line ≠ TemplatePiece.select → selected line = none) :
    template.filterMap selected =
      (template.filter fun line => decide (line = TemplatePiece.select)).map fun _ => t := by
  induction template with
  | nil => rfl
  | cons line rest ih =>
      obtain ⟨hline, hrest⟩ := List.forall_mem_cons.mp hother
      by_cases heq : line = TemplatePiece.select
      · subst heq
        rw [List.filterMap_cons_some hselect, ih hrest, List.filter_cons_of_pos (by simp),
          List.map_cons]
      · rw [List.filterMap_cons_none (hline heq), ih hrest,
          List.filter_cons_of_neg (by simpa using heq)]

theorem filterMap_tool_render (f : Flavor) {v : ChangeValues} {t : Nat} (hv : v.tool = t)
    (ht : t < 10) : (f.render v).filterMap Command.tool = [v.tool] := by
  obtain ⟨hcases, hselects⟩ := f.template_cases
  have hother : ∀ line ∈ f.template, line ≠ TemplatePiece.select →
      (Command.parse 0 (String.join (line.map (TemplatePiece.render v)))).tool = none := by
    intro line hmem hne
    exact Command.tool_parse_eq_none 0
      (TemplatePiece.beginsQuiet_join ((hcases line hmem).resolve_left hne) v)
  have hselected := filterMap_eq_map_filter
    (fun line => (Command.parse 0 (String.join (line.map (TemplatePiece.render v)))).tool)
    (TemplatePiece.tool_parse_select hv ht) hother
  rw [hselects] at hselected
  calc
    _ = (scanLines {} 0 (f.lines v)).filterMap (fun line => line.command.tool) := by
      rw [render, List.filterMap_map]
      rfl
    _ = f.template.filterMap fun line =>
        (Command.parse 0 (String.join (line.map (TemplatePiece.render v)))).tool := by
      rw [filterMap_tool_scanLines, lines, List.filterMap_map]
      rfl
    _ = [v.tool] := hselected

theorem line_of_mem_render (f : Flavor) (v : ChangeValues) :
    ∀ c ∈ f.render v, c.line = none := by
  intro c hc
  obtain ⟨line, -, rfl⟩ := List.mem_map.mp hc
  rfl

end Flavor

end ToolBatching
