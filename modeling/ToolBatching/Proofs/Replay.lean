import ToolBatching.Machine

namespace ToolBatching

namespace Machine

@[simp]
theorem run_nil (m : Machine) : m.run [] = m :=
  rfl

@[simp]
theorem run_cons (m : Machine) (c : Command) (cs : List Command) :
    m.run (c :: cs) = (m.step c).run cs :=
  rfl

@[simp]
theorem run_append (m : Machine) (cs ds : List Command) :
    m.run (cs ++ ds) = (m.run cs).run ds := by
  simp only [run, List.foldl_append]

theorem step_tagged (m : Machine) (c : Command) (tag : Bool) :
    m.step { c with inToolChange := tag } = m.step c :=
  rfl

theorem tool_move (m : Machine) (c : Command) : (m.move c).tool = m.tool := by
  simp only [move]

theorem tool_setPosition (m : Machine) (c : Command) : (m.setPosition c).tool = m.tool := by
  unfold setPosition
  split <;> rfl

theorem tool_home (m : Machine) (c : Command) : (m.home c).tool = m.tool := by
  simp only [home]

theorem tool_step (m : Machine) (c : Command) : (m.step c).tool = c.tool.or m.tool := by
  unfold step
  cases htool : c.tool with
  | some t => rfl
  | none =>
      simp only [Option.none_or]
      split
      · rfl
      · rfl
      · rfl
      · rfl
      · exact tool_setPosition m c
      · exact tool_home m c
      · split
        · exact tool_move m c
        · rfl

theorem tool_run (m : Machine) (cs : List Command) :
    (m.run cs).tool = (cs.filterMap Command.tool).getLast?.or m.tool := by
  induction cs generalizing m with
  | nil => simp
  | cons c cs ih =>
      rw [run_cons, ih, tool_step]
      cases htool : c.tool with
      | none => simp [htool]
      | some t =>
          simp only [List.filterMap_cons, htool, List.getLast?_cons, Option.some_or]
          cases (cs.filterMap Command.tool).getLast? <;> rfl

/-- Some moment of a replay has a tool active, the start included. -/
def Shows (m : Machine) (cs : List Command) (tool : Option Tool) : Prop :=
  ∃ front, front <+: cs ∧ (m.run front).tool = tool

theorem shows_start (m : Machine) (cs : List Command) : m.Shows cs m.tool :=
  ⟨[], List.nil_prefix, rfl⟩

theorem shows_end (m : Machine) (cs : List Command) : m.Shows cs (m.run cs).tool :=
  ⟨cs, List.prefix_rfl, rfl⟩

end Machine

/-- Items in a row, each holding the machine state in front of its own commands. -/
def Chained {α : Type} (entry : α → Machine) (commands : α → List Command) :
    Machine → List α → Prop
  | _, [] => True
  | m, a :: rest => entry a = m ∧ Chained entry commands (m.run (commands a)) rest

namespace Chained

variable {α : Type} {entry : α → Machine} {commands : α → List Command}

theorem append_iff {m : Machine} {xs ys : List α} :
    Chained entry commands m (xs ++ ys) ↔
      Chained entry commands m xs ∧ Chained entry commands (m.run (xs.flatMap commands)) ys := by
  induction xs generalizing m with
  | nil => simp [Chained]
  | cons x xs ih =>
      simp only [List.cons_append, Chained, ih, List.flatMap_cons, Machine.run_append, and_assoc]

theorem exists_run {m : Machine} {items : List α} (h : Chained entry commands m items) {a : α}
    (ha : a ∈ items) :
    ∃ before, entry a = m.run before ∧ (before ++ commands a) <+: items.flatMap commands := by
  induction items generalizing m with
  | nil => exact absurd ha (by simp)
  | cons first rest ih =>
      obtain ⟨hfirst, hrest⟩ := h
      rw [List.flatMap_cons]
      rcases List.mem_cons.mp ha with rfl | hin
      · exact ⟨[], hfirst, List.prefix_append _ _⟩
      · obtain ⟨before, hentry, hprefix⟩ := ih hrest hin
        refine ⟨commands first ++ before, ?_, ?_⟩
        · rw [Machine.run_append, hentry]
        · rw [List.append_assoc]
          exact (List.prefix_append_right_inj _).mpr hprefix

theorem singleton_iff {m : Machine} {a : α} : Chained entry commands m [a] ↔ entry a = m := by
  simp [Chained]

end Chained

end ToolBatching
