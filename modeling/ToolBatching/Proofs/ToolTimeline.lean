import ToolBatching.Proofs.Replay
import ToolBatching.Schedule.Plan

namespace ToolBatching

namespace countToolChanges

theorem go_le_add (active : Option Tool) (t : Tool) (selects : List Tool) :
    go active selects ≤ (if active = some t then 0 else 1) + go (some t) selects := by
  cases selects with
  | nil => simp [go]
  | cons u selects =>
      simp only [go, Option.some.injEq]
      by_cases ht : active = some t
      · subst ht
        simp
      · by_cases hu : active = some u
        · simp only [hu, if_true]
          omega
        · simp only [ht, hu, if_false]
          omega

theorem go_append (active : Option Tool) (xs ys : List Tool) :
    go active (xs ++ ys) = go active xs + go (xs.getLast?.or active) ys := by
  induction xs generalizing active with
  | nil => simp [go]
  | cons x xs ih =>
      rw [List.cons_append, go, go, ih, List.getLast?_cons, Nat.add_assoc]
      cases xs.getLast? <;> rfl

theorem go_le_go_append (active : Option Tool) (xs ys : List Tool) :
    go active ys ≤ go active xs + go (xs.getLast?.or active) ys := by
  induction xs generalizing active with
  | nil => simp [go]
  | cons x xs ih =>
      have hstep := go_le_add active x ys
      have hrest := ih (some x)
      have hlast : (x :: xs).getLast?.or active = xs.getLast?.or (some x) := by
        rw [List.getLast?_cons]
        cases xs.getLast? <;> rfl
      rw [hlast, go]
      omega

theorem go_cons_le_of_shows {m : Machine} {cs : List Command} {t : Tool}
    (h : m.Shows cs (some t)) (selects : List Tool) :
    go m.tool (t :: selects) ≤
      go m.tool (cs.filterMap Command.tool) + go (m.run cs).tool selects := by
  obtain ⟨front, ⟨back, rfl⟩, htool⟩ := h
  have hfront : (front.filterMap Command.tool).getLast?.or m.tool = some t := by
    rw [← Machine.tool_run, htool]
  have hreach := go_le_go_append m.tool (front.filterMap Command.tool) [t]
  have hback := go_le_go_append (some t) (back.filterMap Command.tool) selects
  have hend : (m.run (front ++ back)).tool =
      (back.filterMap Command.tool).getLast?.or (some t) := by
    rw [Machine.run_append, Machine.tool_run, htool]
  rw [hfront] at hreach
  rw [List.filterMap_append, go_append, hfront, hend]
  simp only [go] at hreach ⊢
  simp only [if_true, Nat.add_zero] at hreach
  omega

/-- Tools that successive items of a replay show change no more often than the replay
does. -/
theorem go_filterMap_le_of_sublist {α : Type} {entry : α → Machine}
    {commands : α → List Command} {shown : α → Option Tool} {picked items : List α}
    (hsub : picked.Sublist items) {m : Machine} (hchain : Chained entry commands m items)
    (hshows : ∀ a ∈ picked, (entry a).Shows (commands a) (shown a)) :
    go m.tool (picked.filterMap shown) ≤
      go m.tool ((items.flatMap commands).filterMap Command.tool) := by
  -- Items that are left out add no change, and the others show a tool of their own replay.
  induction hsub generalizing m with
  | slnil => simp [go]
  | @cons picked items a hsub ih =>
      obtain ⟨-, hrest⟩ := hchain
      have hpicked := ih hrest hshows
      have hskip := go_le_go_append m.tool ((commands a).filterMap Command.tool)
        (picked.filterMap shown)
      rw [← Machine.tool_run] at hskip
      rw [List.flatMap_cons, List.filterMap_append, go_append, ← Machine.tool_run]
      omega
  | @cons_cons picked items a hsub ih =>
      obtain ⟨hentry, hrest⟩ := hchain
      have hpicked := ih hrest fun b hb => hshows b (List.mem_cons_of_mem a hb)
      have ha := hshows a List.mem_cons_self
      rw [hentry] at ha
      rw [List.flatMap_cons, List.filterMap_append, go_append, ← Machine.tool_run]
      cases hshown : shown a with
      | none =>
          have hskip := go_le_go_append m.tool ((commands a).filterMap Command.tool)
            (picked.filterMap shown)
          rw [← Machine.tool_run] at hskip
          rw [List.filterMap_cons_none hshown]
          omega
      | some t =>
          rw [hshown] at ha
          have hcount := go_cons_le_of_shows ha (picked.filterMap shown)
          rw [List.filterMap_cons_some hshown]
          omega

end countToolChanges

theorem Plan.toolSwitches_eq (plan : Plan) (initial : Option Tool) :
    plan.toolSwitches initial =
      countToolChanges.go initial (plan.batches.filterMap Batch.tool) := by
  unfold toolSwitches
  generalize plan.batches.filterMap Batch.tool = tools
  induction tools generalizing initial with
  | nil => rfl
  | cons t tools ih => rw [toolSwitches.go, countToolChanges.go, ih]

end ToolBatching
