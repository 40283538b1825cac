import ToolBatching.Proofs.Reading.Entries
import ToolBatching.Proofs.Reading.Nesting
import ToolBatching.Proofs.Reading.Slices

namespace ToolBatching

namespace ScannedLine

/-- The line of the sequence that the marker of the line opens. -/
def sequenceBegun (line : ScannedLine) : Option Nat :=
  match line.marker with
  | some (.toolChangeOpen _) => line.command.line
  | _ => none

/-- What the marker of the line leaves open, if it starts or stops an object. -/
def objectLeft (line : ScannedLine) : Option (Option String) :=
  match line.marker with
  | some (.objectStart label) => some (some label)
  | some (.objectStop _) => some none
  | _ => none

end ScannedLine

/-- The line of the sequence that lines leave open: the first opener behind the last closer. -/
def openSequence (seen : List ScannedLine) : Option Nat :=
  (seen.rtakeWhile fun line => line.marker != some .toolChangeClose).findSome?
    ScannedLine.sequenceBegun

/-- The object that lines leave open: the one of the last start, unless a stop is behind it. -/
def openObject (seen : List ScannedLine) : Option String :=
  (seen.reverse.findSome? ScannedLine.objectLeft).join

theorem openSequence_concat (seen : List ScannedLine) (line : ScannedLine) :
    openSequence (seen ++ [line]) =
      if line.marker = some .toolChangeClose then none
      else (openSequence seen).or line.sequenceBegun := by
  unfold openSequence
  split
  · rename_i hclose
    rw [List.rtakeWhile_concat_neg _ _ _ (by simp [hclose])]
    rfl
  · rename_i hclose
    rw [List.rtakeWhile_concat_pos _ _ _ (by simpa using hclose), List.findSome?_append]
    cases hbegun : line.sequenceBegun <;> simp [hbegun]

theorem openObject_concat (seen : List ScannedLine) (line : ScannedLine) :
    openObject (seen ++ [line]) = line.objectLeft.getD (openObject seen) := by
  rw [openObject, List.reverse_concat, List.findSome?_cons]
  cases line.objectLeft <;> rfl

/-- A context knows what lines leave open. -/
structure Context.Behind (ctx : Context) (seen : List ScannedLine) : Prop where
  sequence : ctx.sequence = openSequence seen
  object : ctx.object = openObject seen

namespace Context

variable {ctx : Context} {seen behind : List ScannedLine} {line : ScannedLine}

theorem behind_nil : ({} : Context).Behind [] :=
  ⟨rfl, rfl⟩

theorem Behind.scan (h : ctx.Behind seen) (n : Nat) (text : String) :
    (ctx.scan n text).next.Behind (seen ++ [ctx.scan n text]) := by
  have hline := ctx.line_scan n text
  have hsequence : (ctx.scan n text).next.sequence =
      ctx.nextSequence (ctx.scan n text).marker n := by
    rw [ctx.next_scan]
  have hobject : (ctx.scan n text).next.object = ctx.nextObject (ctx.scan n text).marker := by
    rw [ctx.next_scan]
  generalize ctx.scan n text = line at hline hsequence hobject ⊢
  constructor
  · rw [hsequence, openSequence_concat, ← h.sequence, ScannedLine.sequenceBegun, hline]
    rcases line.marker with _ | marker
    · exact (Option.or_none).symm
    · cases marker <;> simp [nextSequence]
  · rw [hobject, openObject_concat, ← h.object, ScannedLine.objectLeft]
    rcases line.marker with _ | marker
    · rfl
    · cases marker <;> rfl

theorem Behind.exists_scan {lines : List String} (h : ctx.Behind seen)
    {front : List ScannedLine}
    (hlines : scanLines ctx seen.length lines = front ++ line :: behind) :
    ∃ (ctx' : Context) (text : String), ctx'.Behind (seen ++ front) ∧
      line = ctx'.scan (seen ++ front).length text := by
  induction lines generalizing ctx seen front with
  | nil => exact absurd hlines.symm (by simp [scanLines])
  | cons text lines ih =>
      rw [scanLines] at hlines
      cases front with
      | nil =>
          rw [List.append_nil]
          exact ⟨ctx, text, h, (List.cons.inj hlines).1.symm⟩
      | cons first front =>
          obtain ⟨rfl, hrest⟩ := List.cons.inj hlines
          have hnext := h.scan seen.length text
          have hlength : (seen ++ [ctx.scan seen.length text]).length = seen.length + 1 := by
            rw [List.length_append, List.length_singleton]
          obtain ⟨ctx', text', hbehind, hline⟩ := ih hnext (hlength ▸ hrest)
          rw [List.append_assoc] at hbehind hline
          exact ⟨ctx', text', hbehind, hline⟩

end Context

/-- The problem of a line whose marker closes what the lines in front of it do not leave open, or
opens a sequence inside the one they leave open. -/
inductive Misnests (seen : List ScannedLine) (line : ScannedLine) : Warning → Prop where
  | nested {slot opened : Nat} (hmarker : line.marker = some (.toolChangeOpen slot))
      (hopen : openSequence seen = some opened) :
      Misnests seen line (.nestedToolChangeOpen seen.length opened)
  | strayClose (hmarker : line.marker = some .toolChangeClose) (hopen : openSequence seen = none) :
      Misnests seen line (.strayToolChangeClose seen.length)
  | strayStop {label : String} (hmarker : line.marker = some (.objectStop label))
      (hopen : openObject seen = none) : Misnests seen line (.strayObjectStop seen.length label)

theorem Context.Behind.warningOf_eq_some_iff {ctx : Context} {seen : List ScannedLine}
    (h : ctx.Behind seen) (line : ScannedLine) (w : Warning) :
    ctx.warningOf line.marker seen.length = some w ↔ Misnests seen line w := by
  constructor
  · intro hw
    unfold warningOf at hw
    split at hw
    · rename_i slot opened hmarker hsequence
      obtain rfl := Option.some.inj hw
      exact .nested hmarker (h.sequence.symm.trans hsequence)
    · rename_i hmarker hsequence
      obtain rfl := Option.some.inj hw
      exact .strayClose hmarker (h.sequence.symm.trans hsequence)
    · rename_i label hmarker hobject
      obtain rfl := Option.some.inj hw
      exact .strayStop hmarker (h.object.symm.trans hobject)
    · exact absurd hw (by simp)
  · intro hw
    cases hw with
    | nested hmarker hopen => simp [warningOf, hmarker, h.sequence, hopen]
    | strayClose hmarker hopen => simp [warningOf, hmarker, h.sequence, hopen]
    | strayStop hmarker hopen => simp [warningOf, hmarker, h.object, hopen]

theorem shows_of_scanLines {lines : List String} {seen behind : List ScannedLine}
    {line : ScannedLine} (h : scanLines {} 0 lines = seen ++ line :: behind) :
    line.command.line = some seen.length ∧ line.before.object = openObject seen ∧
      ∀ w, line.warning = some w ↔ Misnests seen line w := by
  obtain ⟨ctx, text, hbehind, hline⟩ := Context.behind_nil.exists_scan h
  rw [List.nil_append] at hbehind hline
  have hwarning : line.warning = ctx.warningOf line.marker seen.length := by
    rw [hline, ctx.warning_scan]
  refine ⟨by rw [hline, ctx.line_scan], by rw [hline, ctx.before_scan, hbehind.object], ?_⟩
  rw [hwarning]
  exact hbehind.warningOf_eq_some_iff line

theorem Context.Behind.read_eq_some_iff {ctx : Context} {seen : List ScannedLine}
    (h : ctx.Behind seen) (start : Nat) (lines : List String) (n : Nesting) :
    ctx.nesting.read ((scanLines ctx start lines).map ScannedLine.command) = some n ↔
      (∀ line ∈ scanLines ctx start lines, line.warning = none) ∧
        n = ⟨(openSequence (seen ++ scanLines ctx start lines)).isSome,
          (openObject (seen ++ scanLines ctx start lines)).isSome⟩ := by
  induction lines generalizing ctx seen start with
  | nil =>
      rw [scanLines, List.map_nil, Nesting.read_nil, List.append_nil, nesting, h.sequence, h.object,
        Option.some.injEq, eq_comm]
      simp
  | cons text lines ih =>
      have hrest := ih (h.scan start text) (start + 1)
      rw [scanLines, List.map_cons, Nesting.read_cons, Option.bind_eq_some_iff, List.forall_mem_cons,
        and_assoc]
      rw [List.append_assoc, List.singleton_append] at hrest
      constructor
      · rintro ⟨next, hstep, hread⟩
        obtain ⟨hwarning, rfl⟩ := (ctx.step_scan_iff start text next).mp hstep
        exact ⟨hwarning, hrest.mp hread⟩
      · rintro ⟨hwarning, hread⟩
        exact ⟨_, (ctx.step_scan_iff start text _).mpr ⟨hwarning, rfl⟩, hrest.mpr hread⟩

end ToolBatching
