import ToolBatching.Proofs.Reading.Detection

namespace ToolBatching

/-- What is open between two lines. -/
structure Nesting where
  sequence : Bool := false
  object : Bool := false
  deriving DecidableEq

namespace Nesting

/-- What is open behind a marker, if the marker nests. -/
def step (n : Nesting) : Option Marker → Option Nesting
  | some (.toolChangeOpen _) => if n.sequence then none else some { n with sequence := true }
  | some .toolChangeClose => if n.sequence then some { n with sequence := false } else none
  | some (.objectStart _) => some { n with object := true }
  | some (.objectStop _) => if n.object then some { n with object := false } else none
  | _ => some n

/-- What is open behind commands, if they nest. -/
def read (n : Nesting) (cs : List Command) : Option Nesting :=
  cs.foldlM (fun n c => n.step (Marker.ofCommand c)) n

variable {n next : Nesting} {cs ds : List Command}

@[simp]
theorem read_nil (n : Nesting) : n.read [] = some n :=
  rfl

theorem read_cons (n : Nesting) (c : Command) (cs : List Command) :
    n.read (c :: cs) = (n.step (Marker.ofCommand c)).bind fun next => next.read cs :=
  rfl

theorem read_append (n : Nesting) (cs ds : List Command) :
    n.read (cs ++ ds) = (n.read cs).bind fun next => next.read ds :=
  List.foldlM_append

theorem read_append_of_eq (h : n.read cs = some next) (ds : List Command) :
    n.read (cs ++ ds) = next.read ds := by
  rw [read_append, h, Option.bind_some]

/-- Whether a marker opens and closes nothing. -/
def isCalm : Option Marker → Bool
  | some (.toolChangeOpen _) | some .toolChangeClose => false
  | some (.objectStart _) | some (.objectStop _) => false
  | _ => true

theorem step_of_isCalm {marker : Option Marker} (h : isCalm marker = true) (n : Nesting) :
    n.step marker = some n := by
  unfold isCalm at h
  unfold step
  split at h <;> first | rfl | exact absurd h (by simp)

theorem read_of_isCalm (h : ∀ c ∈ cs, isCalm (Marker.ofCommand c) = true) (n : Nesting) :
    n.read cs = some n := by
  induction cs with
  | nil => rfl
  | cons c cs ih =>
      obtain ⟨hc, hcs⟩ := List.forall_mem_cons.mp h
      rw [read_cons, step_of_isCalm hc, Option.bind_some, ih hcs]

theorem read_congr (h : cs.map Marker.ofCommand = ds.map Marker.ofCommand) (n : Nesting) :
    n.read cs = n.read ds := by
  have hmarkers (es : List Command) : n.read es = (es.map Marker.ofCommand).foldlM step n := by
    rw [List.foldlM_map]
    rfl
  rw [hmarkers, h, ← hmarkers]

end Nesting

namespace Context

def nesting (ctx : Context) : Nesting where
  sequence := ctx.sequence.isSome
  object := ctx.object.isSome

theorem step_nesting_iff (ctx : Context) (marker : Option Marker) (n : Nat) (next : Nesting) :
    ctx.nesting.step marker = some next ↔ ctx.warningOf marker n = none ∧
      ⟨(ctx.nextSequence marker n).isSome, (ctx.nextObject marker).isSome⟩ = next := by
  cases marker with
  | none => simp [nesting, nextSequence, nextObject, warningOf, Nesting.step]
  | some marker =>
      cases marker with
      | toolChangeOpen slot =>
          cases hopen : ctx.sequence <;>
            simp [nesting, nextSequence, nextObject, warningOf, Nesting.step, hopen]
      | toolChangeClose =>
          cases hopen : ctx.sequence <;>
            simp [nesting, nextSequence, nextObject, warningOf, Nesting.step, hopen]
      | objectStop label =>
          cases hopen : ctx.object <;>
            simp [nesting, nextSequence, nextObject, warningOf, Nesting.step, hopen]
      | _ => simp [nesting, nextSequence, nextObject, warningOf, Nesting.step]

theorem next_scan (ctx : Context) (n : Nat) (text : String) :
    (ctx.scan n text).next =
      { machine := ctx.machine.step (Command.parse n text)
        sequence := ctx.nextSequence (ctx.scan n text).marker n
        object := ctx.nextObject (ctx.scan n text).marker } := by
  simp only [scan, advance]

theorem warning_scan (ctx : Context) (n : Nat) (text : String) :
    (ctx.scan n text).warning = ctx.warningOf (ctx.scan n text).marker n := by
  simp only [scan]

theorem step_scan_iff (ctx : Context) (n : Nat) (text : String) (next : Nesting) :
    ctx.nesting.step (Marker.ofCommand (ctx.scan n text).command) = some next ↔
      (ctx.scan n text).warning = none ∧ (ctx.scan n text).next.nesting = next := by
  have hnext : (ctx.scan n text).next.nesting =
      ⟨(ctx.nextSequence (ctx.scan n text).marker n).isSome,
        (ctx.nextObject (ctx.scan n text).marker).isSome⟩ := by
    rw [ctx.next_scan, nesting]
  rw [ctx.warning_scan, hnext, ← ctx.marker_scan]
  generalize (ctx.scan n text).marker = marker
  exact ctx.step_nesting_iff marker n next

variable {marker : Option Marker}

theorem nextSequence_of_isCalm (ctx : Context) (n : Nat) (h : Nesting.isCalm marker = true) :
    ctx.nextSequence marker n = ctx.sequence := by
  unfold nextSequence
  split
  · exact absurd h (by simp [Nesting.isCalm])
  · exact absurd h (by simp [Nesting.isCalm])
  · rfl

theorem nextObject_of_isCalm (ctx : Context) (h : Nesting.isCalm marker = true) :
    ctx.nextObject marker = ctx.object := by
  unfold nextObject
  split
  · exact absurd h (by simp [Nesting.isCalm])
  · exact absurd h (by simp [Nesting.isCalm])
  · rfl

theorem opensSequence_of_isCalm (ctx : Context) {c : Command} (htool : c.tool = none)
    (h : Nesting.isCalm marker = true) : ctx.opensSequence marker c = false := by
  unfold opensSequence
  split
  · exact absurd h (by simp [Nesting.isCalm])
  · rw [htool]
    rfl
  · rfl

theorem boundaryOf_of_isCalm (ctx : Context) (h : Nesting.isCalm marker = true) :
    ctx.boundaryOf marker false = .none := by
  unfold boundaryOf
  split
  · exact absurd h (by simp [Nesting.isCalm])
  · exact absurd h (by simp [Nesting.isCalm])
  · rfl

theorem warningOf_of_isCalm (ctx : Context) (n : Nat) (h : Nesting.isCalm marker = true) :
    ctx.warningOf marker n = none :=
  ((ctx.step_nesting_iff marker n ctx.nesting).mp (Nesting.step_of_isCalm h ctx.nesting)).1

end Context

namespace Layout

variable {l : Layout} {line : ScannedLine}

theorem warnings_warn (l : Layout) (w : Option Warning) :
    (l.warn w).warnings.toList = l.warnings.toList ++ w.toList := by
  cases w with
  | none => exact (List.append_nil _).symm
  | some w => exact Array.toList_push

theorem warnings_closeLayer (l : Layout) : l.closeLayer.warnings = l.warnings := by
  unfold closeLayer
  split
  · rfl
  · split <;> rfl

theorem lastNumber_closeLayer (l : Layout) : l.closeLayer.lastNumber = l.lastNumber := by
  unfold closeLayer
  split
  · rfl
  · split <;> rfl

theorem warnings_takeBack (l : Layout) (object : Option String) (entry : Machine) (count : Nat) :
    (l.takeBack object entry count).1.warnings = l.warnings ∧
      (l.takeBack object entry count).1.lastNumber = l.lastNumber := by
  unfold takeBack
  split <;> exact ⟨rfl, rfl⟩

theorem warnings_openLayer_eq (l : Layout) (line : ScannedLine) (openedZ : Option Float) :
    (l.openLayer line openedZ).warnings =
      (l.warn (line.before.object.map (.objectOpenAtLayerBoundary l.line))).warnings := by
  unfold openLayer
  exact (warnings_closeLayer _).trans (warnings_takeBack _ _ _ _).1

theorem warnings_openLayer (l : Layout) (line : ScannedLine) (openedZ : Option Float) :
    ∃ w, (l.openLayer line openedZ).warnings = (l.warn w).warnings ∧
      (line.before.object = none → w = none) ∧
      (l.openLayer line openedZ).lastNumber = l.lastNumber := by
  refine ⟨_, l.warnings_openLayer_eq line openedZ, ?_, ?_⟩
  · intro hobject
    rw [hobject, Option.map_none]
  · unfold openLayer
    refine (lastNumber_closeLayer _).trans ((warnings_takeBack _ _ _ _).2.trans ?_)
    rw [warn_eq]

theorem warnings_append (l : Layout) (line : ScannedLine) :
    (l.append line).warnings = l.warnings ∧ (l.append line).lastNumber = l.lastNumber := by
  cases hcurrent : l.current with
  | none =>
      obtain ⟨pendingZ, heq⟩ := append_of_current_eq_none line hcurrent
      rw [heq]
      exact ⟨rfl, rfl⟩
  | some d =>
      obtain ⟨hintedZ, pendingZ, heq⟩ := l.append_eq_of_current line hcurrent
      rw [heq]
      exact ⟨rfl, rfl⟩

/-- A line at which layers open in order and outside objects, if one opens. -/
structure Admits (l : Layout) (line : ScannedLine) : Prop where
  markers : l.ending = none → l.detection = .markers → ∀ number ∈ line.layerNumber,
    line.before.object = none ∧ ∀ previous ∈ l.lastNumber, previous < number
  moves : l.ending = none → l.detection = .zHeight → line.command.movesZ = true →
    line.before.object = none

theorem warnings_opened (l : Layout) (line : ScannedLine)
    (hobject : l.ending = none → l.Admits line → line.before.object = none)
    (lastNumber : Option Nat) (topZ openedZ : Option Float) :
    ∃ w, ({ l with lastNumber, topZ }.openLayer line openedZ).warnings = (l.warn w).warnings ∧
      (l.ending = none → l.Admits line → w = none) ∧
      ({ l with lastNumber, topZ }.openLayer line openedZ).lastNumber = lastNumber := by
  obtain ⟨w, hwarnings, hnone, hlast⟩ :=
    warnings_openLayer { l with lastNumber, topZ } line openedZ
  refine ⟨w, ?_, fun hopen hadmits => hnone (hobject hopen hadmits), hlast⟩
  rw [hwarnings]
  cases w <;> rfl

theorem warnings_openAt (l : Layout) (line : ScannedLine) :
    ∃ w, (l.openAt line).warnings = (l.warn w).warnings ∧
      (l.ending = none → l.Admits line → w = none) ∧
      ((l.openAt line).lastNumber = l.lastNumber ∨
        ∃ number ∈ line.layerNumber, (l.openAt line).lastNumber = some number) := by
  cases hdetection : l.detection with
  | markers =>
      unfold openAt
      simp only [hdetection]
      split
      · rename_i number total hmarker
        have hnumber : number ∈ line.layerNumber := by
          rw [ScannedLine.layerNumber, hmarker]
          rfl
        have hopened := l.warnings_opened line (fun hopen hadmits =>
          (hadmits.markers hopen hdetection number hnumber).1) (some number) l.topZ none
        rw [← hdetection]
        obtain ⟨w, hwarnings, hnone, hlast⟩ := hopened
        split
        · rename_i previous hprevious
          split
          · rename_i hle
            refine ⟨_, rfl, ?_, Or.inl (by rw [warn_eq])⟩
            intro hopen hadmits
            have habove := (hadmits.markers hopen hdetection number hnumber).2 previous hprevious
            omega
          · exact ⟨w, hwarnings, hnone, Or.inr ⟨number, hnumber, hlast⟩⟩
        · exact ⟨w, hwarnings, hnone, Or.inr ⟨number, hnumber, hlast⟩⟩
      · exact ⟨none, rfl, fun _ _ => rfl, Or.inl rfl⟩
  | zHeight =>
      unfold openAt
      simp only [hdetection]
      split
      · rename_i hmoves
        obtain ⟨w, hwarnings, hnone, hlast⟩ := l.warnings_opened line
          (fun hopen hadmits => hadmits.moves hopen hdetection hmoves) l.lastNumber
          (some line.next.machine.z) (some line.next.machine.z)
        rw [← hdetection]
        split
        · exact ⟨w, hwarnings, hnone, Or.inl hlast⟩
        · exact ⟨none, rfl, fun _ _ => rfl, Or.inl rfl⟩
      · exact ⟨none, rfl, fun _ _ => rfl, Or.inl rfl⟩

theorem warnings_place (l : Layout) (line : ScannedLine) :
    ∃ w, (l.place line).warnings = (l.warn w).warnings ∧ (l.Admits line → w = none) ∧
      ((l.place line).lastNumber = l.lastNumber ∨
        l.ending = none ∧ ∃ number ∈ line.layerNumber, (l.place line).lastNumber = some number) := by
  cases hending : l.ending with
  | some tail =>
      rw [place_of_ending_eq_some line hending]
      exact ⟨none, rfl, fun _ => rfl, Or.inl rfl⟩
  | none =>
      rcases place_of_ending_eq_none line hending with ⟨-, -, heq⟩ | ⟨-, heq⟩
      · rw [heq]
        refine ⟨none, l.warnings_closeLayer, fun _ => rfl, Or.inl l.lastNumber_closeLayer⟩
      · obtain ⟨w, hwarnings, hnone, hlast⟩ := l.warnings_openAt line
        obtain ⟨hkept, hnumber⟩ := (l.openAt line).warnings_append line
        rw [heq, hkept, hnumber]
        refine ⟨w, hwarnings, hnone hending, ?_⟩
        rcases hlast with hlast | ⟨number, hmem, hlast⟩
        · exact Or.inl hlast
        · exact Or.inr ⟨rfl, number, hmem, hlast⟩

theorem warnings_read (l : Layout) (text : String) :
    ∃ w, (l.read text).warnings.toList = l.warnings.toList ++
        (l.context.scan l.line text).warning.toList ++ w.toList ∧
      (l.Admits (l.context.scan l.line text) → w = none) ∧
      ((l.read text).lastNumber = l.lastNumber ∨ l.ending = none ∧
        ∃ number ∈ (l.context.scan l.line text).layerNumber,
          (l.read text).lastNumber = some number) := by
  unfold read push
  generalize l.context.scan l.line text = line
  obtain ⟨w, hwarnings, hnone, hlast⟩ := (l.warn line.warning).warnings_place line
  have hframe : (l.warn line.warning).ending = l.ending ∧
      (l.warn line.warning).detection = l.detection ∧
      (l.warn line.warning).lastNumber = l.lastNumber := by
    rw [warn_eq]
    exact ⟨rfl, rfl, rfl⟩
  rw [hframe.1, hframe.2.2] at hlast
  refine ⟨w, ?_, ?_, hlast⟩
  · rw [← warnings_warn, ← warnings_warn]
    exact congrArg Array.toList hwarnings
  · intro hadmits
    apply hnone
    constructor
    · rw [hframe.1, hframe.2.1, hframe.2.2]
      exact hadmits.markers
    · rw [hframe.1, hframe.2.1]
      exact hadmits.moves

theorem nesting_foldl {lines : List String} (h : (lines.foldl Layout.read l).warnings.toList = []) :
    l.warnings.toList = [] ∧ l.context.nesting.read
        ((scanLines l.context l.line lines).map ScannedLine.command) =
      some (lines.foldl Layout.read l).context.nesting := by
  induction lines generalizing l with
  | nil => exact ⟨h, rfl⟩
  | cons text lines ih =>
      rw [List.foldl_cons] at h ⊢
      obtain ⟨hwarnings, hread⟩ := ih h
      obtain ⟨w, hadded, -⟩ := l.warnings_read text
      rw [hadded, List.append_eq_nil_iff, List.append_eq_nil_iff] at hwarnings
      obtain ⟨⟨hnone, hwarning⟩, -⟩ := hwarnings
      have hstep := (l.context.step_scan_iff l.line text _).mpr
        ⟨Option.toList_eq_nil_iff.mp hwarning, rfl⟩
      refine ⟨hnone, ?_⟩
      rw [scanLines, List.map_cons, Nesting.read_cons, hstep, Option.bind_some]
      rw [context_read, line_read] at hread
      exact hread

end Layout

namespace Program

theorem warnings_finish (l : Layout) (lineEnding : LineEnding) :
    (l.finish lineEnding).warnings = l.warnings.toList ++
      (l.context.sequence.map Warning.unterminatedToolChange).toList := by
  rw [← l.warnings_closeLayer, ← Layout.warnings_warn]
  rfl

theorem nesting_of_warnings_eq_nil {text : String} (h : (ofText text).warnings = []) :
    ∃ n, ({} : Nesting).read (readCommands text) = some n ∧ n.sequence = false := by
  unfold ofText ofLines at h
  rw [warnings_finish, List.append_eq_nil_iff] at h
  obtain ⟨hwarnings, hsequence⟩ := h
  obtain ⟨-, hread⟩ := Layout.nesting_foldl hwarnings
  refine ⟨_, hread, ?_⟩
  rw [Context.nesting, Option.isSome_eq_false_iff, Option.isNone_iff_eq_none]
  rw [Option.toList_eq_nil_iff, Option.map_eq_none_iff] at hsequence
  exact hsequence

end Program

end ToolBatching
