import ToolBatching.Body.Job
import ToolBatching.Body.Restore
import ToolBatching.Settings

/-!
Writing the body of a batched program. For every visit the writer puts a fresh layer
marker, the tool change if one is due, the tower layers that the tool lacks, and then
for every run of segments a safe travel, the corrections of the modes and the commands
of the segments without their tool-change sequences and layer markers.
-/

namespace ToolBatching

/-- Counts over a written body. -/
structure BodyCounts where
  visits : Nat := 0
  toolChanges : Nat := 0
  towerLayers : Nat := 0
  /-- Travels wrapped in a hop. -/
  hops : Nat := 0

/-- A body while it is being written. -/
structure Writer where
  machine : Machine
  /-- Highest Z that has been printed. -/
  ceiling : Float := 0
  /-- The layer of the last visit. -/
  lastLayer : Option Nat := none
  progress : TowerProgress := {}
  body : Array Command := #[]
  counts : BodyCounts := {}

/-- What does not change while a body is written. -/
structure BodyPlan where
  program : Program
  settings : Settings
  /-- Number of visits over all batches. -/
  total : Nat

namespace BodyPlan

/-- Towers are printed only where more than one tool prints. -/
def hasTowers (p : BodyPlan) : Bool :=
  p.settings.primeTower.enabled && decide (1 < p.program.tools.length)

/-- Height of a tower layer: the distance to the layer below, unless it does not rise. -/
def towerHeight (p : BodyPlan) (index : Nat) (z : Float) : Float :=
  let standard := p.settings.primeTower.layerHeight
  let below := ((p.program.layer? (index - 1)).map Layer.z).getD (z - standard)
  if tolerance < z - below then z - below else standard

end BodyPlan

namespace Writer

def write (w : Writer) (c : Command) : Writer :=
  let next := w.machine.step c
  { w with
    machine := next
    ceiling := if w.machine.prints c then Number.greater w.ceiling next.z else w.ceiling
    body := w.body.push c }

def writeAll (w : Writer) (cs : List Command) : Writer :=
  cs.foldl write w

/-- Make sure that coordinates are read as absolute. -/
def ensureAbsolute (w : Writer) : Writer :=
  if w.machine.positioning = .relative then w.write (.synthesized "G90") else w

def travel (w : Writer) (s : HopSettings) (t : Travel) : Writer :=
  let w := w.ensureAbsolute
  let plan := t.plan s w.machine
  { w.writeAll plan.commands with
    counts := { w.counts with hops := if plan.hopped then w.counts.hops + 1 else w.counts.hops } }

def restore (w : Writer) (target : Machine) : Writer :=
  w.writeAll (w.machine.restoration target)

def change (w : Writer) (s : ToolChange) (source : Option Tool) (tool : Tool) : Writer :=
  let w := w.ensureAbsolute
  { w.writeAll (s.block source tool w.ceiling) with
    counts := { w.counts with toolChanges := w.counts.toolChanges + 1 } }

def towerLayer (w : Writer) (p : BodyPlan) (tool : Tool) (index : Nat) : Writer :=
  match p.program.layer? index with
  | none => w
  | some layer =>
      let tower := p.settings.primeTower
      let (x, y) := tower.position tool
      let w := w.travel p.settings.hop
        { x, y, z := layer.z, ceiling := w.ceiling, outOfOrder := false }
      let w := if w.machine.extrusion = .relative then w else w.write (.synthesized "M83")
      let w := w.write (.commentLine s!"prime tower T{tool} layer {index}")
      { w.writeAll (tower.layerMoves tool (p.towerHeight index layer.z)) with
        counts := { w.counts with towerLayers := w.counts.towerLayers + 1 } }

/-- Write the layers that the active tool's tower lacks up to a layer. -/
def catchUp (w : Writer) (p : BodyPlan) (index : Nat) : Writer :=
  if p.hasTowers then
    match w.machine.tool with
    | some tool =>
        let missing := w.progress.missing tool index
        let w := { w with progress := w.progress.catchUp tool index }
        missing.foldl (fun w j => w.towerLayer p tool j) w
    | none => w
  else w

/-- The point in front of the first extrusion of a run: where its first sideways move
ends if that move only travels, and where it starts if it extrudes. There is none when
the move is relative. -/
def descentPoint (m : Machine) : List Command → Option (Float × Float)
  | [] => none
  | c :: rest =>
      if c.inToolChange then descentPoint m rest
      else
        let next := m.step c
        if c.isMotion && (c.x.isSome || c.y.isSome) then
          if m.positioning = .relative then none
          else if tolerance < next.e - m.e then some (m.x, m.y)
          else some (next.x, next.y)
        else descentPoint next rest

/-- Travel to where a run starts and restore the modes it was written for. -/
def enter (w : Writer) (p : BodyPlan) (layer : Layer) (first : Segment) (commands : List Command) :
    Writer :=
  let entry := first.entry
  let (x, y) := (descentPoint entry commands).getD (entry.x, entry.y)
  let outOfOrder := match w.lastLayer with
    | some last => layer.index != last && layer.index != last + 1
    | none => false
  let w := w.travel p.settings.hop
    { x, y, z := Number.greater entry.z layer.z, ceiling := w.ceiling, outOfOrder }
  w.restore entry

/-- Whether a command of the program is kept in the body. -/
def keeps (c : Command) : Bool :=
  !c.inToolChange && !Marker.isLayer c

def run (w : Writer) (p : BodyPlan) (layer : Layer) : List Segment → Writer
  | [] => w
  | first :: rest =>
      let commands := (first :: rest).flatMap Segment.commands
      (w.enter p layer first commands).writeAll (commands.filter keeps)

def mark (w : Writer) (p : BodyPlan) (layer : Layer) : Writer :=
  let number := w.counts.visits + 1
  let w := { w with counts := { w.counts with visits := number } }
  w.writeAll [.commentLine (Marker.layerText number p.total),
    .commentLine (Marker.heightText layer.z)]

/-- Write a visit, with the tool change that is due in front of it. -/
def visit (w : Writer) (p : BodyPlan) (due : Option (Option Tool × Tool)) (v : Visit) : Writer :=
  let w := w.mark p v.layer
  let w := match due with
    | some (source, tool) => w.change p.settings.toolChange source tool
    | none => w
  let w := w.catchUp p v.layer.index
  let w := v.runs.foldl (fun w run => w.run p v.layer run) w
  { w with lastLayer := some v.layer.index }

def dueChange (w : Writer) (tool : Option Tool) : Option (Option Tool × Tool) :=
  match tool with
  | some t => if w.machine.tool = some t then none else some (w.machine.tool, t)
  | none => none

/-- Write a batch; its tool change goes to its first visit. -/
def job (w : Writer) (p : BodyPlan) (j : Job) : Writer :=
  match j.visits with
  | [] => w
  | first :: rest => rest.foldl (fun w v => w.visit p none v) (w.visit p (w.dueChange j.tool) first)

/-- Lift clear of the print and restore the state that the end sequence expects. -/
def finish (w : Writer) (p : BodyPlan) : Writer :=
  let hop := p.settings.hop
  let w :=
    if w.machine.z < w.ceiling - tolerance then
      w.write (Move.build { z := some (w.ceiling + hop.height), f := some hop.zFeedrate })
    else w
  w.restore p.program.exit

end Writer

/-- The body of a program printed by a plan. -/
structure Body where
  commands : List Command
  counts : BodyCounts

/-- Write the body of a program printed by a plan. -/
def Program.synthesize (p : Program) (plan : Plan) (settings : Settings) : Except Fault Body := do
  let jobs ← p.resolve plan
  let context : BodyPlan := { program := p, settings, total := plan.visitCount }
  let start : Writer := { machine := p.preambleState }
  let w := (jobs.foldl (fun w j => w.job context j) start).finish context
  pure { commands := w.body.toList, counts := w.counts }

end ToolBatching
