import ToolBatching.Proofs.Reading.Nesting
import ToolBatching.Proofs.Reading.PrintMoves

namespace ToolBatching

namespace Command

/-- All fields of a command but its line and its tag are told by its text. -/
def Told (c : Command) : Prop :=
  ∃ line tag, c = { ofText line c.raw with inToolChange := tag }

/-- A command with the same text, at another line or with another tag. -/
def Alike (c d : Command) : Prop :=
  d = { c with line := d.line, inToolChange := d.inToolChange }

theorem told_ofText (line : Option Nat) (raw : String) : (ofText line raw).Told :=
  ⟨line, false, rfl⟩

theorem Told.alike {c d : Command} (hc : c.Told) (hd : d.Told) (h : d.raw = c.raw) :
    c.Alike d := by
  obtain ⟨line, tag, hc⟩ := hc
  obtain ⟨line', tag', hd⟩ := hd
  rw [Alike, hc, hd, h]
  rfl

/-- Whether a sequence is open behind a command, if it is in front of it. -/
def opensBehind (opened : Bool) (c : Command) : Bool :=
  match Marker.ofCommand c with
  | some (.toolChangeOpen _) => true
  | some .toolChangeClose => false
  | _ => opened

/-- Whether a command belongs to a sequence, if one is open in front of it. -/
def belongs (opened : Bool) (c : Command) : Bool :=
  match Marker.ofCommand c with
  | some (.toolChangeOpen _) => true
  | _ => opened || c.tool.isSome

/-- The tags of commands in a row, if a sequence is open in front of them. -/
def tagsOf (opened : Bool) : List Command → List Bool
  | [] => []
  | c :: cs => c.belongs opened :: tagsOf (c.opensBehind opened) cs

theorem tagsOf_append (opened : Bool) (cs ds : List Command) :
    tagsOf opened (cs ++ ds) = tagsOf opened cs ++ tagsOf (cs.foldl opensBehind opened) ds := by
  induction cs generalizing opened with
  | nil => rfl
  | cons c cs ih => rw [List.cons_append, tagsOf, ih, tagsOf, List.cons_append, List.foldl_cons]

theorem length_tagsOf (opened : Bool) (cs : List Command) : (tagsOf opened cs).length = cs.length := by
  induction cs generalizing opened with
  | nil => rfl
  | cons c cs ih => rw [tagsOf, List.length_cons, ih, List.length_cons]

/-- Commands that are tagged the way they are read with no sequence open, and leave none
open. -/
structure Closed (cs : List Command) : Prop where
  tags : tagsOf false cs = cs.map inToolChange
  behind : cs.foldl opensBehind false = false

theorem closed_nil : Closed [] :=
  ⟨rfl, rfl⟩

theorem Closed.append {cs ds : List Command} (hcs : Closed cs) (hds : Closed ds) :
    Closed (cs ++ ds) where
  tags := by rw [tagsOf_append, hcs.behind, hcs.tags, hds.tags, List.map_append]
  behind := by rw [List.foldl_append, hcs.behind, hds.behind]

theorem closed_of_forall {cs : List Command}
    (h : ∀ c ∈ cs, c.belongs false = c.inToolChange ∧ c.opensBehind false = false) : Closed cs := by
  induction cs with
  | nil => exact closed_nil
  | cons c cs ih =>
      obtain ⟨⟨htag, hbehind⟩, hcs⟩ := List.forall_mem_cons.mp h
      have hfirst : Closed [c] := ⟨by rw [tagsOf, htag]; rfl, hbehind⟩
      exact hfirst.append (ih hcs)

section Alike

variable {c d : Command} {cs ds : List Command}

theorem Alike.raw (h : c.Alike d) : d.raw = c.raw := by
  rw [h]

theorem Alike.tool (h : c.Alike d) : d.tool = c.tool := by
  rw [h]

theorem Alike.marker (h : c.Alike d) : Marker.ofCommand d = Marker.ofCommand c := by
  rw [h]
  exact Marker.ofCommand_tagged c _ _

theorem Alike.step (h : c.Alike d) (m : Machine) : m.step d = m.step c := by
  rw [h]
  rfl

theorem forall₂_alike (hcs : ∀ c ∈ cs, c.Told) (hds : ∀ d ∈ ds, d.Told)
    (h : ds.map Command.raw = cs.map Command.raw) : List.Forall₂ Alike cs ds := by
  induction cs generalizing ds with
  | nil =>
      obtain rfl := List.map_eq_nil_iff.mp h
      exact .nil
  | cons c cs ih =>
      obtain ⟨d, ds, rfl, hraw, hrest⟩ := List.map_eq_cons_iff.mp h
      obtain ⟨hc, hcs⟩ := List.forall_mem_cons.mp hcs
      obtain ⟨hd, hds⟩ := List.forall_mem_cons.mp hds
      exact .cons (hc.alike hd hraw) (ih hcs hds hrest)

theorem tagsOf_eq_of_alike (h : List.Forall₂ Alike cs ds) (opened : Bool) :
    tagsOf opened ds = tagsOf opened cs ∧
      ds.foldl opensBehind opened = cs.foldl opensBehind opened := by
  induction h generalizing opened with
  | nil => exact ⟨rfl, rfl⟩
  | @cons c d cs ds hcd _ ih =>
      have hbelongs : d.belongs opened = c.belongs opened := by
        rw [belongs, belongs, hcd.marker, hcd.tool]
      have hbehind : d.opensBehind opened = c.opensBehind opened := by
        rw [opensBehind, opensBehind, hcd.marker]
      rw [tagsOf, tagsOf, List.foldl_cons, List.foldl_cons, hbelongs, hbehind, (ih _).1, (ih _).2]
      exact ⟨rfl, rfl⟩

theorem run_eq_of_alike (h : List.Forall₂ Alike cs ds) (m : Machine) : m.run ds = m.run cs := by
  induction h generalizing m with
  | nil => rfl
  | cons hcd _ ih => rw [Machine.run_cons, Machine.run_cons, hcd.step, ih]

end Alike

end Command

namespace Context

theorem isSome_sequence_advance (ctx : Context) (n : Nat) (c : Command) :
    (ctx.advance n c).sequence.isSome = c.opensBehind ctx.sequence.isSome := by
  change (ctx.nextSequence (Marker.ofCommand c) n).isSome = _
  rw [Command.opensBehind]
  cases Marker.ofCommand c with
  | none => rfl
  | some marker =>
      cases marker with
      | toolChangeOpen slot =>
          rw [nextSequence, Option.isSome_or, Option.isSome_some, Bool.or_true]
      | _ => rfl

theorem belongs_scan (ctx : Context) (n : Nat) (text : String) :
    (ctx.scan n text).command.inToolChange =
        (ctx.scan n text).command.belongs ctx.sequence.isSome ∧
      (ctx.scan n text).next.sequence.isSome =
        (ctx.scan n text).command.opensBehind ctx.sequence.isSome := by
  have hmarker : Marker.ofCommand (ctx.scan n text).command =
      Marker.ofCommand (Command.parse n text) := by
    rw [ctx.command_scan]
    exact Marker.ofCommand_tagged (Command.parse n text) (some n) _
  rw [Command.belongs, Command.opensBehind, hmarker, ctx.next_sequence_scan, ctx.command_scan]
  generalize Command.parse n text = c
  exact ⟨rfl, ctx.isSome_sequence_advance n c⟩

def behind (ctx : Context) (cs : List Command) : Context :=
  cs.foldl (fun ctx c => ctx.advance (c.line.getD 0) c) ctx

theorem isSome_sequence_behind (ctx : Context) (cs : List Command) :
    (ctx.behind cs).sequence.isSome = cs.foldl Command.opensBehind ctx.sequence.isSome := by
  induction cs generalizing ctx with
  | nil => rfl
  | cons c cs ih => rw [behind, List.foldl_cons, ← behind, ih, isSome_sequence_advance,
      List.foldl_cons]

end Context

theorem map_inToolChange_scanLines (ctx : Context) (n : Nat) (lines : List String) :
    (scanLines ctx n lines).map (fun line => line.command.inToolChange) =
      Command.tagsOf ctx.sequence.isSome ((scanLines ctx n lines).map ScannedLine.command) := by
  induction lines generalizing ctx n with
  | nil => rfl
  | cons text lines ih =>
      obtain ⟨htag, hbehind⟩ := ctx.belongs_scan n text
      rw [scanLines, List.map_cons, List.map_cons, Command.tagsOf, htag, ih, hbehind]

theorem Program.map_inToolChange_bodyCommands (lines : List String) (lineEnding : LineEnding) :
    (ofLines lines lineEnding).bodyCommands.map Command.inToolChange =
      Command.tagsOf ((({} : Context).behind (ofLines lines lineEnding).preamble).sequence.isSome)
        (ofLines lines lineEnding).bodyCommands := by
  have htags : (ofLines lines lineEnding).commands.map Command.inToolChange =
      Command.tagsOf false (ofLines lines lineEnding).commands := by
    rw [(read_ofLines lines lineEnding).commands, List.map_map]
    exact map_inToolChange_scanLines {} 0 lines
  rw [Context.isSome_sequence_behind]
  rw [commands, Command.tagsOf_append, Command.tagsOf_append, List.map_append,
    List.map_append] at htags
  have hfront := (List.append_inj htags (by
    rw [List.length_append, List.length_append, List.length_map, List.length_map,
      Command.length_tagsOf, Command.length_tagsOf])).1
  exact (List.append_inj hfront (by rw [List.length_map, Command.length_tagsOf])).2

end ToolBatching
