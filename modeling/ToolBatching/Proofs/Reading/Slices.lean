import Mathlib.Data.List.DropRight
import ToolBatching.Proofs.Number.Arithmetic
import ToolBatching.Proofs.Reading.Tiling

namespace ToolBatching

namespace ScannedLine

/-- Number of the layer marker on the line. -/
def layerNumber (line : ScannedLine) : Option Nat :=
  match line.marker with
  | some (.layer number _) => some number
  | _ => none

theorem marker_of_layerNumber {line : ScannedLine} {k : Nat} (h : line.layerNumber = some k) :
    ∃ total, line.marker = some (.layer k total) := by
  unfold layerNumber at h
  split at h
  · rename_i number total hmarker
    obtain rfl := Option.some.inj h
    exact ⟨total, hmarker⟩
  · exact absurd h (by simp)

/-- Height that the line moves Z to, outside tool-change sequences. -/
def commandedZ (line : ScannedLine) : Option Float :=
  if line.command.movesZ then some line.next.machine.z else none

/-- Whether the line moves an axis or the extruder outside tool-change sequences. -/
def movesOutside (line : ScannedLine) : Bool :=
  line.command.movesAxis && !line.command.inToolChange

theorem commandedZ_eq_some_iff {line : ScannedLine} {z : Float} :
    line.commandedZ = some z ↔ line.command.movesZ = true ∧ line.next.machine.z = z := by
  simp [commandedZ]

theorem movesOutside_of_commandedZ {line : ScannedLine} (h : line.commandedZ.isSome = true) :
    line.movesOutside = true := by
  have hmoves : line.command.movesZ = true := by
    simpa [commandedZ] using h
  simp only [Command.movesZ, Bool.and_eq_true, Bool.not_eq_true'] at hmoves
  simp [movesOutside, Command.movesAxis, hmoves.1.1, hmoves.1.2, hmoves.2]

end ScannedLine

/-- The tool change that leads in to a line: behind the last line that moves outside
sequences, everything from the first opener on. -/
def leadIn (lines : List ScannedLine) : List ScannedLine :=
  (lines.rtakeWhile fun line => !line.movesOutside).dropWhile fun line => !line.opens

theorem leadIn_suffix (lines : List ScannedLine) : leadIn lines <:+ lines :=
  (List.dropWhile_suffix _).trans (List.rtakeWhile_suffix _ lines)

theorem movesOutside_of_mem_leadIn {lines : List ScannedLine} {line : ScannedLine}
    (h : line ∈ leadIn lines) : line.movesOutside = false := by
  have hmem := (List.dropWhile_suffix _).subset h
  simpa using List.mem_rtakeWhile_imp hmem

theorem leadIn_append_singleton (lines : List ScannedLine) (line : ScannedLine) :
    leadIn (lines ++ [line]) =
      if line.movesOutside then []
      else if leadIn lines = [] then (if line.opens then [line] else [])
      else leadIn lines ++ [line] := by
  unfold leadIn
  rw [List.rtakeWhile_concat]
  cases hmoves : line.movesOutside with
  | true => simp
  | false =>
      simp only [Bool.not_false, if_true, Bool.false_eq_true, if_false, List.dropWhile_append,
        List.isEmpty_iff]
      cases hopener : line.opens <;> simp [hopener]

theorem leadIn_behind {line : ScannedLine} (h : line.movesOutside = true)
    (front back : List ScannedLine) : leadIn (front ++ line :: back) <:+ back := by
  have hrun : (front ++ line :: back).rtakeWhile (fun line => !line.movesOutside) <:+ back := by
    induction back using List.reverseRecOn with
    | nil => simp [h]
    | append_singleton back last ih =>
        rw [← List.cons_append, ← List.append_assoc, List.rtakeWhile_concat]
        split
        · exact (List.suffix_append_inj_of_length_eq rfl).mpr ⟨ih, rfl⟩
        · exact List.nil_suffix
  exact (List.dropWhile_suffix _).trans hrun

/-- The lines of one layer. -/
structure Slice where
  lead : List ScannedLine
  /-- The line that opens the layer. -/
  opener : ScannedLine
  rest : List ScannedLine

namespace Slice

def lines (s : Slice) : List ScannedLine :=
  s.lead ++ s.opener :: s.rest

def commands (s : Slice) : List Command :=
  s.lines.map ScannedLine.command

end Slice

/-- How long a lead-in is, if there is one. -/
def lengthOf (lead : List ScannedLine) : Option Nat :=
  if lead = [] then none else some lead.length

/-- How layers are told apart: a line opens a layer if its key lies above the key of every
line that opened one before. -/
structure Rule (κ : Type) [LT κ] where
  detection : Detection
  key : ScannedLine → Option κ
  /-- Height of a layer that the line opens, if the line decides it. -/
  height : ScannedLine → Option Float
  /-- Lines that lead in to a line behind the given ones. -/
  lead : List ScannedLine → List ScannedLine
  /-- Highest key so far, from the records of a layout. -/
  top : Option Nat → Option Float → Option κ
  trans : ∀ {a b c : κ}, a < b → b < c → a < c
  openAt : ∀ (l : Layout) (line : ScannedLine), l.detection = detection →
    ((∃ w, l.openAt line = l.warn w) ∧ ∀ k ∈ key line, ∃ t ∈ top l.lastNumber l.topZ, ¬ t < k) ∨
    ∃ k lastNumber topZ, key line = some k ∧ (∀ t ∈ top l.lastNumber l.topZ, t < k) ∧
      top lastNumber topZ = some k ∧
      l.openAt line = Layout.openLayer { l with lastNumber, topZ } line (height line)
  top_start : top none none = none
  lead_suffix : ∀ lines, lead lines <:+ lines
  lead_behind : ∀ {line}, (key line).isSome = true → ∀ front back,
    lead (front ++ line :: back) <:+ back
  key_of_mem_lead : ∀ {lines line}, line ∈ lead lines → key line = none
  nextLeadIn : ∀ {l : Layout} {line : ScannedLine} {lines : List ScannedLine},
    l.detection = detection → (line.opens = true → line.command.inToolChange = true) →
    l.leadIn.map LeadIn.length = lengthOf (lead lines) →
      (l.nextLeadIn line).map LeadIn.length = lengthOf (lead (lines ++ [line]))

namespace Rule

theorem openAt_markers (l : Layout) (line : ScannedLine) (h : l.detection = .markers) :
    ((∃ w, l.openAt line = l.warn w) ∧
        ∀ k ∈ line.layerNumber, ∃ t ∈ l.lastNumber, ¬ t < k) ∨
      ∃ k lastNumber topZ, line.layerNumber = some k ∧ (∀ t ∈ l.lastNumber, t < k) ∧
        lastNumber = some k ∧
        l.openAt line = Layout.openLayer { l with lastNumber, topZ } line none := by
  unfold Layout.openAt
  simp only [h]
  cases hkey : line.layerNumber with
  | none =>
      refine Or.inl ⟨⟨none, ?_⟩, by simp⟩
      split
      · rename_i number total hmarker
        rw [ScannedLine.layerNumber, hmarker] at hkey
        exact absurd hkey (by simp)
      · rfl
  | some k =>
      obtain ⟨total, hmarker⟩ := ScannedLine.marker_of_layerNumber hkey
      simp only [hmarker]
      cases hlast : l.lastNumber with
      | none => exact Or.inr ⟨k, some k, l.topZ, rfl, by simp, rfl, by rw [← h]⟩
      | some previous =>
          by_cases hle : k ≤ previous
          · refine Or.inl ⟨⟨_, if_pos hle⟩, ?_⟩
            simpa using hle
          · refine Or.inr ⟨k, some k, l.topZ, rfl, ?_, rfl, ?_⟩
            · simpa using hle
            · rw [← h]
              exact if_neg hle

theorem openAt_zHeight (l : Layout) (line : ScannedLine) (h : l.detection = .zHeight) :
    ((∃ w, l.openAt line = l.warn w) ∧ ∀ k ∈ line.commandedZ, ∃ t ∈ l.topZ, ¬ t < k) ∨
      ∃ k lastNumber topZ, line.commandedZ = some k ∧ (∀ t ∈ l.topZ, t < k) ∧ topZ = some k ∧
        l.openAt line = Layout.openLayer { l with lastNumber, topZ } line line.commandedZ := by
  unfold Layout.openAt ScannedLine.commandedZ
  simp only [h]
  split
  · cases htop : l.topZ with
    | none =>
        refine Or.inr ⟨_, l.lastNumber, _, rfl, by simp, rfl, ?_⟩
        simp [← h]
    | some top =>
        by_cases hlt : top < line.next.machine.z
        · refine Or.inr ⟨_, l.lastNumber, _, rfl, by simpa using hlt, rfl, ?_⟩
          simp [← h, hlt]
        · refine Or.inl ⟨⟨none, ?_⟩, by simpa using hlt⟩
          simp [hlt, Layout.warn]
  · exact Or.inl ⟨⟨none, rfl⟩, by simp⟩

theorem nextLeadIn_zHeight {l : Layout} {line : ScannedLine} {lines : List ScannedLine}
    (h : l.detection = .zHeight) (hopens : line.opens = true → line.command.inToolChange = true)
    (hlead : l.leadIn.map LeadIn.length = lengthOf (leadIn lines)) :
    (l.nextLeadIn line).map LeadIn.length = lengthOf (leadIn (lines ++ [line])) := by
  -- An opener is a member of its sequence, so it never moves outside.
  have hmoves : (!line.opens && line.command.movesAxis && !line.command.inToolChange) =
      line.movesOutside := by
    cases hopener : line.opens with
    | true => simp [ScannedLine.movesOutside, hopens hopener]
    | false => simp [ScannedLine.movesOutside]
  rw [leadIn_append_singleton]
  unfold Layout.nextLeadIn
  rw [h, hmoves]
  unfold lengthOf at hlead ⊢
  cases hl : l.leadIn with
  | none =>
      have hnil : leadIn lines = [] := by
        rw [hl] at hlead
        by_contra hne
        simp [hne] at hlead
      have hquiet : line.opens = true → line.movesOutside = false := by
        intro hopener
        rw [← hmoves, hopener]
        rfl
      cases hopener : line.opens with
      | true => simp [hnil, hquiet hopener]
      | false => simp [hnil]
  | some last =>
      have hne : leadIn lines ≠ [] := by
        intro hnil
        rw [hl] at hlead
        simp [hnil] at hlead
      have hlength : last.length = (leadIn lines).length := by
        rw [hl] at hlead
        simpa [hne] using hlead
      cases line.movesOutside with
      | true => simp
      | false => simp [hne, hlength]

/-- Layers open at layer markers with increasing numbers. -/
def markers : Rule Nat where
  detection := .markers
  key := ScannedLine.layerNumber
  height := fun _ => none
  lead := fun _ => []
  top := fun lastNumber _ => lastNumber
  trans := Nat.lt_trans
  openAt := openAt_markers
  top_start := rfl
  lead_suffix := fun _ => List.nil_suffix
  lead_behind := fun _ _ _ => List.nil_suffix
  key_of_mem_lead := fun h => absurd h (by simp)
  nextLeadIn := by
    intro l line lines h _ _
    rw [Layout.nextLeadIn_eq_none_of_markers l line h]
    rfl

/-- Layers open at moves to a Z above every earlier one. -/
def zHeight : Rule Float where
  detection := .zHeight
  key := ScannedLine.commandedZ
  height := ScannedLine.commandedZ
  lead := leadIn
  top := fun _ topZ => topZ
  trans := Number.lt_trans_float
  openAt := openAt_zHeight
  top_start := rfl
  lead_suffix := leadIn_suffix
  lead_behind := fun h front back =>
    leadIn_behind (ScannedLine.movesOutside_of_commandedZ h) front back
  key_of_mem_lead := by
    intro lines line h
    have hquiet := movesOutside_of_mem_leadIn h
    by_contra hkey
    have hmoves := ScannedLine.movesOutside_of_commandedZ (Option.isSome_iff_ne_none.mpr hkey)
    rw [hquiet] at hmoves
    exact absurd hmoves (by simp)
  nextLeadIn := nextLeadIn_zHeight

end Rule

variable {κ : Type} [LT κ]

namespace Rule

/-- Every slice takes along exactly the lines that lead in to its opener. -/
def Leads (R : Rule κ) : List ScannedLine → List Slice → Prop
  | _, [] => True
  | before, s :: rest => s.lead = R.lead (before ++ s.lead) ∧ R.Leads (before ++ s.lines) rest

theorem leads_append_iff {R : Rule κ} {before : List ScannedLine} {xs ys : List Slice} :
    R.Leads before (xs ++ ys) ↔
      R.Leads before xs ∧ R.Leads (before ++ xs.flatMap Slice.lines) ys := by
  induction xs generalizing before with
  | nil => simp [Leads]
  | cons s xs ih =>
      simp only [List.cons_append, Leads, ih, List.flatMap_cons, List.append_assoc, and_assoc]

/-- The lines `front` and the slices behind them are cut where the rule says: a line opens a
layer if its key lies above the keys of all openers so far, and no other line does. -/
structure Cuts (R : Rule κ) (front : List ScannedLine) (slices : List Slice) : Prop where
  outside : ∀ line ∈ front, R.key line = none
  leads : R.Leads front slices
  opens : ∃ keys : List κ, slices.map (fun s => R.key s.opener) = keys.map some ∧ keys.Pairwise (· < ·)
  quiet : ∀ s ∈ slices, ∀ k ∈ R.key s.opener, ∀ line ∈ s.rest, ∀ j ∈ R.key line, ¬ k < j
  ends : ∀ s ∈ slices, ∀ line ∈ s.rest, line.marker ≠ some .endOfPrint

theorem cuts_nil {R : Rule κ} {front : List ScannedLine} (h : ∀ line ∈ front, R.key line = none) :
    R.Cuts front [] where
  outside := h
  leads := trivial
  opens := ⟨[], rfl, List.Pairwise.nil⟩
  quiet := by simp
  ends := by simp

theorem Cuts.exists_key {R : Rule κ} {front : List ScannedLine} {slices : List Slice}
    (h : R.Cuts front slices) {s : Slice} (hs : s ∈ slices) : ∃ k, R.key s.opener = some k := by
  obtain ⟨keys, hkeys, -⟩ := h.opens
  have hmem : R.key s.opener ∈ keys.map some := by
    rw [← hkeys]
    exact List.mem_map_of_mem hs
  obtain ⟨k, -, hk⟩ := List.mem_map.mp hmem
  exact ⟨k, hk.symm⟩

theorem Cuts.key_of_mem_lead {R : Rule κ} {front : List ScannedLine} {slices : List Slice}
    (h : R.Cuts front slices) {s : Slice} (hs : s ∈ slices) :
    ∀ line ∈ s.lead, R.key line = none := by
  intro line hline
  obtain ⟨earlier, later, rfl⟩ := List.append_of_mem hs
  obtain ⟨-, hlead, -⟩ := leads_append_iff.mp h.leads
  rw [hlead] at hline
  exact R.key_of_mem_lead hline

theorem Cuts.withRest {R : Rule κ} {front : List ScannedLine} {closed : List Slice} {s : Slice}
    (h : R.Cuts front (closed ++ [s])) {rest : List ScannedLine}
    (hquiet : ∀ k ∈ R.key s.opener, ∀ line ∈ rest, ∀ j ∈ R.key line, ¬ k < j)
    (hends : ∀ line ∈ rest, line.marker ≠ some .endOfPrint) :
    R.Cuts front (closed ++ [{ s with rest }]) where
  outside := h.outside
  leads := by
    obtain ⟨hclosed, hlead, -⟩ := leads_append_iff.mp h.leads
    exact leads_append_iff.mpr ⟨hclosed, hlead, trivial⟩
  opens := by
    have hopens := h.opens
    rw [List.map_append, List.map_singleton] at hopens ⊢
    exact hopens
  quiet := by
    rw [List.forall_mem_append, List.forall_mem_singleton]
    exact ⟨fun t ht => h.quiet t (List.mem_append_left _ ht), hquiet⟩
  ends := by
    rw [List.forall_mem_append, List.forall_mem_singleton]
    exact ⟨fun t ht => h.ends t (List.mem_append_left _ ht), hends⟩

/-- A line above the newest opener opens a slice. -/
theorem Cuts.concat {R : Rule κ} {front : List ScannedLine} {slices : List Slice}
    (h : R.Cuts front slices) {lead : List ScannedLine} {line : ScannedLine} {k : κ}
    (hkey : R.key line = some k)
    (habove : ∀ s ∈ slices.getLast?, ∀ t ∈ R.key s.opener, t < k)
    (hlead : lead = R.lead (front ++ slices.flatMap Slice.lines ++ lead)) :
    R.Cuts front (slices ++ [⟨lead, line, []⟩]) where
  outside := h.outside
  leads := leads_append_iff.mpr ⟨h.leads, hlead, trivial⟩
  opens := by
    obtain ⟨keys, hkeys, hpairwise⟩ := h.opens
    refine ⟨keys ++ [k], by simp [hkeys, hkey], ?_⟩
    rw [List.pairwise_append]
    refine ⟨hpairwise, List.pairwise_singleton _ _, fun a ha b hb => ?_⟩
    obtain rfl := List.mem_singleton.mp hb
    -- All keys but the last lie below the last one, which lies below the new one.
    rcases List.eq_nil_or_concat' keys with rfl | ⟨older, last, rfl⟩
    · exact absurd ha (by simp)
    · have hlast : last < b := by
        have hend : (slices.map fun s => R.key s.opener).getLast? = some (some last) := by
          rw [hkeys]
          simp
        rw [List.getLast?_map, Option.map_eq_some_iff] at hend
        obtain ⟨s, hs, hsk⟩ := hend
        exact habove s hs last hsk
      rw [List.pairwise_append] at hpairwise
      rcases List.mem_append.mp ha with ha | ha
      · exact R.trans (hpairwise.2.2 a ha last (by simp)) hlast
      · obtain rfl := List.mem_singleton.mp ha
        exact hlast
  quiet := by
    rw [List.forall_mem_append, List.forall_mem_singleton]
    exact ⟨h.quiet, by simp⟩
  ends := by
    rw [List.forall_mem_append, List.forall_mem_singleton]
    exact ⟨h.ends, by simp⟩

end Rule

end ToolBatching
