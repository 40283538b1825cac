import ToolBatching.Proofs.Clearance.Occupancy
import ToolBatching.Proofs.Clearance.TipRoom
import ToolBatching.Proofs.Clearance.Verdicts
import ToolBatching.Proofs.Scheduling.Deferral
import ToolBatching.Proofs.Scheduling.UnitLayers
import ToolBatching.Proofs.Writing.Descents
import ToolBatching.Proofs.Writing.UnknownSegments

namespace ToolBatching

open Number

namespace Program

variable {lines : List Command} {p : Program}

theorem Read.eq_anchor (h : Read lines p) {u : PrintUnit} (hu : u ∈ p.units) {id : SegmentId}
    (hid : id ∈ u.members) (hprints : p.prints id = true) : id = u.anchor := by
  obtain ⟨lead, a, tail, hspans, hmem⟩ := h.exists_spans hu
  rw [hspans.members] at hid
  obtain ⟨s, hs, rfl⟩ := List.mem_map.mp hid
  rw [h.prints_id (hmem s hs), decide_eq_true_eq] at hprints
  rw [hspans.eq_anchor hs hprints, hspans.anchor]

theorem Read.members_pairwise_clear (h : Read lines p) (c : Clearance) (cap : Nat) :
    (c.schedule cap p.units).members.Pairwise fun e l =>
      p.prints e = true → p.prints l = true → l < e → c.tooClose e l = false := by
  obtain ⟨groups, hgroups, hbatches⟩ := h.exists_groups c cap
  rw [Plan.members, hbatches, members_ofUnits, List.pairwise_flatMap]
  have hunits : ∀ u ∈ groups.flatten, u ∈ p.units := fun u hu => hgroups.perm.mem_iff.mp hu
  constructor
  · intro u hu
    have hascending := h.members_pairwise (List.singleton_sublist.mpr (hunits u hu))
    rw [List.flatMap_singleton] at hascending
    exact hascending.imp fun hlt _ _ hback => absurd hback (SegmentId.not_lt_of_lt hlt)
  · refine (hgroups.ahead h.anchors_pairwise).imp_of_mem fun {u v} hu hv hahead e he l hl => ?_
    intro hprints hprints' hlt
    obtain rfl := h.eq_anchor (hunits u hu) he hprints
    obtain rfl := h.eq_anchor (hunits v hv) hl hprints'
    exact (hahead hlt).2

theorem planned_pairwise_clear (text : String) (c : Clearance) (cap : Nat) :
    let p := ofText text
    ((c.schedule cap p.units).members.filterMap p.segment?).Pairwise fun s t =>
      s.printEnds ≠ [] → t.printEnds ≠ [] → t.id < s.id → c.tooClose s.id t.id = false := by
  intro p
  have h : Read (readCommands text) p := read_ofText text
  have hprints {id : SegmentId} {s : Segment} (hs : p.segment? id = some s)
      (hends : s.printEnds ≠ []) : p.prints id = true := by
    have hmem := mem_segments_of_segment? hs
    have hcount : s.printEnds.length = s.printMoves :=
      (s.entry.length_printEnds s.commands).trans (owned_of_mem_ofLines hmem).printMoves.symm
    rw [← h.id_of_segment? hs, h.prints_id hmem, decide_eq_true_eq, ← hcount]
    exact List.length_pos_iff.mpr hends
  rw [List.pairwise_filterMap]
  refine (h.members_pairwise_clear c cap).imp fun {e l} hclear s hs t ht hends hends' hlt => ?_
  rw [h.id_of_segment? hs, h.id_of_segment? ht] at hlt ⊢
  exact hclear (hprints hs hends) (hprints ht hends') hlt

end Program

/-- A point that is a few places off an end of a segment is farther than the tip of the nozzle from
one that is a few places off an end of a segment that keeps clear of it. -/
theorem Settings.Roomy.not_reaches {settings : Settings} (h : settings.Roomy)
    (hvalid : settings.validate = .ok ()) {p : Program} {s t : Segment}
    (hs : p.segment? s.id = some s) (ht : p.segment? t.id = some t)
    (hclear : (Clearance.ofProgram p settings.nozzle settings.clearance).tooClose s.id t.id = false)
    {a b high low landing : Point} (ha : a ∈ s.printEnds) (hb : b ∈ t.printEnds)
    (hainside : a.Inside) (hbinside : b.Inside) (hhigh : high.Near a) (hlow : low.Near landing)
    (hlanding : landing.Near b) : ¬ Point.Reaches settings.nozzle.tipRadius high low := by
  obtain ⟨hfinite, hlt⟩ := Clearance.lt_of_not_tooClose
    (ClearanceSettings.coarse_of_validate (validate_clearance hvalid)) hs ht hclear ha hb hainside
    hbinside
  intro hreaches
  obtain ⟨hnonneg, hclose⟩ := hreaches h.tip.isFinite
  have hapart := hlt (value settings.nozzle.tipRadius + 9 / 2000) (by linarith)
    (h.le_safetyRadius hvalid p hfinite)
  have haxis {u v u' v' w : Float} (hu : Within (1 / 1000) u' u) (hw : Within (1 / 1000) v' w)
      (hv : Within (1 / 1000) w v) :
      (value u - value v) ^ 2 ≤ (|value u' - value v'| + 3 / 1000) ^ 2 := by
    have hle : |value u - value v| ≤ |value u' - value v'| + 3 / 1000 := by
      have hu := abs_le.mp hu.2.2
      have hw := abs_le.mp hw.2.2
      have hv := abs_le.mp hv.2.2
      rw [abs_le]
      constructor <;> linarith [neg_abs_le (value u' - value v'), le_abs_self (value u' - value v')]
    rw [← sq_abs (value u - value v)]
    exact pow_le_pow_left₀ (abs_nonneg _) hle 2
  have hgrown := add_sq_add_add_sq_le (u := |value high.x - value low.x|)
    (v := |value high.y - value low.y|) (k := 3 / 2) (e := 3 / 1000) hnonneg (by norm_num)
    (by norm_num) (by norm_num) (by rwa [sq_abs, sq_abs])
  have hx := haxis hhigh.x hlow.x hlanding.x
  have hy := haxis hhigh.y hlow.y hlanding.y
  norm_num at hapart hgrown hx hy
  linarith

namespace Program

/-- A place of the body of a schedule where the nozzle comes down behind a sideways move to a tower,
or where a run is entered. There it stays clear of the print moves in front that the text has
behind a segment of the run, if the run is entered at an end of a print move of that segment and
the other one ends where it does in the text. -/
def LandsClear (p : Program) (settings : Settings) (front : List Command) (c : Command) : Prop :=
  let printed := (p.schedule settings).members.filterMap p.segment?
  let low := p.preambleState.run (front ++ [c])
  (∃ tool, front.getLast? = some (Travel.lateral settings.hop
    (settings.primeTower.position tool).1 (settings.primeTower.position tool).2)) ∨
  ∃ done first rest, settings.EntersRun printed front low done first rest ∧
    ∀ before d, before ++ [d] <+: front → d.line.isSome = true →
      ∃ s ∈ done, d ∈ s.commands ∧ ∀ t ∈ first :: rest, t.id < s.id →
        let high := p.preambleState.run (before ++ [d])
        let landing := Writer.landingPoint first ((first :: rest).flatMap Segment.commands)
        (∃ a ∈ s.printEnds, high.point.Near a) → (∃ b ∈ t.printEnds, landing.Near b) →
          ¬ Point.Reaches settings.nozzle.tipRadius high.point low.point

/-- With hops that work and a margin of two cells the nozzle clears what is printed ahead wherever
it comes down, as long as no height overflows when the height of a hop is added. -/
theorem descents_clear_deferred (text : String) {settings : Settings}
    (hvalid : settings.validate = .ok ()) (hworks : settings.hop.Works)
    (hspeed : settings.hop.travelFeedrate.isFinite = true) (hroomy : settings.Roomy)
    (hlayers : ∀ l ∈ (ofText text).layers, settings.hop.Fits l.z)
    (hentries : ∀ s ∈ (ofText text).segments, settings.hop.Fits s.entry.z)
    (hinside : ∀ s ∈ (ofText text).segments, ∀ a ∈ s.printEnds, a.Inside) :
    let p := ofText text
    ∃ body, p.synthesize (p.schedule settings) settings = .ok body ∧
      (p.preambleState.Fits settings.hop body.commands →
        ∀ front c, front ++ [c] <+: body.commands → (p.preambleState.run front).Descends c →
          p.LandsClear settings front c) := by
  intro p
  have h : Read (readCommands text) p := read_ofText text
  obtain ⟨body, hbody, hlands⟩ := exists_comesDown text hworks hlayers hentries
  refine ⟨body, hbody, fun hfits front c hprefix hdescends => ?_⟩
  refine (hlands hfits front c hprefix hdescends).imp_right ?_
  rintro ⟨done, first, rest, henters⟩
  refine ⟨done, first, rest, henters, fun before d hbefore hline => ?_⟩
  have hkept : d ∈ done.flatMap Segment.kept := by
    rw [← henters.lines]
    exact List.mem_filter.mpr ⟨hbefore.subset (by simp), hline⟩
  obtain ⟨s, hs, hd⟩ := List.mem_flatMap.mp hkept
  refine ⟨s, hs, (List.mem_filter.mp hd).1, ?_⟩
  rintro t ht hlt high landing ⟨a, ha, hhigh⟩ ⟨b, hb, hlanding⟩
  have hfound {u : Segment} (hu : u ∈ done ++ first :: rest) : p.segment? u.id = some u := by
    obtain ⟨id, -, hid⟩ := List.mem_filterMap.mp (henters.segments.subset hu)
    rw [h.id_of_segment? hid]
    exact hid
  have hs' := hfound (List.mem_append_left _ hs)
  have ht' := hfound (List.mem_append_right _ ht)
  have hclear := (planned_pairwise_clear text
    (Clearance.ofProgram p settings.nozzle settings.clearance) settings.maxBatchLayers).sublist
    henters.segments.sublist
  rw [List.pairwise_append] at hclear
  exact hroomy.not_reaches hvalid hs' ht' (hclear.2.2 s hs t ht (List.ne_nil_of_mem ha)
    (List.ne_nil_of_mem hb) hlt) ha hb (hinside s (mem_segments_of_segment? hs') a ha)
    (hinside t (mem_segments_of_segment? ht') b hb) hhigh
    (henters.lands hspeed ⟨hlanding.x.1, hlanding.y.1⟩) hlanding

/-- The second tool draws a closed outline, after the first tool has printed the layer above. -/
theorem descents_clear_deferred_closed_outline :
    let text := "; layer num/total_layer_count: 1/2\nT0\nG1 Z0.2 E1\nT1\nG1 X50\nG1 X55 E2\n" ++
      "G1 X50 E3\n; layer num/total_layer_count: 2/2\nT0\nG1 X0 Z0.4 E4\n"
    let p := ofText text
    let settings : Settings :=
      { toolChange := { flavor := .generic }, primeTower := { enabled := false } }
    ∃ body, p.synthesize (p.schedule settings) settings = .ok body ∧
      ∃ front c, front ++ [c] <+: body.commands ∧ (p.preambleState.run front).Descends c ∧
        (∃ before d, before ++ [d] <+: front ∧ (p.preambleState.run before).prints d = true ∧
          value (p.preambleState.run (front ++ [c])).z <
            value (p.preambleState.run (before ++ [d])).z) ∧
        p.LandsClear settings front c := by
  intro text p settings
  have hsettings : settings.validate = .ok () ∧ settings.hop.height.isFinite = true ∧
      0 ≤ value settings.hop.height ∧ settings.hop.zFeedrate.isFinite = true ∧
      settings.hop.travelFeedrate.isFinite = true ∧ AtMost 20 settings.nozzle.tipRadius ∧
      0 ≤ settings.nozzle.cone.slope ∧
      2 * value settings.clearance.cellSize ≤ value settings.clearance.safetyMargin := by
    decide +kernel
  obtain ⟨hvalid, hheight, hnonneg, hlift, hspeed, htip, hslope, hmargin⟩ := hsettings
  have hprogram : (∀ l ∈ p.layers, settings.hop.Fits l.z) ∧
      (∀ s ∈ p.segments, settings.hop.Fits s.entry.z) ∧
      (∀ s ∈ p.segments, ∀ a ∈ s.printEnds, a.Inside) ∧
      ∀ body ∈ (p.synthesize (p.schedule settings) settings).toOption,
        p.preambleState.Fits settings.hop body.commands ∧
        ∃ c ∈ (body.commands.drop 20).head?,
          (c.line = none ∧ c.inToolChange = false ∧ c.isMotion = true ∧ c.x = none ∧ c.y = none) ∧
          value ((p.preambleState.run (body.commands.take 20)).step c).z + 1 / 500 <
            value (p.preambleState.run (body.commands.take 20)).z ∧
          ∃ d ∈ ((body.commands.take 20).drop 12).head?,
            (p.preambleState.run ((body.commands.take 20).take 12)).prints d = true ∧
            value (p.preambleState.run (body.commands.take 20 ++ [c])).z <
              value (p.preambleState.run ((body.commands.take 20).take 12 ++ [d])).z := by
    decide +kernel
  obtain ⟨hlayers, hentries, hinside, hreplay⟩ := hprogram
  obtain ⟨body, hbody, hlands⟩ := descents_clear_deferred text hvalid
    ⟨rfl, hheight, hnonneg, hlift⟩ hspeed ⟨htip, hslope, hmargin⟩ hlayers hentries hinside
  obtain ⟨hfits, c, hc, ⟨hline, houtside, hmotion, hx, hy⟩, hlowers, d, hd, hprints, hbelow⟩ :=
    hreplay body (by rw [hbody]; rfl)
  have hprefix := Machine.concat_prefix_of_drop hc
  have hdescends : (p.preambleState.run (body.commands.take 20)).Descends c :=
    ⟨hline, houtside, hmotion, hx, hy, hlowers⟩
  exact ⟨body, hbody, _, c, hprefix, hdescends,
    ⟨_, d, Machine.concat_prefix_of_drop hd, hprints, hbelow⟩,
    hlands hfits _ c hprefix hdescends⟩

end Program

/-- A replay lowers the nozzle by a move that is not in the source and has no X or Y word,
and within a radius of where it comes down something has been printed above. -/
def Machine.Strikes (m : Machine) (radius : Float) (cs : List Command) : Prop :=
  ∃ front c, front ++ [c] <+: cs ∧
    (c.line = none ∧ c.inToolChange = false ∧ c.isMotion = true ∧ c.x = none ∧ c.y = none) ∧
    (m.run (front ++ [c])).z < (m.run front).z ∧
    ∃ before d, before ++ [d] <+: front ∧ (m.run before).prints d = true ∧
      let low := m.run (front ++ [c])
      let high := m.run (before ++ [d])
      value low.z + 1 / 10 ^ 6 < value high.z ∧
        (value high.x - value low.x) ^ 2 + (value high.y - value low.y) ^ 2 < value radius ^ 2

namespace Program

/-- A run is entered where its first deposit starts, and the clearance of a deferred run is
checked where its deposits end: over a start that is no end something is printed ahead. -/
theorem descents_strike_prints :
    let text := "; layer num/total_layer_count: 1/2\nT0\nG1 Z0.2 E1\nT1\nG1 X50 E2\n" ++
      "; layer num/total_layer_count: 2/2\nT0\nG1 X0 Z0.4 E3\n"
    let p := ofText text
    let settings : Settings :=
      { toolChange := { flavor := .generic }, primeTower := { enabled := false } }
    settings.validate = .ok () ∧ settings.hop.enabled = true ∧
      (∀ c ∈ readCommands text, ∀ a ∈ [Axis.x, .y, .z, .e], ∀ v ∈ c.along a,
        v.isFinite = true) ∧
      ∃ body, p.synthesize (p.schedule settings) settings = .ok body ∧
        p.preambleState.Strikes settings.nozzle.tipRadius body.commands := by
  intro text p settings
  have hbody : (∀ c ∈ readCommands text, ∀ a ∈ [Axis.x, .y, .z, .e], ∀ v ∈ c.along a,
        v.isFinite = true) ∧
      ∃ body ∈ (p.synthesize (p.schedule settings) settings).toOption,
        ∃ c ∈ (body.commands.drop 20).head?,
          (c.line = none ∧ c.inToolChange = false ∧ c.isMotion = true ∧ c.x = none ∧
            c.y = none) ∧
          (p.preambleState.run (body.commands.take 20 ++ [c])).z <
            (p.preambleState.run (body.commands.take 20)).z ∧
          ∃ d ∈ ((body.commands.take 20).drop 12).head?,
            (p.preambleState.run ((body.commands.take 20).take 12)).prints d = true ∧
            let low := p.preambleState.run (body.commands.take 20 ++ [c])
            let high := p.preambleState.run ((body.commands.take 20).take 12 ++ [d])
            value low.z + 1 / 10 ^ 6 < value high.z ∧
              (value high.x - value low.x) ^ 2 + (value high.y - value low.y) ^ 2 <
                value settings.nozzle.tipRadius ^ 2 := by
    decide +kernel
  obtain ⟨hfinite, body, hbody, c, hc, hwritten, hlowers, d, hd, hstrikes⟩ := hbody
  exact ⟨by decide +kernel, rfl, hfinite, body, eq_ok_of_mem_toOption hbody, _, c,
    Machine.concat_prefix_of_drop hc, hwritten, hlowers, _, d, Machine.concat_prefix_of_drop hd,
    hstrikes⟩

end Program

end ToolBatching
