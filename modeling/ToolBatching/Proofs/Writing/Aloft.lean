import ToolBatching.Proofs.Reading.PrintMoves
import ToolBatching.Proofs.Writing.Entering

/-!
Moving sideways above the print. The ceiling of a writer bounds the heights of all print
moves that it has written, and a travel rises to it before it moves sideways.
`Writer.Guarded` is kept by every command that does not carry the nozzle sideways, and by
one that does while the writer is aloft.
-/

namespace ToolBatching

open Number

/-- Whether a command may lead X or Y somewhere. -/
def Command.shifts (c : Command) : Bool :=
  (c.target .x).isSome || (c.target .y).isSome

/-- Whether a height is finite and stays so when the height of a hop is added. -/
structure HopSettings.Fits (s : HopSettings) (z : Float) : Prop where
  height : z.isFinite = true
  raised : (z + s.height).isFinite = true

instance (s : HopSettings) (z : Float) : Decidable (s.Fits z) :=
  decidable_of_iff (z.isFinite = true ∧ (z + s.height).isFinite = true)
    ⟨fun h => ⟨h.1, h.2⟩, fun h => ⟨h.height, h.raised⟩⟩

/-- The commands that carry the nozzle between the places of a body: those of its travels
and of its tool-change blocks. -/
inductive Settings.Carries (s : Settings) : Command → Prop
  | travel {t : Travel} {m : Machine} {c : Command} (h : c ∈ (t.plan s.hop m).commands) :
      s.Carries c
  | block {source : Option Tool} {tool : Tool} {ceiling : Float} {c : Command}
      (h : c ∈ s.toolChange.block source tool ceiling) : s.Carries c

/-- A command that carries the nozzle sideways. -/
structure Settings.Crosses (s : Settings) (c : Command) : Prop where
  carries : s.Carries c
  shifts : c.shifts = true

theorem Settings.Carries.line {s : Settings} {c : Command} (h : s.Carries c) : c.line = none := by
  cases h with
  | travel h => exact (Travel.quiet_plan _ _ _ c h).line
  | block h => exact s.toolChange.flavor.line_of_mem_render _ c h

namespace Machine

variable {m : Machine} {c : Command} {cs : List Command} {z : Float}

/-- A print move among commands ends at a height. -/
def Deposits (m : Machine) (cs : List Command) (z : Float) : Prop :=
  ∃ front c, front ++ [c] <+: cs ∧ (m.run front).prints c = true ∧ (m.run (front ++ [c])).z = z

/-- Every height that a replay reaches fits below a hop. -/
def Fits (m : Machine) (s : HopSettings) (cs : List Command) : Prop :=
  ∀ front, front <+: cs → s.Fits (m.run front).z

/-- A replay carries the nozzle sideways in absolute coordinates only, and not more than a
thousandth below what has been printed. -/
def CrossesAbove (m : Machine) (s : Settings) (cs : List Command) : Prop :=
  ∀ front c, front ++ [c] <+: cs → s.Crosses c → (m.run front).positioning = .absolute ∧
    ∀ z, m.Deposits front z → value z - 1 / 1000 ≤ value (m.run front).z

theorem concat_prefix_of_drop {n : Nat} (h : (cs.drop n).head? = some c) :
    cs.take n ++ [c] <+: cs := by
  obtain ⟨back, hback⟩ := List.head?_eq_some_iff.mp h
  refine ⟨back, ?_⟩
  rw [List.append_assoc, List.singleton_append, ← hback, List.take_append_drop]

theorem prefix_concat_cases {front : List Command} {d : Command}
    (h : front ++ [d] <+: cs ++ [c]) : (front = cs ∧ d = c) ∨ front ++ [d] <+: cs := by
  rcases List.prefix_concat_iff.mp h with heq | hprefix
  · obtain ⟨hfront, hlast⟩ := List.append_inj' heq rfl
    exact Or.inl ⟨hfront, (List.cons.inj hlast).1⟩
  · exact Or.inr hprefix

theorem Deposits.concat_cases (h : m.Deposits (cs ++ [c]) z) :
    m.Deposits cs z ∨ ((m.run cs).prints c = true ∧ (m.run (cs ++ [c])).z = z) := by
  obtain ⟨front, d, hprefix, hprints, hz⟩ := h
  rcases prefix_concat_cases hprefix with ⟨rfl, rfl⟩ | hprefix
  · exact Or.inr ⟨hprints, hz⟩
  · exact Or.inl ⟨front, d, hprefix, hprints, hz⟩

theorem fits_nil_iff {s : HopSettings} : m.Fits s [] ↔ s.Fits m.z := by
  constructor
  · intro h
    exact h [] List.prefix_rfl
  · intro h front hfront
    rw [List.prefix_nil.mp hfront]
    exact h

theorem fits_cons_iff {s : HopSettings} : m.Fits s (c :: cs) ↔ s.Fits m.z ∧ (m.step c).Fits s cs := by
  constructor
  · intro h
    refine ⟨h [] List.nil_prefix, ?_⟩
    intro front hfront
    exact h (c :: front) (List.prefix_cons_inj c |>.mpr hfront)
  · rintro ⟨hfirst, hrest⟩ front hfront
    rcases List.prefix_cons_iff.mp hfront with rfl | ⟨more, rfl, hmore⟩
    · exact hfirst
    · exact hrest more hmore

/-- Whether all heights fit is found by one replay. -/
instance decidableFits (s : HopSettings) : (m : Machine) → (cs : List Command) →
    Decidable (m.Fits s cs)
  | m, [] => decidable_of_iff (s.Fits m.z) fits_nil_iff.symm
  | m, c :: cs =>
      have := decidableFits s (m.step c) cs
      decidable_of_iff (s.Fits m.z ∧ (m.step c).Fits s cs) fits_cons_iff.symm

theorem Fits.of_prefix {s : HopSettings} {more : List Command} (h : m.Fits s (cs ++ more)) :
    m.Fits s cs :=
  fun _ hfront => h _ (hfront.trans (List.prefix_append cs more))

end Machine

namespace Writer

variable {s : Settings} {start : Machine} {w : Writer} {c : Command}

/-- The writer may move sideways: coordinates are read as absolute, and the nozzle is not
more than a thousandth below the ceiling. -/
structure Aloft (w : Writer) : Prop where
  positioning : w.machine.positioning = .absolute
  height : value w.ceiling - 1 / 1000 ≤ value w.machine.z

/-- The ceiling is above all print moves of the body, and the body crosses above them. -/
structure Tops (s : Settings) (start : Machine) (w : Writer) : Prop where
  ceiling : s.hop.Fits w.ceiling
  nonneg : 0 ≤ value w.ceiling
  deposits : ∀ z, start.Deposits w.body.toList z → value z ≤ value w.ceiling
  crossings : start.CrossesAbove s w.body.toList

/-- The body leads to the state of the writer, and its crossings are safe as long as its
heights fit. -/
structure Guarded (s : Settings) (start : Machine) (w : Writer) : Prop where
  machine : w.machine = start.run w.body.toList
  tops : start.Fits s.hop w.body.toList → Tops s start w

theorem toList_body_write (w : Writer) (c : Command) :
    (w.write c).body.toList = w.body.toList ++ [c] := by
  rw [write, Array.toList_push]

theorem machine_write (w : Writer) (c : Command) : (w.write c).machine = w.machine.step c :=
  rfl

theorem ceiling_write (h : w.machine.prints c = false) : (w.write c).ceiling = w.ceiling := by
  simp only [write, h, Bool.false_eq_true, if_false]

/-- The ceiling fits below a hop and is above all print moves of the body. -/
structure Capped (s : HopSettings) (start : Machine) (w : Writer) : Prop where
  ceiling : s.Fits w.ceiling
  nonneg : 0 ≤ value w.ceiling
  deposits : ∀ z, start.Deposits w.body.toList z → value z ≤ value w.ceiling

theorem capped_start {s : HopSettings} (start : Machine) (hheight : s.height.isFinite = true) :
    Capped s start { machine := start } := by
  have hzero : (0 : Float).isFinite = true ∧ value 0 = 0 := by decide +kernel
  have hrounds := rounds_add hzero.1 hheight
  rw [hzero.2, zero_add] at hrounds
  obtain ⟨hsum, -⟩ := hrounds.value (grid_value hheight) (abs_value_add_one_lt hheight)
    (by rw [sub_self, abs_zero]; norm_num)
  refine ⟨⟨hzero.1, hsum⟩, hzero.2.ge, ?_⟩
  rintro z ⟨front, c, hfront, -⟩
  simp at hfront

/-- The ceiling follows the prints and is one of the heights that fit. -/
theorem Capped.write {s : HopSettings} (h : Capped s start w)
    (hmachine : w.machine = start.run w.body.toList)
    (hfits : start.Fits s (w.write c).body.toList) : Capped s start (w.write c) := by
  rw [toList_body_write] at hfits
  have hnext : s.Fits (w.machine.step c).z := by
    have hlast := hfits _ List.prefix_rfl
    rwa [Machine.run_append, ← hmachine] at hlast
  obtain ⟨-, hvalue⟩ := value_greater h.ceiling.height hnext.height
  have hceiling : s.Fits (w.write c).ceiling ∧ value w.ceiling ≤ value (w.write c).ceiling ∧
      (w.machine.prints c = true →
        value (w.machine.step c).z ≤ value (w.write c).ceiling) := by
    unfold Writer.write
    simp only
    cases hprints : w.machine.prints c with
    | false => exact ⟨h.ceiling, le_refl _, by simp⟩
    | true =>
        refine ⟨?_, ?_, ?_⟩
        · simp only [if_true, greater]
          split
          · exact h.ceiling
          · exact hnext
        · simp only [if_true, hvalue, le_max_left]
        · simp only [if_true, hvalue, le_max_right, implies_true]
  obtain ⟨hceil, hold, hnew⟩ := hceiling
  refine ⟨hceil, h.nonneg.trans hold, ?_⟩
  intro z hz
  rw [toList_body_write] at hz
  rcases hz.concat_cases with hz | ⟨hprints, rfl⟩
  · exact (h.deposits z hz).trans hold
  · rw [← hmachine] at hprints
    rw [Machine.run_append, ← hmachine]
    exact hnew hprints

theorem Tops.capped (h : Tops s start w) : Capped s.hop start w :=
  ⟨h.ceiling, h.nonneg, h.deposits⟩

theorem guarded_start (start : Machine) (hheight : s.hop.height.isFinite = true) :
    Guarded s start { machine := start } where
  machine := rfl
  tops _ := by
    obtain ⟨hceil, hnonneg, hdeposits⟩ := capped_start start hheight
    refine ⟨hceil, hnonneg, hdeposits, ?_⟩
    rintro front c hprefix
    simp at hprefix

namespace Guarded

theorem of_eq (h : Guarded s start w) {next : Writer} (hbody : next.body = w.body)
    (hmachine : next.machine = w.machine) (hceiling : next.ceiling = w.ceiling) :
    Guarded s start next where
  machine := by rw [hbody, hmachine, h.machine]
  tops hfits := by
    rw [hbody] at hfits
    obtain ⟨hceil, hnonneg, hdeposits, hcrossings⟩ := h.tops hfits
    exact ⟨hceiling ▸ hceil, hceiling ▸ hnonneg, by rwa [hbody, hceiling], by rwa [hbody]⟩

theorem fits (h : Guarded s start w) (hfits : start.Fits s.hop w.body.toList) :
    s.hop.Fits w.machine.z := by
  rw [h.machine]
  exact hfits _ List.prefix_rfl

theorem write (h : Guarded s start w)
    (hc : start.Fits s.hop w.body.toList → Tops s start w → s.Crosses c → w.Aloft) :
    Guarded s start (w.write c) where
  machine := by
    rw [toList_body_write, Machine.run_append, ← h.machine]
    rfl
  tops hfits := by
    have hfront : start.Fits s.hop w.body.toList := by
      rw [toList_body_write] at hfits
      exact hfits.of_prefix
    have htops := h.tops hfront
    obtain ⟨hceil, hnonneg, hdeposits⟩ := htops.capped.write h.machine hfits
    refine ⟨hceil, hnonneg, hdeposits, ?_⟩
    intro front d hprefix hcrosses
    rw [toList_body_write] at hprefix
    rcases Machine.prefix_concat_cases hprefix with ⟨rfl, rfl⟩ | hprefix
    · obtain ⟨hpositioning, hheight⟩ := hc hfront htops hcrosses
      rw [← h.machine]
      refine ⟨hpositioning, ?_⟩
      intro z hz
      linarith [htops.deposits z hz]
    · exact htops.crossings front d hprefix hcrosses

theorem write_idle (h : Guarded s start w) (hc : ¬ s.Crosses c) : Guarded s start (w.write c) :=
  h.write fun _ _ hcrosses => absurd hcrosses hc

theorem writeAll_idle (h : Guarded s start w) {cs : List Command}
    (hcs : ∀ c ∈ cs, ¬ s.Crosses c) : Guarded s start (w.writeAll cs) := by
  unfold writeAll
  induction cs generalizing w with
  | nil => exact h
  | cons c cs ih =>
      obtain ⟨hc, hcs⟩ := List.forall_mem_cons.mp hcs
      exact ih (h.write_idle hc) hcs

end Guarded

end Writer

end ToolBatching
