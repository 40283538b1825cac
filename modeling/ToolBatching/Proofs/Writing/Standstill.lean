import ToolBatching.Proofs.Number.Comparing
import ToolBatching.Proofs.Writing.Corrections
import ToolBatching.Proofs.Writing.Output

namespace ToolBatching

namespace Number

open Float.Model

variable {x : Float}

theorem isNaN_abs (h : x.isNaN = true) : x.abs.isNaN = true := by
  change x.toModel.unpack.isNaN = true at h
  change (Float.Model.pack x.toModel.unpack.abs).unpack.isNaN = true
  cases hu : x.toModel.unpack with
  | notANumber => rfl
  | _ =>
      rw [hu] at h
      exact Bool.noConfusion h

theorem isNaN_sub_self (h : x.isFinite = false) : (x - x).isNaN = true := by
  change x.toModel.unpack.isFinite = false at h
  change (Float.Model.pack (UnpackedFloat.sub Format.binary64 x.toModel.unpack
    x.toModel.unpack)).unpack.isNaN = true
  cases hu : x.toModel.unpack with
  | notANumber => rfl
  | infinity s => cases s <;> rfl
  | _ =>
      rw [hu] at h
      exact Bool.noConfusion h

theorem value_sub_self (h : x.isFinite = true) : (x - x).isFinite = true ∧ value (x - x) = 0 := by
  have hrounds := rounds_sub h h
  rw [sub_self] at hrounds
  have hbound : |(0 : ℚ)| + 0 < 2 ^ 1024 := by rw [abs_zero]; norm_num
  obtain ⟨hfinite, hnearest⟩ := hrounds.value grid_zero hbound (by rw [sub_self, abs_zero, mul_zero])
  have hclose := hnearest.abs_sub_le grid_zero
  rw [sub_self, abs_zero, mul_zero, sub_zero, abs_nonpos_iff] at hclose
  exact ⟨hfinite, hclose⟩

theorem not_lt_abs_sub_self (x : Float) : ¬ tolerance < (x - x).abs := by
  intro hlt
  cases hfinite : x.isFinite with
  | true =>
      have hbound : tolerance.isFinite = true ∧ 0 < value tolerance := by decide +kernel
      obtain ⟨hzero, hvalue⟩ := value_sub_self hfinite
      obtain ⟨habs, hvabs⟩ := value_abs hzero
      rw [lt_iff_value_lt hbound.1 habs, hvabs, hvalue, abs_zero] at hlt
      exact lt_asymm hlt hbound.2
  | false =>
      have hnan := isNaN_abs (isNaN_sub_self hfinite)
      exact absurd ((isNaN_of_lt hlt).2.symm.trans hnan) (by simp)

theorem beq_self (h : x.isNaN = false) : (x == x) = true := by
  change x.toModel.unpack.isNaN = false at h
  have hequal : x.toModel.unpack.compare x.toModel.unpack = some .eq := by
    have hsome := isSome_compare x.toModel.unpack x.toModel.unpack
    have hswap := compare_swap x.toModel.unpack x.toModel.unpack
    rw [h] at hsome
    obtain ⟨order, horder⟩ := Option.isSome_iff_exists.mp hsome
    rw [horder] at hswap ⊢
    cases order
    · exact absurd hswap (by decide)
    · rfl
    · exact absurd hswap (by decide)
  change (x.toModel.unpack.compare x.toModel.unpack == some .eq) = true
  rw [hequal]
  rfl

end Number

namespace Machine

variable {m : Machine}

theorem restoration_self (h : ∀ f ∈ m.feedrate, f.isNaN = false) : m.restoration m = [] := by
  have hposition : m.restorePosition m = [] := by
    unfold restorePosition
    rw [if_neg]
    rw [Bool.and_eq_true, decide_eq_true_eq, decide_eq_true_eq, not_and]
    exact fun _ => Number.not_lt_abs_sub_self m.e
  have hfeedrate : m.restoreFeedrate m = [] := by
    unfold restoreFeedrate
    cases hf : m.feedrate with
    | none => rfl
    | some f => exact if_pos (Number.beq_self (h f hf))
  rw [restoration, restorePositioning, if_pos rfl, restoreExtrusion, if_pos rfl, hposition,
    hfeedrate]
  rfl

theorem feedrate_run_holds {P : Float → Prop} (hm : ∀ f ∈ m.feedrate, P f) {cs : List Command}
    (hcs : ∀ c ∈ cs, ∀ f ∈ c.f, P f) : ∀ f ∈ (m.run cs).feedrate, P f := by
  induction cs generalizing m with
  | nil => exact hm
  | cons c cs ih =>
      obtain ⟨hc, hcs⟩ := List.forall_mem_cons.mp hcs
      refine ih ?_ hcs
      unfold step
      split
      · exact hm
      · split
        · exact hm
        · exact hm
        · exact hm
        · exact hm
        · unfold setPosition
          split <;> exact hm
        · exact hm
        · split
          · intro f hf
            rcases Option.or_eq_some_iff.mp hf with hf | ⟨-, hf⟩
            · exact hc f hf
            · exact hm f hf
          · exact hm

end Machine

namespace Program

theorem isNaN_f_of_mem_readCommands {text : String} {c : Command} (hc : c ∈ readCommands text) :
    ∀ f ∈ c.f, f.isNaN = false := by
  obtain ⟨line, tag, heq⟩ := exists_of_mem_readCommands hc
  intro f hf
  rw [heq] at hf
  exact Command.isNaN_addressed hf

theorem finish_eq_self {text : String} (hlayers : (ofText text).layers = [])
    (hlift : ¬ (ofText text).exit.z < 0 - tolerance) {context : BodyPlan}
    (hcontext : context.program = ofText text) :
    ({ machine := (ofText text).preambleState } : Writer).finish context =
      { machine := (ofText text).preambleState } := by
  have hstate : (ofText text).preambleState = (ofText text).exit := by
    unfold preambleState
    rw [hlayers]
  have hspeed : ∀ f ∈ (ofText text).exit.feedrate, f.isNaN = false := by
    rw [← hstate, (read_ofText text).preambleState]
    refine Machine.feedrate_run_holds (by simp) fun c hc => ?_
    exact isNaN_f_of_mem_readCommands ((read_ofText text).mem_of_mem_preamble hc)
  rw [hstate]
  have hstays : ¬ ({ machine := (ofText text).exit } : Writer).machine.z <
      ({ machine := (ofText text).exit } : Writer).ceiling - tolerance := hlift
  unfold Writer.finish Writer.restore
  simp only [if_neg hstays, hcontext, Machine.restoration_self hspeed]
  rfl

end Program

end ToolBatching
