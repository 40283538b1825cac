import ToolBatching.Command.Basic
import ToolBatching.Proofs.Number.Arithmetic

namespace ToolBatching

namespace Number

open Float.Model Float.Model.UnpackedFloat

theorem isNaN_pack_finite (s : Sign) (m : Nat) (e : ℤ) (hm : 0 < m) :
    (Float.ofModel (Float.Model.pack (.finite s m e hm))).isNaN = false := by
  have hbits : (Float.ofModel (Float.Model.pack (.finite s m e hm))).toModel.toBits.toBitVec =
      UnpackedFloat.pack Format.binary64 (.finite s m e hm) := rfl
  by_cases hbias : 2 ^ 11 ≤ (e + 1023 + 52).toNat + 1
  · have hpack : UnpackedFloat.pack Format.binary64 (.finite s m e hm) =
        UnpackedFloat.pack Format.binary64 (.infinity s) := by
      unfold UnpackedFloat.pack
      exact if_pos hbias
    change (UnpackedFloat.unpack Format.binary64
      (UnpackedFloat.pack Format.binary64 (.finite s m e hm))).isNaN = false
    rw [hpack]
    change (Float.Model.pack (.infinity s)).unpack.isNaN = false
    rw [unpack_pack_infinity]
    rfl
  · have hpack : UnpackedFloat.pack Format.binary64 (.finite s m e hm) =
        if m.log2 + 1 = 53 then
          packComponents Format.binary64 s (BitVec.ofNat 11 (e + 1023 + 52).toNat)
            (BitVec.ofNat 52 m)
        else packComponents Format.binary64 s 0#11 (BitVec.ofNat 52 m) := by
      unfold UnpackedFloat.pack
      exact if_neg hbias
    generalize Float.ofModel (Float.Model.pack (.finite s m e hm)) = x at hbits ⊢
    rw [hpack] at hbits
    apply isNaN_of_isFinite
    rw [isFinite_iff]
    split at hbits
    · obtain ⟨-, hfield, -⟩ := fields_packComponents s _ _ hbits
      rw [hfield, BitVec.toNat_ofNat]
      omega
    · obtain ⟨-, hfield, -⟩ := fields_packComponents s _ _ hbits
      rw [hfield]
      decide

theorem isNaN_pack {u : UnpackedFloat} (h : u.isNaN = false) :
    (Float.ofModel (Float.Model.pack u)).isNaN = false := by
  cases u with
  | infinity s =>
      change (Float.Model.pack (.infinity s)).unpack.isNaN = false
      rw [unpack_pack_infinity]
      rfl
  | notANumber => exact absurd h (by simp [UnpackedFloat.isNaN])
  | zero s =>
      cases s <;> rfl
  | finite s m e hm => exact isNaN_pack_finite s m e hm

theorem isNaN_roundWithAccuracy (s : Sign) (m : Nat) (e : ℤ) (acc : Accuracy) :
    (roundWithAccuracy Format.binary64 s m e acc).isNaN = false := by
  unfold roundWithAccuracy
  simp only
  split <;> rfl

theorem isNaN_mul_of_finite {u v : UnpackedFloat} (hu : Canonical u) (hv : Canonical v) :
    (UnpackedFloat.mul Format.binary64 u v).isNaN = false := by
  rcases hu.cases with ⟨s, rfl⟩ | ⟨s, m, e, hm, rfl⟩
  · rcases hv.cases with ⟨s', rfl⟩ | ⟨s', m', e', hm', rfl⟩ <;> rfl
  · rcases hv.cases with ⟨s', rfl⟩ | ⟨s', m', e', hm', rfl⟩
    · rfl
    · exact isNaN_roundWithAccuracy _ _ _ _
theorem isNaN_div_of_pos {u v : UnpackedFloat} (hu : Canonical u) (hv : Canonical v)
    (hpos : 0 < exactValue v) : (UnpackedFloat.div Format.binary64 u v).isNaN = false := by
  rcases hv.cases with ⟨s', rfl⟩ | ⟨s', m', e', hm', rfl⟩
  · exact absurd hpos (lt_irrefl 0)
  · rcases hu.cases with ⟨s, rfl⟩ | ⟨s, m, e, hm, rfl⟩
    · rfl
    · exact isNaN_roundWithAccuracy _ _ _ _

theorem isNaN_ofScientific (m : Nat) (negative : Bool) (e : Nat) :
    (Float.ofScientific m negative e).isNaN = false := by
  by_cases hsmall : m < 2 ^ 53 ∧ e ≤ 22
  · have hindex : e < Float.exactlyRepresentablePowersOfTen.size := by
      change e < 23
      omega
    have hfast : Float.ofScientific m negative e =
        if negative then m.toUInt64.toFloat / Float.exactlyRepresentablePowersOfTen[e]
        else m.toUInt64.toFloat * Float.exactlyRepresentablePowersOfTen[e] := by
      unfold Float.ofScientific
      rw [dif_pos hsmall]
    obtain ⟨hm, -⟩ := value_toFloat hsmall.1
    obtain ⟨hpower, hexact⟩ := powersOfTen_exact ⟨e, by omega⟩
    obtain ⟨hmc, -⟩ := canonical_unpack hm
    obtain ⟨hpc, hvalue⟩ := canonical_unpack hpower
    have hpos : 0 < value Float.exactlyRepresentablePowersOfTen[e] := by
      unfold value
      apply div_pos
      · rw [hexact]
        have hden := denominator_pos Float.exactlyRepresentablePowersOfTen[e]
        positivity
      · exact_mod_cast denominator_pos _
    rw [hfast]
    cases negative with
    | false => exact isNaN_pack (isNaN_mul_of_finite hmc hpc)
    | true => exact isNaN_pack (isNaN_div_of_pos hmc hpc (hvalue ▸ hpos))
  · have hslow : Float.ofScientific m negative e =
        .ofModel (Float.Model.pack (UnpackedFloat.ofScientific Format.binary64 m
          (if negative then Int.negOfNat e else Int.ofNat e))) := by
      unfold Float.ofScientific
      rw [dif_neg hsmall]
      rfl
    rw [hslow]
    apply isNaN_pack
    generalize (if negative then Int.negOfNat e else Int.ofNat e) = power
    unfold UnpackedFloat.ofScientific
    split
    · rfl
    · split
      · rfl
      · split
        · rfl
        · split
          · exact isNaN_roundWithAccuracy _ _ _ _
          · exact isNaN_roundWithAccuracy _ _ _ _

theorem isNaN_neg {x : Float} (h : x.isNaN = false) : (-x).isNaN = false := by
  apply isNaN_pack
  change x.toModel.unpack.isNaN = false at h
  generalize x.toModel.unpack = u at h
  cases u with
  | notANumber => exact absurd h (by simp [UnpackedFloat.isNaN])
  | infinity s => rfl
  | zero s => rfl
  | finite s m e hm => rfl

theorem isNaN_readPlain {text : List Char} {x : Float} (h : readPlain text = some x) :
    x.isNaN = false := by
  unfold readPlain at h
  generalize splitSign text = parts at h
  obtain ⟨negative, rest⟩ := parts
  obtain ⟨d, -, rfl⟩ := Option.map_eq_some_iff.mp h
  have hnumber : d.toFloat.isNaN = false := isNaN_ofScientific _ _ _
  cases negative with
  | false => exact hnumber
  | true => exact isNaN_neg hnumber

end Number

namespace Command

theorem isNaN_addressed {letter : Char} {words : List Word} {v : Float}
    (h : addressed letter words = some v) : v.isNaN = false := by
  obtain ⟨w, -, hw⟩ := List.exists_of_findSome?_eq_some h
  split at hw
  · exact Number.isNaN_readPlain hw
  · exact absurd hw (by simp)

end Command

end ToolBatching
