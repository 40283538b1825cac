import ToolBatching.Proofs.Writing.BlockHeights
import ToolBatching.Proofs.Writing.Restored

/-!
Lines that are read. A line that is no comment is opaque if its code is not made of address
words, and then every replay passes over it. Which characters a word has behind its letter
does not matter to a scan, so a line of a template is read whatever numbers fill its fields.
-/

namespace ToolBatching

open Number

namespace Word

/-- How a scan goes on in front of a text: not at all, or with a letter required or not. -/
def gapBefore (c : Char) : Option Bool → Option Bool
  | none => none
  | some closed =>
      if isNumberChar c then some false
      else if c.isUpper then some true
      else if Text.isAsciiBlank c && closed then some true
      else none

/-- Whether no number waits for its letter. -/
def gap (state : Option (List Char × List Word)) : Option Bool :=
  state.map fun s => s.1.isEmpty

theorem gap_scanStep (c : Char) (state : Option (List Char × List Word)) :
    gap (scanStep c state) = gapBefore c (gap state) := by
  cases state with
  | none => rfl
  | some state =>
      simp only [scanStep, gap, gapBefore, Option.map_some]
      split
      · rfl
      · split
        · rfl
        · split
          · rfl
          · rfl

theorem gap_foldr (text : List Char) (state : Option (List Char × List Word)) :
    gap (text.foldr scanStep state) = text.foldr gapBefore (gap state) := by
  induction text with
  | nil => rfl
  | cons c text ih => rw [List.foldr_cons, gap_scanStep, ih, List.foldr_cons]

theorem isSome_scan_iff (code : List Char) :
    (scan code).isSome = true ↔ code.foldr gapBefore (some true) = some true := by
  have hgap := gap_foldr code (some ([], []))
  rw [show gap (some ([], [])) = some true from rfl] at hgap
  rw [← hgap, scan]
  rcases code.foldr scanStep (some ([], [])) with - | ⟨- | ⟨c, waiting⟩, words⟩
  · simp [gap]
  · simp [gap]
  · simp [gap]

theorem foldr_gapBefore_none (text : List Char) : text.foldr gapBefore none = none := by
  induction text with
  | nil => rfl
  | cons c text ih => rw [List.foldr_cons, ih, gapBefore]

theorem foldr_gapBefore_number {text : List Char} (hne : text ≠ [])
    (h : ∀ c ∈ text, isNumberChar c = true) (state : Option Bool) :
    text.foldr gapBefore state = state.map fun _ => false := by
  cases state with
  | none => exact foldr_gapBefore_none text
  | some closed =>
      obtain ⟨c, rest, rfl⟩ := List.exists_cons_of_ne_nil hne
      obtain ⟨hc, hrest⟩ := List.forall_mem_cons.mp h
      have hsome : ∃ closed', rest.foldr gapBefore (some closed) = some closed' := by
        clear h hne
        induction rest with
        | nil => exact ⟨closed, rfl⟩
        | cons d rest ih =>
            obtain ⟨hd, hrest⟩ := List.forall_mem_cons.mp hrest
            obtain ⟨closed', heq⟩ := ih hrest
            exact ⟨false, by rw [List.foldr_cons, heq, gapBefore, if_pos hd]⟩
      obtain ⟨closed', heq⟩ := hsome
      rw [List.foldr_cons, heq, gapBefore, if_pos hc, Option.map_some]

theorem gapBefore_blank {c : Char} (h : Text.isBlank c = true) (state : Option Bool) :
    gapBefore c state = none ∨ (state = some true ∧ gapBefore c state = some true) := by
  have hnumber : isNumberChar c = false := by
    by_contra hc
    rw [isBlank_of_isNumberChar (eq_true_of_ne_false hc)] at h
    exact absurd h (by simp)
  have hupper : c.isUpper = false := by
    by_contra hc
    rw [isBlank_of_isUpper (eq_true_of_ne_false hc)] at h
    exact absurd h (by simp)
  rcases state with - | - | -
  · exact Or.inl rfl
  · exact Or.inl (by simp [gapBefore, hnumber, hupper])
  · cases hascii : Text.isAsciiBlank c with
    | false => exact Or.inl (by simp [gapBefore, hnumber, hupper, hascii])
    | true => exact Or.inr ⟨rfl, by simp [gapBefore, hnumber, hupper, hascii]⟩

theorem foldr_gapBefore_dropWhile {text : List Char}
    (h : text.foldr gapBefore (some true) = some true) :
    (text.dropWhile Text.isBlank).foldr gapBefore (some true) = some true := by
  induction text with
  | nil => exact h
  | cons c text ih =>
      rw [List.dropWhile_cons]
      split
      · rename_i hc
        apply ih
        rcases gapBefore_blank hc (text.foldr gapBefore (some true)) with hnone | ⟨hrest, -⟩
        · rw [List.foldr_cons, hnone] at h
          exact absurd h (by simp)
        · exact hrest
      · exact h

theorem foldr_gapBefore_dropEndWhile {text : List Char}
    (h : text.foldr gapBefore (some true) = some true) :
    (Text.dropEndWhile Text.isBlank text).foldr gapBefore (some true) = some true := by
  unfold Text.dropEndWhile
  induction text using List.reverseRecOn with
  | nil => exact h
  | append_singleton text c ih =>
      rw [List.reverse_append, List.reverse_singleton, List.singleton_append, List.dropWhile_cons]
      split
      · rename_i hc
        apply ih
        rw [List.foldr_append, List.foldr_cons, List.foldr_nil] at h
        rcases gapBefore_blank hc (some true) with hnone | ⟨-, hsome⟩
        · rw [hnone, foldr_gapBefore_none] at h
          exact absurd h (by simp)
        · rwa [hsome] at h
      · rwa [List.reverse_cons, List.reverse_reverse]

theorem isSome_scan_trim {text : List Char} (h : text.foldr gapBefore (some true) = some true) :
    (scan (Text.trim text)).isSome = true :=
  (isSome_scan_iff _).mpr (foldr_gapBefore_dropEndWhile (foldr_gapBefore_dropWhile h))

theorem scan_cons_ne_nil {c : Char} (hc : Text.isBlank c = false) (code : List Char) :
    scan (c :: code) ≠ some [] := by
  have hascii : Text.isAsciiBlank c = false := by
    by_contra hblank
    rw [Text.isBlank_of_isAsciiBlank (eq_true_of_ne_false hblank)] at hc
    exact absurd hc (by simp)
  unfold scan
  rw [List.foldr_cons]
  rcases code.foldr scanStep (some ([], [])) with - | ⟨waiting, words⟩
  · simp [scanStep]
  · by_cases hnumber : isNumberChar c = true
    · simp [scanStep, hnumber]
    · by_cases hupper : c.isUpper = true
      · simp [scanStep, hnumber, hupper]
      · simp [scanStep, hnumber, hupper, hascii]

end Word

namespace Command

/-- A comment, a blank line, or a line with a mnemonic: every line that is not opaque. -/
def Legible (c : Command) : Prop :=
  c.isCommentOrBlank = true ∨ c.mnemonic ≠ ""

instance (c : Command) : Decidable c.Legible :=
  inferInstanceAs (Decidable (_ ∨ _))

theorem isBlank_of_codeOf {raw : String} {c : Char} {rest : List Char} (h : codeOf raw = c :: rest) :
    Text.isBlank c = false := by
  rw [codeOf, Text.trim] at h
  generalize hfront : (splitComment raw.toList).1.dropWhile Text.isBlank = front at h
  have hprefix := Text.dropEndWhile_prefix Text.isBlank front
  rw [h] at hprefix
  obtain ⟨more, rfl⟩ := hprefix
  have hhead := List.head?_dropWhile_not Text.isBlank (splitComment raw.toList).1
  rw [hfront] at hhead
  simpa using hhead

theorem legible_ofText {raw : String} (h : (Word.scan (codeOf raw)).isSome = true)
    (line : Option Nat) : (ofText line raw).Legible := by
  obtain ⟨words, hwords⟩ := Option.isSome_iff_exists.mp h
  cases words with
  | nil =>
      refine Or.inl ?_
      change (codeOf raw).isEmpty = true
      rw [List.isEmpty_iff]
      by_contra hcode
      obtain ⟨c, rest, heq⟩ := List.exists_cons_of_ne_nil hcode
      rw [heq] at hwords
      exact Word.scan_cons_ne_nil (isBlank_of_codeOf heq) rest hwords
  | cons w words =>
      refine Or.inr ?_
      simp only [ofText, hwords, Option.getD_some, List.head?_cons, Option.map_some, Word.text]
      rw [← String.toList_inj.ne, String.toList_ofList]
      simp

theorem legible_commentLine (text : String) : (commentLine text).Legible := by
  have hcode : (commentLine text).code = [] := code_commentText none text
  refine Or.inl ?_
  rw [isCommentOrBlank, hcode]
  rfl

theorem legible_extruder {e : Float} (h : e.isFinite = true) : (extruder e).Legible := by
  apply legible_ofText
  rw [scan_extruder h]
  rfl

end Command

theorem Move.legible_build {m : Move} (h : m.Finite) (hcomment : m.comment = none) :
    m.build.Legible := by
  refine Or.inr ?_
  rw [mnemonic_build h hcomment]
  decide

/-- The heights of a tool change are finite. -/
structure ChangeValues.Finite (v : ChangeValues) : Prop where
  lift : (v.ceiling + TemplatePiece.liftHeight).isFinite = true
  clearance : (v.ceiling + TemplatePiece.purgeHeight).isFinite = true

theorem ChangeValues.finite_of_ceiling {v : ChangeValues} (h : v.ceiling.isFinite = true) :
    v.Finite where
  lift := isFinite_add h (by decide +kernel) (by decide +kernel)
  clearance := isFinite_add h (by decide +kernel) (by decide +kernel)

namespace TemplatePiece

variable {v : ChangeValues} {piece : TemplatePiece} {line : List TemplatePiece}

/-- How a scan goes on in front of a piece that is a text or a number. -/
def gapBefore : TemplatePiece → Option Bool → Option Bool
  | text s, state => s.toList.foldr Word.gapBefore state
  | _, state => state.map fun _ => false

/-- The pieces in front of the comment of a line. -/
def code : List TemplatePiece → List TemplatePiece
  | [] => []
  | text s :: rest =>
      if ';' ∈ s.toList then [text (String.ofList (s.toList.takeWhile (· != ';')))]
      else text s :: code rest
  | piece :: rest => piece :: code rest

/-- Whether a line of a template is read whatever numbers fill its fields. The old tool may
stand in a comment only, as it need not be a number. -/
def isRead (line : List TemplatePiece) : Bool :=
  decide (source ∉ code line) && (code line).foldr gapBefore (some true) == some true

theorem ne_nil_coordinate (places : Nat) {x : Float} (hx : x.isFinite = true) :
    (coordinate places x).toList ≠ [] := by
  obtain ⟨c, rest, htext, -⟩ := exists_head_placedText places (unitsOf places x)
  rcases coordinate_cases places hx with ⟨heq, -⟩ | ⟨heq, -⟩
  · rw [heq, htext]
    exact List.cons_ne_nil c rest
  · rw [heq]
    exact List.cons_ne_nil _ _

theorem number_render (hv : v.Finite) (hsource : piece ≠ source) (htext : ∀ s, piece ≠ text s) :
    (piece.render v).toList ≠ [] ∧ ∀ c ∈ (piece.render v).toList, Word.isNumberChar c = true := by
  have hdigits (n : Nat) : (toString n).toList ≠ [] ∧
      ∀ c ∈ (toString n).toList, Word.isNumberChar c = true := by
    rw [Marker.toList_toString]
    exact ⟨Marker.digits_ne_nil n, fun c hc => isNumberChar_of_isDigit (isDigit_of_mem_digits hc)⟩
  have hheight {x : Float} (hx : x.isFinite = true) : (coordinate axisPlaces x).toList ≠ [] ∧
      ∀ c ∈ (coordinate axisPlaces x).toList, Word.isNumberChar c = true :=
    ⟨ne_nil_coordinate axisPlaces hx, fun c hc => isNumberChar_of_mem_coordinate hx hc⟩
  cases piece with
  | text s => exact absurd rfl (htext s)
  | tool => exact hdigits v.tool
  | source => exact absurd rfl hsource
  | temperature => exact hdigits v.temperature
  | lift => exact hheight hv.lift
  | clearance => exact hheight hv.clearance

theorem foldr_render (hv : v.Finite) (hsource : source ∉ line) (state : Option Bool) :
    (String.join (line.map (render v))).toList.foldr Word.gapBefore state =
      line.foldr gapBefore state := by
  induction line with
  | nil => simp
  | cons piece line ih =>
      rw [List.mem_cons, not_or] at hsource
      rw [List.map_cons, String.join_cons, String.toList_append, List.foldr_append,
        ih hsource.2, List.foldr_cons]
      cases hpiece : piece with
      | text s => rfl
      | _ =>
          obtain ⟨hne, hnumber⟩ :=
            number_render hv (Ne.symm hsource.1) (by rw [hpiece]; simp)
          rw [← hpiece, Word.foldr_gapBefore_number hne hnumber, hpiece]
          rfl

/-- The code of a line is that of its pieces in front of the comment. -/
theorem takeWhile_render (hv : v.Finite) (hsource : source ∉ code line) :
    (String.join (line.map (render v))).toList.takeWhile (· != ';') =
      (String.join ((code line).map (render v))).toList := by
  induction line with
  | nil => simp [code]
  | cons piece line ih =>
      rw [List.map_cons, String.join_cons, String.toList_append]
      cases hpiece : piece with
      | text s =>
          rw [hpiece, code] at hsource
          rw [code, render]
          split
          · rename_i hcomment
            rw [List.takeWhile_append, if_neg, List.map_cons, String.join_cons]
            · simp [render]
            · intro hlength
              have hall := List.takeWhile_eq_self_iff.mp
                ((List.takeWhile_prefix _).eq_of_length hlength)
              exact absurd (hall ';' hcomment) (by simp)
          · rename_i hcomment
            rw [if_neg hcomment, List.mem_cons, not_or] at hsource
            rw [List.takeWhile_append_of_pos, ih hsource.2, List.map_cons, String.join_cons,
              String.toList_append, render]
            intro c hc
            rw [bne_iff_ne]
            rintro rfl
            exact hcomment hc
      | _ =>
          rw [hpiece, code, List.mem_cons, not_or] at hsource
          · obtain ⟨-, hnumber⟩ := number_render hv (Ne.symm hsource.1) (by simp)
            rw [code, List.takeWhile_append_of_pos, ih hsource.2, List.map_cons, String.join_cons,
              String.toList_append]
            · intro c hc
              rw [bne_iff_ne]
              rintro rfl
              exact absurd (hnumber ';' hc) (by decide)
            · simp
          · simp

theorem legible_join (hv : v.Finite) (h : isRead line = true) (n : Option Nat) :
    (Command.ofText n (String.join (line.map (render v)))).Legible := by
  rw [isRead, Bool.and_eq_true, decide_eq_true_eq, beq_iff_eq] at h
  apply Command.legible_ofText
  rw [Command.codeOf, Command.splitComment_fst, takeWhile_render hv h.1]
  apply Word.isSome_scan_trim
  rw [foldr_render hv h.1]
  exact h.2

end TemplatePiece

theorem Flavor.isRead_template (f : Flavor) :
    ∀ line ∈ f.template, TemplatePiece.isRead line = true := by
  cases f <;> decide +kernel

theorem Flavor.legible_of_mem_render {f : Flavor} {v : ChangeValues} (hv : v.Finite) {c : Command}
    (h : c ∈ f.render v) : c.Legible := by
  obtain ⟨n, tag, line, hline, rfl⟩ := exists_of_mem_render h
  have hplain := TemplatePiece.plain_join (f.isPlain_template line hline) v
  have hread := TemplatePiece.legible_join hv (f.isRead_template line hline) (some n)
  rw [Command.parse_of_isLine n hplain.isLine]
  exact hread

end ToolBatching
