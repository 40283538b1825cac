import ToolBatching.Marker
import ToolBatching.Proofs.CommandText
import ToolBatching.Proofs.Number.FixedText

namespace ToolBatching

namespace Text

theorem toNat_toLower {c : Char} (h : c.toLower ≠ c) : 97 ≤ c.toLower.toNat := by
  unfold Char.toLower at h ⊢
  split at h
  · rename_i hupper
    rw [dif_pos hupper]
    have hlow : 65 ≤ c.val.toNat := hupper.1
    have hhigh : c.val.toNat ≤ 90 := hupper.2
    change 97 ≤ (c.val + ('a'.val - 'A'.val)).toNat
    rw [UInt32.toNat_add, show ('a'.val - 'A'.val).toNat = 32 from rfl]
    omega
  · exact absurd rfl h

theorem eq_colon_of_foldsTo {c : Char} (h : foldsTo ':' c = true) : c = ':' := by
  have hlower : c.toLower = ':' := by simpa [foldsTo] using h
  by_contra hne
  have hletter := toNat_toLower (c := c) (by rw [hlower]; exact fun heq => hne heq.symm)
  rw [hlower] at hletter
  exact absurd hletter (by decide)

theorem foldsTo_of_isNumberChar {c : Char} (h : Word.isNumberChar c = true) :
    foldsTo 'l' c = false ∧ foldsTo 's' c = false := by
  obtain ⟨-, hhigh, -⟩ := Word.bounds_of_isNumberChar h
  have hlower : c.toLower = c := by
    unfold Char.toLower
    rw [dif_neg]
    rintro ⟨hupper, -⟩
    have hupper : 65 ≤ c.toNat := hupper
    omega
  have hother (d : Char) (hd : 57 < d.toNat) : c ≠ d := by
    rintro rfl
    omega
  simp [foldsTo, hlower, hother]

theorem dropFolded_eq_none {p : Char} {pattern text : List Char} (hp : p ∈ pattern)
    (h : ∀ c ∈ text, foldsTo p c = false) : dropFolded pattern text = none := by
  induction pattern generalizing text with
  | nil => exact absurd hp (by simp)
  | cons q pattern ih =>
      cases text with
      | nil => rfl
      | cons c text =>
          obtain ⟨hc, htext⟩ := List.forall_mem_cons.mp h
          rw [dropFolded]
          rcases List.mem_cons.mp hp with rfl | hp
          · rw [hc]
            rfl
          · split
            · exact ih hp htext
            · rfl

theorem dropFolded_append {pattern literal : List Char} (h : dropFolded pattern literal = some [])
    (text : List Char) : dropFolded pattern (literal ++ text) = some text := by
  induction pattern generalizing literal with
  | nil =>
      obtain rfl : literal = [] := Option.some.inj h
      rfl
  | cons p pattern ih =>
      cases literal with
      | nil => exact absurd h (by simp [dropFolded])
      | cons c literal =>
          rw [dropFolded] at h
          split at h
          · rename_i hfolds
            rw [List.cons_append, dropFolded, if_pos hfolds]
            exact ih h
          · exact absurd h (by simp)

theorem firstMatch_eq_none {α : Type} {read : List Char → Option α} {text : List Char}
    (h : ∀ part, part <:+ text → read part = none) : firstMatch read text = none := by
  induction text with
  | nil => exact h [] List.suffix_rfl
  | cons c text ih =>
      rw [firstMatch, h _ List.suffix_rfl]
      exact ih fun part hpart => h part (hpart.trans (List.suffix_cons c text))

theorem firstMatch_of_front {α : Type} {read : List Char → Option α} {text : List Char} {found : α}
    (h : read text = some found) : firstMatch read text = some found := by
  cases text with
  | nil => exact h
  | cons c text => rw [firstMatch, h]

theorem takeRun_append {p : Char → Bool} {run rest : List Char} (hne : run ≠ [])
    (hrun : ∀ c ∈ run, p c = true) (hrest : ∀ c ∈ rest.head?, p c = false) :
    takeRun p (run ++ rest) = some (run, rest) := by
  have hstop : rest.takeWhile p = [] ∧ rest.dropWhile p = rest := by
    cases rest with
    | nil => exact ⟨rfl, rfl⟩
    | cons c rest =>
        have hc : p c = false := hrest c rfl
        exact ⟨List.takeWhile_cons_of_neg (by simp [hc]), List.dropWhile_cons_of_neg (by simp [hc])⟩
  obtain ⟨first, more, rfl⟩ := List.exists_cons_of_ne_nil hne
  unfold takeRun
  rw [List.takeWhile_append_of_pos hrun, List.dropWhile_append_of_pos hrun, hstop.1, hstop.2,
    List.append_nil]

theorem skipBlanks_eq_self {text : List Char} (h : ∀ c ∈ text.head?, isBlank c = false) :
    skipBlanks text = text := by
  cases text with
  | nil => rfl
  | cons c text =>
      have hc : isBlank c = false := h c rfl
      exact List.dropWhile_cons_of_neg (by simp [hc])

theorem skipBlanks_space (text : List Char) : skipBlanks (' ' :: text) = skipBlanks text :=
  List.dropWhile_cons_of_pos (by decide)

theorem trim_eq_self {text : List Char} (hfirst : ∀ c ∈ text.head?, isBlank c = false)
    (hlast : ∀ c ∈ text.getLast?, isBlank c = false) : trim text = text := by
  have hstart : text.dropWhile isBlank = text := skipBlanks_eq_self hfirst
  rw [trim, hstart]
  rcases List.eq_nil_or_concat' text with rfl | ⟨front, last, rfl⟩
  · rfl
  · refine dropEndWhile_append (by simp) (List.forall_mem_singleton.mpr ?_)
    exact hlast last (by simp)

theorem isBlank_of_isDigit {c : Char} (h : c.isDigit = true) : isBlank c = false :=
  Word.isBlank_of_isNumberChar (Number.isNumberChar_of_isDigit h)

theorem isDecimalDigit_of_isDigit {c : Char} (h : c.isDigit = true) : isDecimalDigit c = true := by
  simp only [Char.isDigit, Bool.and_eq_true, decide_eq_true_eq] at h
  obtain ⟨hlow, hhigh⟩ := h
  have hlow : 48 ≤ c.toNat := hlow
  have hhigh : c.toNat ≤ 57 := hhigh
  rw [isDecimalDigit, List.any_eq_true]
  exact ⟨(0x30, 0x39), by simp [decimalDigitRanges], by simp [hlow, hhigh]⟩

end Text

namespace Command

theorem splitComment_commentText (text : String) :
    splitComment ("; " ++ text).toList = ([], some (' ' :: text.toList)) := by
  rw [String.toList_append]
  unfold splitComment
  rw [List.span_eq_takeWhile_dropWhile]
  rfl

theorem code_commentText (line : Option Nat) (text : String) :
    (ofText line ("; " ++ text)).code = [] := by
  change codeOf ("; " ++ text) = []
  rw [codeOf, splitComment_commentText]
  rfl

theorem comment_commentText (line : Option Nat) {text : String}
    (h : Text.trim text.toList = text.toList) :
    (ofText line ("; " ++ text)).comment = some text := by
  have htrim : Text.trim (' ' :: text.toList) = text.toList := by
    rw [← h, Text.trim, List.dropWhile_cons_of_pos (by decide)]
    rw [h]
    exact h
  simp only [ofText, splitComment_commentText, Option.map_some, htrim, String.ofList_toList]

theorem suffix_of_splitComment {raw comment : List Char} (h : (splitComment raw).2 = some comment) :
    comment <:+ raw := by
  unfold splitComment at h
  rw [List.span_eq_takeWhile_dropWhile] at h
  split at h
  · exact absurd h (by simp)
  · rename_i hsplit
    obtain ⟨-, hdrop⟩ := Prod.mk.inj hsplit
    obtain rfl := Option.some.inj h
    refine List.IsSuffix.trans ?_ (List.dropWhile_suffix (p := (· != ';')))
    rw [hdrop]
    exact List.suffix_cons _ _

theorem mem_of_mem_comment {line : Option Nat} {raw comment : String}
    (h : (ofText line raw).comment = some comment) {c : Char} (hc : c ∈ comment.toList) :
    c ∈ raw.toList := by
  obtain ⟨behind, hbehind, rfl⟩ := Option.map_eq_some_iff.mp h
  rw [String.toList_ofList, Text.trim] at hc
  exact (suffix_of_splitComment hbehind).subset
    ((List.dropWhile_suffix _).subset ((Text.dropEndWhile_prefix _ _).subset hc))

end Command

namespace Marker

open Text

/-- The height that a command states in a comment. -/
def heightOf (c : Command) : Option Float :=
  match ofCommand c with
  | some (.zHeight z) => some z
  | _ => none

theorem ofCommand_tagged (c : Command) (line : Option Nat) (tag : Bool) :
    ofCommand { c with line, inToolChange := tag } = ofCommand c :=
  rfl

theorem ofCommand_ofText (line : Option Nat) (raw : String) :
    ofCommand (Command.ofText line raw) = ofCommand (Command.ofText none raw) := by
  have hsame : Command.ofText line raw =
      { Command.ofText none raw with line, inToolChange := false } := by
    simp only [Command.ofText]
  rw [hsame, ofCommand_tagged]

theorem dropFolded_of_colon_notMem {pattern text : List Char} (hpattern : ':' ∈ pattern)
    (h : ':' ∉ text) : dropFolded pattern text = none := by
  refine dropFolded_eq_none hpattern fun c hc => ?_
  cases hfolds : foldsTo ':' c with
  | false => rfl
  | true => exact absurd (eq_colon_of_foldsTo hfolds ▸ hc) h

theorem layerDigits_eq_none {text : List Char} (h : ':' ∉ text) : layerDigits text = none := by
  unfold layerDigits
  rw [dropFolded_of_colon_notMem (by decide) h]
  rfl

theorem firstMatch_layerDigits_eq_none {comment : List Char} (h : ':' ∉ comment) :
    firstMatch layerDigits comment = none :=
  firstMatch_eq_none fun _ hpart => layerDigits_eq_none fun hc => h (hpart.subset hc)

theorem heightDigits_eq_none {text : List Char} (h : ':' ∉ text) : heightDigits text = none := by
  unfold heightDigits
  rw [dropFolded_of_colon_notMem (by decide) h]
  rfl

theorem objectLabel_eq_none {text : List Char} (h : ':' ∉ text) (verb : String) :
    objectLabel verb text = none := by
  have hcolon : ':' ∈ (verb ++ " printing object, unique label id:").toList := by
    rw [String.toList_append]
    exact List.mem_append_right _ (by decide)
  unfold objectLabel
  rw [dropFolded_of_colon_notMem hcolon h]
  rfl

theorem ofComment_of_colon_notMem {comment : List Char} (h : ':' ∉ comment) :
    ofComment comment = if endsPrint comment then some .endOfPrint else none := by
  have hobject (verb : String) : firstMatch (objectLabel verb) comment = none :=
    firstMatch_eq_none fun _ hpart => objectLabel_eq_none (fun hc => h (hpart.subset hc)) verb
  unfold ofComment
  rw [firstMatch_layerDigits_eq_none h, hobject, hobject, heightDigits_eq_none h]

/-- A line without a colon tells neither a layer nor a height. -/
theorem ofCommand_of_colon_notMem {line : Option Nat} {raw : String} (h : ':' ∉ raw.toList) :
    isLayer (Command.ofText line raw) = false ∧ heightOf (Command.ofText line raw) = none := by
  have hcomment : ∀ comment : List Char, ':' ∉ comment →
      (∀ number total, ofComment comment ≠ some (.layer number total)) ∧
        ∀ z, ofComment comment ≠ some (.zHeight z) := by
    intro comment hcolon
    rw [ofComment_of_colon_notMem hcolon]
    split <;> exact ⟨by simp, by simp⟩
  have hneither : (∀ number total, ofCommand (Command.ofText line raw) ≠ some (.layer number total)) ∧
      ∀ z, ofCommand (Command.ofText line raw) ≠ some (.zHeight z) := by
    unfold ofCommand
    split
    · exact ⟨by simp, by simp⟩
    · split
      · exact ⟨by simp, by simp⟩
      · cases hc : (Command.ofText line raw).comment with
        | none => exact ⟨by simp, by simp⟩
        | some comment =>
            exact hcomment comment.toList fun hcolon =>
              h (Command.mem_of_mem_comment hc hcolon)
  constructor
  · unfold isLayer
    split
    · rename_i number total hmarker
      exact absurd hmarker (hneither.1 number total)
    · rfl
  · unfold heightOf
    split
    · rename_i z hmarker
      exact absurd hmarker (hneither.2 z)
    · rfl

theorem ofCommand_commentText (line : Option Nat) {text : String}
    (h : trim text.toList = text.toList) :
    ofCommand (Command.ofText line ("; " ++ text)) = ofComment text.toList := by
  unfold ofCommand
  rw [Command.code_commentText, Command.comment_commentText line h]
  rfl

theorem readCount_digits {n : Nat} (h : n < 2 ^ 32) : readCount (Number.digits n) = some n := by
  have hdigits : (Number.digits n).all Char.isDigit = true :=
    List.all_eq_true.mpr fun c hc => Number.isDigit_of_mem_digits hc
  have hvalue : Number.ofDigits (Number.digits n) = n := Nat.ofDigitChars_ten_toDigits
  have hsmall : n < 0x100000000 := h
  simp [readCount, hdigits, hvalue, hsmall]

theorem toList_toString (n : Nat) : (toString n).toList = Number.digits n :=
  String.toList_ofList

theorem toList_layerText (number total : Nat) : (layerText number total).toList =
    "layer num/total_layer_count:".toList ++
      ' ' :: (Number.digits number ++ '/' :: Number.digits total) := by
  have hblank : "layer num/total_layer_count: ".toList =
      "layer num/total_layer_count:".toList ++ [' '] := by rfl
  have hslash : "/".toList = ['/'] := by rfl
  unfold layerText
  simp only [String.toList_append, toList_toString, hblank, hslash, List.append_assoc,
    List.cons_append, List.nil_append]

theorem digits_ne_nil (n : Nat) : Number.digits n ≠ [] :=
  Nat.toDigits_ne_nil

theorem skipBlanks_digits (n : Nat) (rest : List Char) :
    skipBlanks (Number.digits n ++ rest) = Number.digits n ++ rest := by
  refine skipBlanks_eq_self fun c hc => ?_
  rw [List.head?_append_of_ne_nil _ (digits_ne_nil n)] at hc
  exact isBlank_of_isDigit (Number.isDigit_of_mem_digits (List.mem_of_mem_head? hc))

theorem takeRun_digits (n : Nat) {rest : List Char}
    (hrest : ∀ c ∈ rest.head?, isDecimalDigit c = false) :
    takeRun isDecimalDigit (Number.digits n ++ rest) = some (Number.digits n, rest) :=
  takeRun_append (digits_ne_nil n)
    (fun _ hc => isDecimalDigit_of_isDigit (Number.isDigit_of_mem_digits hc)) hrest

theorem layerDigits_layerText (number total : Nat) :
    layerDigits (layerText number total).toList =
      some (Number.digits number, Number.digits total) := by
  have hliteral : dropFolded "layer num/total_layer_count:".toList
      "layer num/total_layer_count:".toList = some [] := by decide
  have hslash : skipBlanks ('/' :: Number.digits total) = '/' :: Number.digits total :=
    List.dropWhile_cons_of_neg (by decide)
  have hstop : ∀ c ∈ ('/' :: Number.digits total).head?, isDecimalDigit c = false := by
    intro c hc
    obtain rfl := Option.some.inj hc
    decide
  have hblank : skipBlanks (' ' :: (Number.digits number ++ '/' :: Number.digits total)) =
      Number.digits number ++ '/' :: Number.digits total := by
    rw [skipBlanks_space, skipBlanks_digits]
  have htotal : takeRun isDecimalDigit (skipBlanks (Number.digits total)) =
      some (Number.digits total, []) := by
    have hrun := @takeRun_digits total [] (by simp)
    rw [← skipBlanks_digits] at hrun
    simpa using hrun
  unfold layerDigits
  rw [toList_layerText, dropFolded_append hliteral, Option.bind_eq_bind, Option.bind_some, hblank,
    takeRun_digits number hstop, Option.bind_eq_bind, Option.bind_some]
  simp only [hslash, htotal]
  rfl

theorem ofComment_layerText {number total : Nat} (hnumber : number < 2 ^ 32)
    (htotal : total < 2 ^ 32) :
    ofComment (layerText number total).toList = some (.layer number total) := by
  unfold ofComment
  rw [firstMatch_of_front (layerDigits_layerText number total)]
  simp [readCount_digits hnumber, readCount_digits htotal]

theorem trim_layerText (number total : Nat) :
    trim (layerText number total).toList = (layerText number total).toList := by
  rw [toList_layerText]
  refine trim_eq_self (fun c hc => ?_) fun c hc => ?_
  · rw [List.head?_append_of_ne_nil _ (by decide)] at hc
    have hfirst : "layer num/total_layer_count:".toList.head? = some 'l' := by decide
    obtain rfl := Option.some.inj (hfirst.symm.trans hc)
    decide
  · rw [List.getLast?_append_of_ne_nil _ (by simp), ← List.cons_append,
      List.append_cons, List.getLast?_append_of_ne_nil _ (digits_ne_nil total)] at hc
    exact isBlank_of_isDigit (Number.isDigit_of_mem_digits (List.mem_of_getLast? hc))

theorem ofCommand_layerText (line : Option Nat) {number total : Nat} (hnumber : number < 2 ^ 32)
    (htotal : total < 2 ^ 32) :
    ofCommand (Command.ofText line ("; " ++ layerText number total)) =
      some (.layer number total) := by
  rw [ofCommand_commentText line (trim_layerText number total),
    ofComment_layerText hnumber htotal]

theorem ofComment_of_heightDigits {comment digits : List Char}
    (hletters : ∀ c ∈ comment, foldsTo 'l' c = false ∧ foldsTo 's' c = false)
    (h : heightDigits comment = some digits) :
    ofComment comment = (Number.readPlain digits).map zHeight := by
  have hlayer : firstMatch layerDigits comment = none := by
    refine firstMatch_eq_none fun part hpart => ?_
    have hliteral : dropFolded "layer num/total_layer_count:".toList part = none :=
      dropFolded_eq_none (p := 'l') (by decide) fun c hc => (hletters c (hpart.subset hc)).1
    unfold layerDigits
    rw [hliteral]
    rfl
  have hobject (verb : String) (hverb : 's' ∈ verb.toList) :
      firstMatch (objectLabel verb) comment = none := by
    refine firstMatch_eq_none fun part hpart => ?_
    have hliteral :
        dropFolded (verb ++ " printing object, unique label id:").toList part = none := by
      refine dropFolded_eq_none (p := 's') ?_ fun c hc => (hletters c (hpart.subset hc)).2
      rw [String.toList_append]
      exact List.mem_append_left _ hverb
    unfold objectLabel
    rw [hliteral]
    rfl
  unfold ofComment
  rw [hlayer, hobject "start" (by decide), hobject "stop" (by decide), h]

theorem leadingDecimal_placedText (units : Nat) :
    leadingDecimal (Number.placedText axisPlaces units) =
        some (Number.placedText axisPlaces units) ∧
      leadingDecimal ('-' :: Number.placedText axisPlaces units) =
        some ('-' :: Number.placedText axisPlaces units) := by
  obtain ⟨whole, part, heq, hne, hlength, hdigits, -⟩ :=
    @Number.exists_placedText axisPlaces (by decide) units
  rw [List.forall_mem_append] at hdigits
  have htake : (whole ++ '.' :: part).takeWhile Char.isDigit = whole := by
    rw [List.takeWhile_append_of_pos hdigits.1, List.takeWhile_cons_of_neg (by decide),
      List.append_nil]
  have hdrop : (whole ++ '.' :: part).dropWhile Char.isDigit = '.' :: part := by
    rw [List.dropWhile_append_of_pos hdigits.1, List.dropWhile_cons_of_neg (by decide)]
  have hpart : part.takeWhile Char.isDigit = part := List.takeWhile_eq_self_iff.mpr hdigits.2
  have hfull : part.isEmpty = false := by
    cases part with
    | nil => exact absurd hlength (by decide)
    | cons c part => rfl
  obtain ⟨c, rest, rfl⟩ := List.exists_cons_of_ne_nil hne
  have hc : c.isDigit = true := hdigits.1 c List.mem_cons_self
  rw [heq]
  constructor
  · unfold leadingDecimal
    split
    rename_i sign text hsign
    have hunsigned : sign = [] ∧ text = c :: rest ++ '.' :: part := by
      split at hsign
      · rename_i heq
        obtain rfl : c = '-' := (List.cons.inj heq).1
        exact absurd hc (by decide)
      · rename_i heq
        obtain rfl : c = '+' := (List.cons.inj heq).1
        exact absurd hc (by decide)
      · obtain ⟨rfl, rfl⟩ := Prod.mk.inj hsign
        exact ⟨rfl, rfl⟩
    obtain ⟨rfl, rfl⟩ := hunsigned
    simp only [htake, hdrop, hpart, hfull]
    rfl
  · unfold leadingDecimal
    simp only [htake, hdrop, hpart, hfull]
    rfl

theorem leadingDecimal_coordinate {z : Float} (hz : z.isFinite = true) :
    leadingDecimal (coordinate axisPlaces z).toList = some (coordinate axisPlaces z).toList := by
  obtain ⟨hplain, hminus⟩ := leadingDecimal_placedText (Number.unitsOf axisPlaces z)
  rcases coordinate_cases axisPlaces hz with ⟨heq, -⟩ | ⟨heq, -⟩
  · rw [heq]
    exact hplain
  · rw [heq]
    exact hminus

theorem isBlank_of_mem_coordinate {z : Float} (hz : z.isFinite = true) {c : Char}
    (hc : c ∈ (coordinate axisPlaces z).toList) : isBlank c = false :=
  Word.isBlank_of_isNumberChar (isNumberChar_of_mem_coordinate hz hc)

theorem coordinate_ne_nil {z : Float} (hz : z.isFinite = true) :
    (coordinate axisPlaces z).toList ≠ [] := by
  intro hnil
  have hread := leadingDecimal_coordinate hz
  rw [hnil] at hread
  exact absurd hread (by decide)

theorem toList_heightText (z : Float) :
    (heightText z).toList = "Z_HEIGHT:".toList ++ ' ' :: (coordinate axisPlaces z).toList := by
  have hblank : "Z_HEIGHT: ".toList = "Z_HEIGHT:".toList ++ [' '] := by rfl
  rw [heightText, String.toList_append, hblank, List.append_assoc, List.singleton_append]

theorem heightDigits_heightText {z : Float} (hz : z.isFinite = true) :
    heightDigits (heightText z).toList = some (coordinate axisPlaces z).toList := by
  have hliteral : dropFolded "z_height:".toList "Z_HEIGHT:".toList = some [] := by decide
  have hskip : skipBlanks (' ' :: (coordinate axisPlaces z).toList) =
      (coordinate axisPlaces z).toList := by
    rw [skipBlanks_space]
    exact skipBlanks_eq_self fun c hc =>
      isBlank_of_mem_coordinate hz (List.mem_of_mem_head? hc)
  unfold heightDigits
  rw [toList_heightText, dropFolded_append hliteral, Option.bind_eq_bind, Option.bind_some, hskip,
    leadingDecimal_coordinate hz]

theorem trim_heightText {z : Float} (hz : z.isFinite = true) :
    trim (heightText z).toList = (heightText z).toList := by
  rw [toList_heightText]
  refine trim_eq_self (fun c hc => ?_) fun c hc => ?_
  · rw [List.head?_append_of_ne_nil _ (by decide)] at hc
    have hfirst : "Z_HEIGHT:".toList.head? = some 'Z' := by decide
    obtain rfl := Option.some.inj (hfirst.symm.trans hc)
    decide
  · rw [List.append_cons, List.getLast?_append_of_ne_nil _ (coordinate_ne_nil hz)] at hc
    exact isBlank_of_mem_coordinate hz (List.mem_of_getLast? hc)

theorem ofCommand_heightText (line : Option Nat) {z r : Float} (hz : z.isFinite = true)
    (hr : Number.readPlain (coordinate axisPlaces z).toList = some r) :
    ofCommand (Command.ofText line ("; " ++ heightText z)) = some (.zHeight r) := by
  have hname : ("Z_HEIGHT:".toList ++ [' ']).all
      (fun c => !foldsTo 'l' c && !foldsTo 's' c) = true := by decide +kernel
  have hletters : ∀ c ∈ (heightText z).toList, foldsTo 'l' c = false ∧ foldsTo 's' c = false := by
    rw [toList_heightText, List.append_cons, List.forall_mem_append]
    refine ⟨?_, fun c hc => foldsTo_of_isNumberChar (isNumberChar_of_mem_coordinate hz hc)⟩
    simpa only [List.all_eq_true, Bool.and_eq_true, Bool.not_eq_true'] using hname
  rw [ofCommand_commentText line (trim_heightText hz),
    ofComment_of_heightDigits hletters (heightDigits_heightText hz), hr]
  rfl

theorem coordinate_of_not_isFinite (places : Nat) {x : Float} (h : x.isFinite = false) :
    coordinate places x ∈ ["NaN", "inf", "-inf"] := by
  have hmagnitude :
      Number.magnitudeText places x = if x.isNaN then "NaN".toList else "inf".toList := by
    simp only [Number.magnitudeText, h, Bool.false_eq_true, if_false]
  unfold coordinate Number.fixedPoint
  rw [hmagnitude]
  cases x.isNaN <;> cases Number.isNegative x <;> decide

theorem ofCommand_heightText_of_not_isFinite (line : Option Nat) {z : Float}
    (hz : z.isFinite = false) : ofCommand (Command.ofText line ("; " ++ heightText z)) = none := by
  have htexts : ∀ text ∈ ["NaN", "inf", "-inf"],
      ofCommand (Command.ofText none ("; " ++ ("Z_HEIGHT: " ++ text))) = none := by
    decide +kernel
  rw [ofCommand_ofText, heightText]
  exact htexts _ (coordinate_of_not_isFinite axisPlaces hz)

end Marker

end ToolBatching
