import ToolBatching.Proofs.CommandText
import ToolBatching.Proofs.Coordinates
import ToolBatching.Proofs.Number.FixedText
import ToolBatching.Proofs.Writing.Quiet

namespace ToolBatching

namespace Number

theorem mem_magnitudeText {places : Nat} {x : Float} {c : Char}
    (h : c ∈ magnitudeText places x) : Word.isNumberChar c = true ∨ c ∈ "NaNinf".toList := by
  unfold magnitudeText at h
  split at h
  · exact Or.inr (List.mem_append_left "inf".toList h)
  · split at h
    · exact Or.inl (isNumberChar_of_mem_placedText h)
    · exact Or.inr (List.mem_append_right "NaN".toList h)

end Number

theorem mem_coordinate {places : Nat} {x : Float} {c : Char}
    (h : c ∈ (coordinate places x).toList) :
    Word.isNumberChar c = true ∨ c ∈ "NaNinf".toList := by
  have hdrop (text : List Char) : ∀ c ∈ dropZeroSign text, c ∈ text := by
    intro c hc
    unfold dropZeroSign at hc
    split at hc
    · split at hc
      · exact List.mem_cons_of_mem _ hc
      · exact hc
    · exact hc
  rw [coordinate, String.toList_ofList] at h
  have hfixed := hdrop _ c h
  simp only [Number.fixedPoint, String.toList_ofList] at hfixed
  split at hfixed
  · rcases List.mem_cons.mp hfixed with rfl | hfixed
    · exact Or.inl rfl
    · exact Number.mem_magnitudeText hfixed
  · exact Number.mem_magnitudeText hfixed

theorem chars_coordinate {places : Nat} {x : Float} {c : Char}
    (h : c ∈ (coordinate places x).toList) : c ≠ ';' ∧ Text.isBlank c = false := by
  rcases mem_coordinate h with hnumber | hname
  · refine ⟨?_, Word.isBlank_of_isNumberChar hnumber⟩
    rintro rfl
    exact absurd hnumber (by decide)
  · exact Text.unspaced_of_all (by decide) c hname

namespace Move

def field (letter : Char) (places : Nat) (value : Option Float) : List Word :=
  (value.map fun v => ⟨letter, (coordinate places v).toList⟩).toList

/-- The words of a move behind its mnemonic. -/
def fields (m : Move) : List Word :=
  field 'X' axisPlaces m.x ++ field 'Y' axisPlaces m.y ++ field 'Z' axisPlaces m.z
    ++ field 'E' extrusionPlaces m.e ++ field 'F' 0 m.f

/-- Every value of the move is a finite number. -/
structure Finite (m : Move) : Prop where
  x : ∀ v ∈ m.x, v.isFinite = true
  y : ∀ v ∈ m.y, v.isFinite = true
  z : ∀ v ∈ m.z, v.isFinite = true
  e : ∀ v ∈ m.e, v.isFinite = true
  f : ∀ v ∈ m.f, v.isFinite = true

theorem toList_word {letter : Char} {name : String} (hname : name.toList = [letter])
    (places : Nat) (value : Option Float) :
    (word name places value).toList =
      (field letter places value).flatMap fun w => ' ' :: w.text := by
  cases value with
  | none => rfl
  | some v =>
      simp only [word, field, String.toList_append, hname, Option.map_some, Option.toList_some,
        List.flatMap_cons, List.flatMap_nil, List.append_nil, Word.text]
      rfl

theorem toList_text {m : Move} (h : m.comment = none) :
    m.text.toList =
      (Word.mk 'G' ['1']).text ++ m.fields.flatMap fun w => ' ' :: w.text := by
  have hx : "X".toList = ['X'] := rfl
  have hy : "Y".toList = ['Y'] := rfl
  have hz : "Z".toList = ['Z'] := rfl
  have he : "E".toList = ['E'] := rfl
  have hf : "F".toList = ['F'] := rfl
  simp only [text, h, String.toList_append, toList_word hx, toList_word hy, toList_word hz,
    toList_word he, toList_word hf, fields, List.flatMap_append, List.append_assoc,
    show "".toList = [] from rfl, List.append_nil]
  rfl

theorem exists_of_mem_field {letter : Char} {places : Nat} {value : Option Float} {w : Word}
    (h : w ∈ field letter places value) :
    w.letter = letter ∧ ∃ v ∈ value, w.value = (coordinate places v).toList := by
  cases value with
  | none => exact absurd h (by simp [field])
  | some v =>
      rw [field, Option.map_some, Option.toList_some, List.mem_singleton] at h
      subst h
      exact ⟨rfl, v, rfl, by simp only⟩

theorem chars_field {letter : Char} (hletter : letter.isUpper = true) {places : Nat}
    {value : Option Float} : ∀ w ∈ field letter places value, ∀ c ∈ w.text,
      c ≠ ';' ∧ Text.isBlank c = false := by
  intro w hw c hc
  obtain ⟨heq, v, -, hvalue⟩ := exists_of_mem_field hw
  rw [Word.text, List.mem_cons, heq, hvalue] at hc
  rcases hc with rfl | hc
  · refine ⟨?_, Word.isBlank_of_isUpper hletter⟩
    rintro rfl
    exact absurd hletter (by decide)
  · exact chars_coordinate hc

theorem chars_fields (m : Move) : ∀ w ∈ Word.mk 'G' ['1'] :: m.fields, ∀ c ∈ w.text,
    c ≠ ';' ∧ Text.isBlank c = false := by
  intro w hw
  rcases List.mem_cons.mp hw with rfl | hw
  · exact Text.unspaced_of_all (by decide)
  · simp only [fields, List.mem_append] at hw
    rcases hw with (((hw | hw) | hw) | hw) | hw <;> exact chars_field (by decide) w hw

/-- The value of a word that is written with fixed places and read back. -/
def readBack (places : Nat) (value : Option Float) : Option Float :=
  value.bind fun v => Number.readPlain (coordinate places v).toList

theorem addressed_field (letter other : Char) (places : Nat) (value : Option Float) :
    Command.addressed letter (field other places value) =
      if other = letter then readBack places value else none := by
  cases value with
  | none => simp [field, Command.addressed, readBack]
  | some v =>
      simp only [Command.addressed, field, Option.map_some, Option.toList_some,
        List.findSome?_cons, List.findSome?_nil, readBack, Option.bind_some]
      split
      · rename_i hvalue
        exact hvalue.symm
      · rename_i hvalue
        exact hvalue.symm

theorem addressed_append (letter : Char) (front back : List Word) :
    Command.addressed letter (front ++ back) =
      (Command.addressed letter front).or (Command.addressed letter back) := by
  unfold Command.addressed
  rw [List.findSome?_append]

def along (m : Move) : Axis → Option Float
  | .x => m.x
  | .y => m.y
  | .z => m.z
  | .e => m.e

end Move

/-- Decimal places of an axis in written commands. -/
def Axis.places : Axis → Nat
  | .e => extrusionPlaces
  | _ => axisPlaces

namespace Move

theorem wellFormed_field {letter : Char} (hletter : letter.isUpper = true) {places : Nat}
    {value : Option Float} (hvalue : ∀ v ∈ value, v.isFinite = true) :
    ∀ w ∈ field letter places value, w.WellFormed := by
  intro w hw
  obtain ⟨rfl, v, hv, htext⟩ := exists_of_mem_field hw
  refine ⟨hletter, ?_⟩
  intro c hc
  rw [htext] at hc
  exact isNumberChar_of_mem_coordinate (hvalue v hv) hc

theorem wellFormed_fields {m : Move} (h : m.Finite) : ∀ w ∈ m.fields, w.WellFormed := by
  intro w hw
  simp only [fields, List.mem_append] at hw
  rcases hw with (((hw | hw) | hw) | hw) | hw
  · exact wellFormed_field (by decide) h.x w hw
  · exact wellFormed_field (by decide) h.y w hw
  · exact wellFormed_field (by decide) h.z w hw
  · exact wellFormed_field (by decide) h.e w hw
  · exact wellFormed_field (by decide) h.f w hw

theorem scan_build {m : Move} (h : m.Finite) (hcomment : m.comment = none) :
    Word.scan (Command.codeOf m.text) = some (⟨'G', ['1']⟩ :: m.fields) := by
  rw [Command.codeOf_spaced (toList_text hcomment) m.chars_fields, toList_text hcomment]
  apply Word.scan_spaced
  intro w hw
  rcases List.mem_cons.mp hw with rfl | hw
  · decide
  · exact wellFormed_fields h w hw

theorem mnemonic_build {m : Move} (h : m.Finite) (hcomment : m.comment = none) :
    m.build.mnemonic = "G1" := by
  have hscan := scan_build h hcomment
  simp only [build, Command.synthesized, Command.ofText, hscan, Option.getD_some,
    List.head?_cons, Option.map_some, Word.text]

theorem along_build {m : Move} (h : m.Finite) (hcomment : m.comment = none) (a : Axis) :
    m.build.along a = readBack a.places (m.along a) := by
  have hscan := scan_build h hcomment
  cases a <;>
    simp [build, Command.synthesized, Command.ofText, hscan, Command.along, fields,
      addressed_append, addressed_field, along, Axis.places]

end Move

namespace Move

theorem notMem_coordinate {letter : Char} (hletter : letter.isUpper = true) (hN : letter ≠ 'N')
    (places : Nat) (x : Float) : letter ∉ (coordinate places x).toList := by
  intro h
  rcases mem_coordinate h with hnumber | hname
  · rw [Word.isNumberChar_of_isUpper hletter] at hnumber
    exact absurd hnumber (by simp)
  · have hnames : "NaNinf".toList.all (fun c => !c.isUpper || c == 'N') = true := by decide
    have hcapital := List.all_eq_true.mp hnames letter hname
    exact hN (by simpa [hletter] using hcapital)

theorem notMem_word {letter : Char} {name : String} (hletter : letter.isUpper = true)
    (hN : letter ≠ 'N') {places : Nat} {value : Option Float}
    (hname : value = none ∨ letter ∉ name.toList) : letter ∉ (word name places value).toList := by
  cases value with
  | none => simp [word]
  | some v =>
      have hother := hname.resolve_left (by simp)
      simp only [word, String.toList_append, List.mem_append, not_or]
      refine ⟨⟨?_, hother⟩, notMem_coordinate hletter hN places v⟩
      intro hblank
      obtain rfl : letter = ' ' := by simpa using hblank
      exact absurd hletter (by decide)

theorem mem_word {letter : Char} {name : String} (h : letter ∈ name.toList) (places : Nat)
    (v : Float) : letter ∈ (word name places (some v)).toList := by
  simp only [word, String.toList_append, List.mem_append]
  exact Or.inl (Or.inr h)

theorem notMem_text {m : Move} (hcomment : m.comment = none) {letter : Char}
    (hletter : letter.isUpper = true) (hother : letter ∉ "NG1".toList)
    (hx : m.x = none ∨ letter ∉ "X".toList) (hy : m.y = none ∨ letter ∉ "Y".toList)
    (hz : m.z = none ∨ letter ∉ "Z".toList) (he : m.e = none ∨ letter ∉ "E".toList)
    (hf : m.f = none ∨ letter ∉ "F".toList) : letter ∉ m.text.toList := by
  have hN : letter ≠ 'N' := by
    rintro rfl
    exact hother (by decide)
  have hG : letter ∉ "G1".toList := by
    intro hmem
    exact hother (List.mem_cons_of_mem 'N' hmem)
  simp only [text, hcomment, String.toList_append, List.mem_append, not_or]
  exact ⟨⟨⟨⟨⟨⟨hG, notMem_word hletter hN hx⟩, notMem_word hletter hN hy⟩,
    notMem_word hletter hN hz⟩, notMem_word hletter hN he⟩, notMem_word hletter hN hf⟩, by simp⟩

theorem along_build_eq_none {m : Move} {a : Axis} (h : m.along a = none)
    (hcomment : m.comment = none) : m.build.along a = none := by
  rw [build, Command.synthesized, Command.along_ofText]
  apply Command.addressed_eq_none
  cases a with
  | x =>
      exact notMem_text hcomment (by decide) (by decide) (Or.inl h) (Or.inr (by decide))
        (Or.inr (by decide)) (Or.inr (by decide)) (Or.inr (by decide))
  | y =>
      exact notMem_text hcomment (by decide) (by decide) (Or.inr (by decide)) (Or.inl h)
        (Or.inr (by decide)) (Or.inr (by decide)) (Or.inr (by decide))
  | z =>
      exact notMem_text hcomment (by decide) (by decide) (Or.inr (by decide)) (Or.inr (by decide))
        (Or.inl h) (Or.inr (by decide)) (Or.inr (by decide))
  | e =>
      exact notMem_text hcomment (by decide) (by decide) (Or.inr (by decide)) (Or.inr (by decide))
        (Or.inr (by decide)) (Or.inl h) (Or.inr (by decide))

theorem mnemonic_build_ne (m : Move) {mnemonic : String}
    (h : Command.excludes mnemonic "G1" = true) : m.build.mnemonic ≠ mnemonic := by
  have htext : ∃ more, m.text = "G1" ++ more := by
    unfold text
    simp only [String.append_assoc]
    exact ⟨_, rfl⟩
  obtain ⟨more, hmore⟩ := htext
  rw [build, hmore]
  exact Command.mnemonic_ofText_ne none h more

theorem switches_build (m : Move) (a : Axis) : m.build.switches a = none := by
  apply Command.switches_eq_none
  simp only [List.mem_cons, List.not_mem_nil, or_false, not_or]
  exact ⟨m.mnemonic_build_ne (by decide), m.mnemonic_build_ne (by decide),
    m.mnemonic_build_ne (by decide), m.mnemonic_build_ne (by decide)⟩

theorem target_build_eq_none {m : Move} {a : Axis} (h : m.along a = none)
    (hcomment : m.comment = none) : m.build.target a = none := by
  rw [Command.target_of_mnemonic_ne (m.mnemonic_build_ne (by decide))
    (m.mnemonic_build_ne (by decide)), along_build_eq_none h hcomment]
  simp

theorem target_build {m : Move} (h : m.Finite) (hcomment : m.comment = none) (a : Axis) :
    m.build.target a = readBack a.places (m.along a) := by
  have hcode := mnemonic_build h hcomment
  rw [Command.target_of_mnemonic_ne (m.mnemonic_build_ne (by decide))
    (m.mnemonic_build_ne (by decide)), m.quiet_build.tool, along_build h hcomment]
  simp [Command.isMotion, hcode]

theorem mode_build (m : Machine) (move : Move) (a : Axis) :
    (m.step move.build).mode a = m.mode a := by
  rw [Machine.mode_step, switches_build, Option.getD_none]

theorem Finite.along {m : Move} (h : m.Finite) {a : Axis} {v : Float} (hv : m.along a = some v) :
    v.isFinite = true := by
  cases a with
  | x => exact h.x v hv
  | y => exact h.y v hv
  | z => exact h.z v hv
  | e => exact h.e v hv

theorem nearest_readBack (a : Axis) {v : Float} (hv : v.isFinite = true) :
    ∃ r, readBack a.places (some v) = some r ∧ r.isFinite = true ∧
      ∃ q, |q - Number.value v| ≤ 1 / 2 / 10 ^ a.places ∧ Number.Nearest q (Number.value r) := by
  have hbounds : 0 < a.places ∧ a.places ≤ 22 := by cases a <;> decide
  obtain ⟨r, hread, hrounded⟩ := nearest_read_coordinate hbounds.1 hbounds.2 hv
  refine ⟨r, ?_, hrounded⟩
  rw [readBack, Option.bind_some]
  exact hread

theorem exists_readBack (a : Axis) {v : Float} (hv : v.isFinite = true) :
    ∃ r, readBack a.places (some v) = some r ∧ Number.Within (1 / 10 ^ a.places) r v := by
  have hbounds : 0 < a.places ∧ a.places ≤ 22 := by cases a <;> decide
  obtain ⟨r, hread, hfinite, hclose⟩ := read_coordinate hbounds.1 hbounds.2 hv
  refine ⟨r, ?_, hfinite, hv, hclose⟩
  rw [readBack, Option.bind_some]
  exact hread

end Move

end ToolBatching
