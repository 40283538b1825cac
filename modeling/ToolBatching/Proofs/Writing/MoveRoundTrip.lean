import ToolBatching.Proofs.Number.WholeText
import ToolBatching.Proofs.WordGrammar
import ToolBatching.Proofs.Writing.MoveText

namespace ToolBatching

theorem exists_of_dropZeroSign {text rest : List Char} (h : dropZeroSign text = '-' :: rest) :
    ∃ c ∈ rest, c ≠ '0' ∧ c ≠ '.' := by
  unfold dropZeroSign at h
  split at h
  · rename_i digits
    split at h
    · rename_i hzeros
      rw [h] at hzeros
      exact absurd hzeros (by simp)
    · rename_i hzeros
      obtain rfl : digits = rest := (List.cons.inj h).2
      simpa using hzeros
  · rename_i hminus
    exact absurd h (hminus rest)

namespace Number

theorem zeros_placedText (places : Nat) : ∀ c ∈ placedText places 0, c = '0' ∨ c = '.' := by
  intro c hc
  have hdigits : digits 0 = ['0'] := rfl
  have hpadded (width : Nat) : ∀ c ∈ paddedDigits width 0, c = '0' := by
    intro c hc
    rw [paddedDigits, hdigits, List.mem_append, List.mem_singleton] at hc
    exact hc.elim List.eq_of_mem_replicate id
  unfold placedText at hc
  split at hc
  · rw [hdigits, List.mem_singleton] at hc
    exact Or.inl hc
  · rcases List.mem_append.mp hc with hwhole | hpart
    · exact Or.inl (hpadded _ c (List.mem_of_mem_take hwhole))
    · rcases List.mem_cons.mp hpart with rfl | hpart
      · exact Or.inr rfl
      · exact Or.inl (hpadded _ c (List.mem_of_mem_drop hpart))

theorem RoundsToWhole.neg {q : ℚ} {n : ℤ} (h : RoundsToWhole q n) : RoundsToWhole (-q) (-n) := by
  have hsame : |((-n : ℤ) : ℚ) - -q| = |(n : ℚ) - q| := by
    rw [Int.cast_neg, neg_sub_neg, abs_sub_comm]
  exact ⟨hsame ▸ h.close, fun htie => (h.tie (hsame ▸ htie)).neg⟩

theorem RoundsToWhole.zero_of_abs {q : ℚ} (h : RoundsToWhole |q| 0) : RoundsToWhole q 0 := by
  have hclose := h.close
  rw [Int.cast_zero, zero_sub, abs_neg, abs_abs] at hclose
  refine ⟨?_, fun _ => Even.zero⟩
  rwa [Int.cast_zero, zero_sub, abs_neg]

theorem rounds_unitsOf (places : Nat) (x : Float) :
    RoundsToWhole (|value x| * 10 ^ places) (unitsOf places x) := by
  have hsame : |value x| * 10 ^ places =
      ((numerator x * Nat.pow 10 places : Nat) : ℚ) / denominator x := by
    rw [abs_value_eq, Nat.pow_eq]
    push_cast
    ring
  have hpos := denominator_pos x
  rw [hsame]
  refine ⟨?_, fun htie => ?_⟩
  · rw [Int.cast_natCast]
    exact abs_roundQuotient_sub_le _ hpos
  · rw [Int.cast_natCast] at htie
    exact (even_roundQuotient _ hpos htie).natCast

/-- The text of a signed number of units of the last place. -/
def signedText (places : Nat) (n : ℤ) : List Char :=
  if n < 0 then '-' :: placedText places n.natAbs else placedText places n.natAbs

theorem exists_signedText (places : Nat) {x : Float} (hx : x.isFinite = true) :
    ∃ n : ℤ, (coordinate places x).toList = signedText places n ∧
      n.natAbs = unitsOf places x ∧ RoundsToWhole (value x * 10 ^ places) n := by
  have hrounds := rounds_unitsOf places x
  have hvalue := value_eq x
  rw [← abs_value_eq] at hvalue
  have hplain : signedText places (unitsOf places x) = placedText places (unitsOf places x) := by
    rw [signedText, if_neg (by omega), Int.natAbs_natCast]
  rcases coordinate_cases places hx with ⟨htext, hpositive | hzeros⟩ | ⟨htext, hnegative⟩
  · refine ⟨unitsOf places x, htext.trans hplain.symm, Int.natAbs_natCast _, ?_⟩
    rwa [hvalue, if_neg (by simp [hpositive])]
  · refine ⟨unitsOf places x, htext.trans hplain.symm, Int.natAbs_natCast _, ?_⟩
    rw [units_eq_zero hzeros] at hrounds ⊢
    apply RoundsToWhole.zero_of_abs
    rwa [abs_mul, abs_of_pos (by positivity : (0 : ℚ) < 10 ^ places)]
  · -- A minus stands only in front of a digit that is not zero.
    have hunits : unitsOf places x ≠ 0 := by
      intro hzero
      rw [coordinate, String.toList_ofList] at htext
      obtain ⟨c, hc, hdigit, hpoint⟩ := exists_of_dropZeroSign htext
      rw [hzero] at hc
      exact (zeros_placedText places c hc).elim hdigit hpoint
    refine ⟨-(unitsOf places x), ?_, by rw [Int.natAbs_neg, Int.natAbs_natCast], ?_⟩
    · rw [htext, signedText, if_pos (by omega), Int.natAbs_neg, Int.natAbs_natCast]
    · rw [hvalue, if_pos hnegative, neg_mul]
      exact hrounds.neg

theorem nearest_read_units {places : Nat} (h : places ≤ 22) {x : Float} (hx : x.isFinite = true) :
    (Decimal.mk (unitsOf places x) places).toFloat.isFinite = true ∧
      Nearest ((unitsOf places x : ℚ) / 10 ^ places)
        (value (Decimal.mk (unitsOf places x) places).toFloat) := by
  rcases Nat.eq_zero_or_pos places with rfl | hpos
  · obtain ⟨hfinite, hvalue⟩ := value_unitsOf_zero hx
    refine ⟨hfinite, ?_⟩
    rw [pow_zero, div_one, ← hvalue]
    refine ⟨grid_value hfinite, fun t _ => ?_⟩
    rw [sub_self, abs_zero]
    exact abs_nonneg _
  · exact nearest_read_magnitude hpos h hx

theorem Nearest.units_eq_zero {places units : Nat} (h : places ≤ 22)
    (hnearest : Nearest ((units : ℚ) / 10 ^ places) 0) : units = 0 := by
  by_contra hunits
  have hone : (1 : ℚ) ≤ units := by exact_mod_cast Nat.one_le_iff_ne_zero.mpr hunits
  have hscale : (10 : ℚ) ^ places ≤ 10 ^ 22 := pow_le_pow_right₀ (by norm_num) h
  have hlarge : (2 : ℚ) ^ (-80 : ℤ) ≤ units / 10 ^ places := by
    rw [le_div_iff₀ (by positivity)]
    calc
      (2 : ℚ) ^ (-80 : ℤ) * 10 ^ places ≤ 2 ^ (-80 : ℤ) * 10 ^ 22 := by gcongr
      _ ≤ 1 := by norm_num
      _ ≤ units := hone
  have hclosest := hnearest.closest _ (grid_two_zpow (k := -80) (by norm_num))
  have hsmall : (0 : ℚ) < 2 ^ (-80 : ℤ) := by positivity
  rw [abs_of_nonpos (by linarith), abs_of_nonpos (by linarith)] at hclosest
  linarith

/-- A value is written with fixed places as a whole number of units, the nearest one, and read
back as the float nearest to that number. A zero has no sign in the text and in the float. -/
structure Written (places : Nat) (v r : Float) (n : ℤ) : Prop where
  text : (coordinate places v).toList = signedText places n
  rounds : RoundsToWhole (value v * 10 ^ places) n
  read : readPlain (coordinate places v).toList = some r
  finite : r.isFinite = true
  nearest : Nearest (n / 10 ^ places) (value r)
  unsigned : value r = 0 → isNegative r = false

theorem exists_written {places : Nat} (h : places ≤ 22) {v : Float} (hv : v.isFinite = true) :
    ∃ r n, Written places v r n := by
  obtain ⟨n, htext, hunits, hrounds⟩ := exists_signedText places hv
  obtain ⟨hfinite, hnearest⟩ := nearest_read_units h hv
  obtain ⟨hplain, hminus⟩ := readPlain_placedText places n.natAbs
  rw [← hunits] at hfinite hnearest
  have hzero (hvalue : value (Decimal.mk n.natAbs places).toFloat = 0) : n = 0 := by
    rw [hvalue] at hnearest
    exact Int.natAbs_eq_zero.mp (hnearest.units_eq_zero h)
  rcases lt_or_ge n 0 with hneg | hpos
  · obtain ⟨hfinite', hvalue⟩ := value_neg hfinite
    have hsigned : signedText places n = '-' :: placedText places n.natAbs := if_pos hneg
    have habs : (n : ℚ) = -(n.natAbs : ℚ) := by
      rw [Nat.cast_natAbs, abs_of_neg hneg, Int.cast_neg, neg_neg]
    refine ⟨_, n, htext, hrounds, (htext.trans hsigned) ▸ hminus, hfinite', ?_, fun hread => ?_⟩
    · rw [hvalue, habs, neg_div]
      exact hnearest.neg
    · rw [hvalue, neg_eq_zero] at hread
      have := hzero hread
      omega
  · have hsigned : signedText places n = placedText places n.natAbs := if_neg (by omega)
    have habs : (n : ℚ) = (n.natAbs : ℚ) := by
      rw [Nat.cast_natAbs, abs_of_nonneg hpos]
    refine ⟨_, n, htext, hrounds, (htext.trans hsigned) ▸ hplain, hfinite, ?_, fun hread => ?_⟩
    · rw [habs]
      exact hnearest
    · rw [hzero hread]
      have hplaces : ∀ places ≤ 22, isNegative (Decimal.mk 0 places).toFloat = false := by
        decide +kernel
      exact hplaces places h

end Number

namespace Text

theorem trim_cons_of_isBlank {c : Char} (h : isBlank c = true) (text : List Char) :
    trim (c :: text) = trim text := by
  rw [trim, List.dropWhile_cons_of_pos h, trim]

end Text

namespace Command

theorem splitComment_of_notMem {code : List Char} (h : ';' ∉ code) :
    splitComment code = (code, none) := by
  have hall : ∀ c ∈ code, (c != ';') = true := by
    intro c hc
    rw [bne_iff_ne]
    rintro rfl
    exact h hc
  unfold splitComment
  rw [List.span_eq_takeWhile_dropWhile, List.takeWhile_eq_self_iff.mpr hall,
    List.dropWhile_eq_nil_iff.mpr hall]

theorem splitComment_append_cons {code : List Char} (h : ';' ∉ code) (comment : List Char) :
    splitComment (code ++ ';' :: comment) = (code, some comment) := by
  have hall : ∀ c ∈ code, (c != ';') = true := by
    intro c hc
    rw [bne_iff_ne]
    rintro rfl
    exact h hc
  unfold splitComment
  rw [List.span_eq_takeWhile_dropWhile, List.takeWhile_append_of_pos hall,
    List.dropWhile_append_of_pos hall, List.takeWhile_cons_of_neg (by simp),
    List.dropWhile_cons_of_neg (by simp), List.append_nil]

theorem ofText_line (line : Option Nat) (raw : String) :
    ofText line raw = { ofText none raw with line } := by
  simp only [ofText]

end Command

namespace Move

def bare (m : Move) : Move :=
  { m with comment := none }

theorem toList_text_bare (m : Move) :
    m.text.toList = m.bare.text.toList ++
      (m.comment.elim [] fun comment => ' ' :: ';' :: ' ' :: comment.toList) := by
  have hnone : m.bare.text = "G1" ++ word "X" axisPlaces m.x ++ word "Y" axisPlaces m.y
      ++ word "Z" axisPlaces m.z ++ word "E" extrusionPlaces m.e ++ word "F" 0 m.f :=
    String.append_empty
  rw [hnone, text, String.toList_append]
  cases m.comment with
  | none => rfl
  | some comment =>
      have hcomment : (" ; " ++ comment).toList = ' ' :: ';' :: ' ' :: comment.toList :=
        String.toList_append
      rw [Option.elim_some, ← hcomment]

theorem mem_text_bare {m : Move} {c : Char} (h : c ∈ m.bare.text.toList) :
    c ≠ ';' ∧ c ≠ '\n' ∧ c ≠ '\r' := by
  have hplain (w : Word) (hw : w ∈ Word.mk 'G' ['1'] :: m.bare.fields) (hc : c ∈ w.text) :
      c ≠ ';' ∧ c ≠ '\n' ∧ c ≠ '\r' := by
    obtain ⟨hsemicolon, hblank⟩ := m.bare.chars_fields w hw c hc
    refine ⟨hsemicolon, ?_, ?_⟩ <;>
    · rintro rfl
      exact absurd hblank (by decide)
  rw [toList_text rfl, List.mem_append, List.mem_flatMap] at h
  rcases h with hcode | ⟨w, hw, hc⟩
  · exact hplain _ List.mem_cons_self hcode
  · rcases List.mem_cons.mp hc with rfl | hc
    · decide
    · exact hplain w (List.mem_cons_of_mem _ hw) hc

theorem splitComment_text (m : Move) :
    ∃ blank, (∀ c ∈ blank, Text.isBlank c = true) ∧
      Command.splitComment m.text.toList =
        (m.bare.text.toList ++ blank, m.comment.map fun comment => ' ' :: comment.toList) := by
  have hcode : ';' ∉ m.bare.text.toList := fun h => (mem_text_bare h).1 rfl
  rw [toList_text_bare]
  cases m.comment with
  | none =>
      refine ⟨[], by simp, ?_⟩
      rw [Option.elim_none, List.append_nil]
      exact Command.splitComment_of_notMem hcode
  | some comment =>
      refine ⟨[' '], List.forall_mem_singleton.mpr (by decide), ?_⟩
      rw [Option.elim_some, List.append_cons]
      exact Command.splitComment_append_cons (by simpa using hcode) _

theorem codeOf_text (m : Move) : Command.codeOf m.text = Command.codeOf m.bare.text := by
  obtain ⟨blank, hblank, hsplit⟩ := m.splitComment_text
  have hcode : ';' ∉ m.bare.text.toList := fun h => (mem_text_bare h).1 rfl
  rw [Command.codeOf, hsplit, Command.codeOf, Command.splitComment_of_notMem hcode]
  exact Text.trim_append hblank

theorem comment_build (m : Move) :
    m.build.comment = m.comment.map fun comment => String.ofList (Text.trim comment.toList) := by
  obtain ⟨blank, -, hsplit⟩ := m.splitComment_text
  simp only [build, Command.synthesized, Command.ofText, hsplit, Option.map_map]
  cases m.comment with
  | none => rfl
  | some comment =>
      rw [Option.map_some, Option.map_some, Function.comp_apply,
        Text.trim_cons_of_isBlank (by decide)]

theorem scan_text {m : Move} (h : m.Finite) :
    Word.scan (Command.codeOf m.text) = some (⟨'G', ['1']⟩ :: m.fields) := by
  have hbare : m.bare.Finite := ⟨h.x, h.y, h.z, h.e, h.f⟩
  rw [codeOf_text]
  exact scan_build hbare rfl

theorem isLine_text {m : Move}
    (h : ∀ comment ∈ m.comment, '\n' ∉ comment.toList ∧ '\r' ∉ comment.toList) :
    Text.IsLine m.text.toList := by
  apply Text.isLine_of_forall
  intro c hc
  rw [toList_text_bare, List.mem_append] at hc
  rcases hc with hc | hc
  · exact (mem_text_bare hc).2
  · cases hcomment : m.comment with
    | none =>
        rw [hcomment] at hc
        exact absurd hc (by simp)
    | some comment =>
        obtain ⟨hfeed, hreturn⟩ := h comment hcomment
        rw [hcomment, Option.elim_some] at hc
        simp only [List.mem_cons] at hc
        rcases hc with rfl | rfl | rfl | hc
        · decide
        · decide
        · decide
        · exact ⟨fun heq => hfeed (heq ▸ hc), fun heq => hreturn (heq ▸ hc)⟩

theorem written_readBack {places : Nat} (hplaces : places ≤ 22) {value : Option Float}
    (h : ∀ v ∈ value, v.isFinite = true) :
    Option.Rel (fun v r => ∃ n, Number.Written places v r n) value (readBack places value) := by
  cases value with
  | none => exact Option.Rel.none
  | some v =>
      obtain ⟨r, n, hwritten⟩ := Number.exists_written hplaces (h v rfl)
      rw [readBack, Option.bind_some, hwritten.read]
      exact Option.Rel.some ⟨n, hwritten⟩

theorem along_build_of_finite {m : Move} (h : m.Finite) (a : Axis) :
    m.build.along a = readBack a.places (m.along a) := by
  rw [build, Command.synthesized, Command.along_ofText, scan_text h, Option.getD_some,
    List.tail_cons]
  cases a <;> simp [fields, addressed_append, addressed_field, along, Axis.letter, Axis.places]

theorem feedrate_build {m : Move} (h : m.Finite) : m.build.f = readBack 0 m.f := by
  have hword : m.build.f =
      Command.addressed 'F' ((Word.scan (Command.codeOf m.text)).getD []).tail := by
    rw [build, Command.synthesized, Command.ofText]
  rw [hword, scan_text h, Option.getD_some, List.tail_cons]
  simp [fields, addressed_append, addressed_field]

/-- A move of finite numbers is read back from its text. It is a linear move with just the axes
and the feedrate that are set, each as it is written, and its comment is trimmed. Its text is read
the same at every line. -/
theorem build_reads_back {m : Move} (hm : m.Finite)
    (hcomment : ∀ comment ∈ m.comment, '\n' ∉ comment.toList ∧ '\r' ∉ comment.toList) :
    m.build.mnemonic = "G1" ∧ m.build.tool = none ∧
      (∀ a, Option.Rel (fun v r => ∃ n, Number.Written a.places v r n)
        (m.along a) (m.build.along a)) ∧
      Option.Rel (fun v r => ∃ n, Number.Written 0 v r n) m.f m.build.f ∧
      m.build.comment =
        (m.comment.map fun comment => String.ofList (Text.trim comment.toList)) ∧
      ∀ line, Command.parse line m.build.raw = { m.build with line := some line } := by
  have hscan := scan_text hm
  refine ⟨?_, m.quiet_build.tool, fun a => ?_, ?_, m.comment_build, fun line => ?_⟩
  · simp only [build, Command.synthesized, Command.ofText, hscan, Option.getD_some,
      List.head?_cons, Option.map_some, Word.text]
  · rw [along_build_of_finite hm]
    refine written_readBack ?_ fun v hv => hm.along hv
    cases a <;> decide
  · rw [feedrate_build hm]
    exact written_readBack (by decide) hm.f
  · have hraw : m.build.raw = m.text := by rw [build, Command.synthesized, Command.ofText]
    rw [hraw, Command.parse_of_isLine line (isLine_text hcomment), Command.ofText_line, build,
      Command.synthesized]

theorem build_reads_back_rounded :
    let m : Move :=
      { x := some 1.2345, z := some (-0.0004), e := some (-7), f := some 600.5,
        comment := some " raise " }
    m.text = "G1 X1.234 Z0.000 E-7.00000 F600 ;  raise " ∧
      m.build.y = none ∧ m.build.comment = some "raise" ∧
      (∀ a, Option.Rel (fun v r => ∃ n, Number.Written a.places v r n)
        (m.along a) (m.build.along a)) ∧
      ∀ line, Command.parse line m.build.raw = { m.build with line := some line } := by
  intro m
  have hfinite : m.Finite := by
    constructor <;> decide +kernel
  have hcomment : ∀ comment ∈ m.comment, '\n' ∉ comment.toList ∧ '\r' ∉ comment.toList := by
    decide +kernel
  obtain ⟨-, -, halong, -, -, hparse⟩ := build_reads_back hfinite hcomment
  exact ⟨by decide +kernel, by decide +kernel, by decide +kernel, halong, hparse⟩

end Move

end ToolBatching
