import ToolBatching.Proofs.MarkerText
import ToolBatching.Proofs.TextLines
import ToolBatching.Proofs.Writing.Composed

namespace ToolBatching

namespace Text

/-- Whether a character neither breaks a line nor stands behind the name of a marker. -/
def isPlain (c : Char) : Bool :=
  c != ':' && c != '\n' && c != '\r'

def Plain (text : String) : Prop :=
  ∀ c ∈ text.toList, isPlain c = true

theorem plain_append {front back : String} (hfront : Plain front) (hback : Plain back) :
    Plain (front ++ back) := by
  unfold Plain
  rw [String.toList_append, List.forall_mem_append]
  exact ⟨hfront, hback⟩

theorem plain_of_all {text : String} (h : text.toList.all isPlain = true) : Plain text :=
  List.all_eq_true.mp h

theorem plain_empty : Plain "" :=
  plain_of_all (by decide)

theorem Plain.colon_notMem {text : String} (h : Plain text) : ':' ∉ text.toList :=
  fun hcolon => absurd (h _ hcolon) (by decide)

/-- A text without a line feed or a carriage return. -/
def Unbroken (text : String) : Prop :=
  ∀ c ∈ text.toList, c ≠ '\n' ∧ c ≠ '\r'

theorem unbroken_append {front back : String} (hfront : Unbroken front) (hback : Unbroken back) :
    Unbroken (front ++ back) := by
  unfold Unbroken
  rw [String.toList_append, List.forall_mem_append]
  exact ⟨hfront, hback⟩

theorem unbroken_of_all {text : String}
    (h : (text.toList.all fun c => c != '\n' && c != '\r') = true) : Unbroken text := by
  intro c hc
  simpa using List.all_eq_true.mp h c hc

theorem Plain.unbroken {text : String} (h : Plain text) : Unbroken text := by
  intro c hc
  have hplain := h c hc
  simp only [isPlain, Bool.and_eq_true, bne_iff_ne] at hplain
  exact ⟨hplain.1.2, hplain.2⟩

theorem Plain.isLine {text : String} (h : Plain text) : IsLine text.toList :=
  isLine_of_forall h.unbroken

theorem isPlain_of_isNumberChar {c : Char} (h : Word.isNumberChar c = true) :
    isPlain c = true := by
  obtain ⟨hlow, hhigh, -⟩ := Word.bounds_of_isNumberChar h
  have hother (d : Char) (hd : d.toNat < 43 ∨ 57 < d.toNat) : c ≠ d := by
    rintro rfl
    omega
  simp [isPlain, hother]

theorem plain_toString (n : Nat) : Plain (toString n) := by
  intro c hc
  rw [Marker.toList_toString] at hc
  exact isPlain_of_isNumberChar (Number.isNumberChar_of_isDigit (Number.isDigit_of_mem_digits hc))

theorem plain_coordinate (places : Nat) (x : Float) : Plain (coordinate places x) := by
  have hmagnitude : ∀ c ∈ Number.magnitudeText places x, isPlain c = true := by
    unfold Number.magnitudeText
    split
    · exact plain_of_all (by decide)
    · split
      · exact fun c hc => isPlain_of_isNumberChar (Number.isNumberChar_of_mem_placedText hc)
      · exact plain_of_all (by decide)
  have hsigned : Plain (Number.fixedPoint places x) := by
    unfold Plain Number.fixedPoint
    simp only [String.toList_ofList]
    split
    · exact List.forall_mem_cons.mpr ⟨by decide, hmagnitude⟩
    · exact hmagnitude
  unfold Plain coordinate
  rw [String.toList_ofList]
  unfold dropZeroSign
  split
  · rename_i rest heq
    have hrest := hsigned
    unfold Plain at hrest
    rw [heq] at hrest
    split
    · exact (List.forall_mem_cons.mp hrest).2
    · exact hrest
  · exact hsigned

theorem unbroken_layerText (number total : Nat) :
    Unbroken ("; " ++ Marker.layerText number total) :=
  unbroken_append (plain_of_all (by decide)).unbroken
    (unbroken_append (unbroken_append (unbroken_append (unbroken_of_all (by decide +kernel))
      (plain_toString number).unbroken) (plain_of_all (by decide)).unbroken)
      (plain_toString total).unbroken)

theorem unbroken_heightText (z : Float) : Unbroken ("; " ++ Marker.heightText z) :=
  unbroken_append (plain_of_all (by decide)).unbroken
    (unbroken_append (unbroken_of_all (by decide)) (plain_coordinate axisPlaces z).unbroken)

end Text

namespace Move

open Text

theorem plain_word {letter : String} (h : Plain letter) (places : Nat) (value : Option Float) :
    Plain (word letter places value) := by
  unfold word
  cases value with
  | none => exact plain_empty
  | some v =>
      exact plain_append (plain_append (plain_of_all (by decide)) h) (plain_coordinate places v)

theorem plain_text {m : Move} (h : m.comment = none) : Plain m.text := by
  unfold text
  rw [h]
  exact plain_append (plain_append (plain_append (plain_append (plain_append (plain_append
    (plain_of_all (by decide))
    (plain_word (plain_of_all (by decide)) _ _)) (plain_word (plain_of_all (by decide)) _ _))
    (plain_word (plain_of_all (by decide)) _ _)) (plain_word (plain_of_all (by decide)) _ _))
    (plain_word (plain_of_all (by decide)) _ _)) plain_empty

end Move

namespace TemplatePiece

open Text

/-- Whether the fixed texts of a template line have only such characters. -/
def isPlain (line : List TemplatePiece) : Bool :=
  line.all fun
    | text s => s.toList.all Text.isPlain
    | _ => true

theorem render_source (v : ChangeValues) :
    source.render v = v.source.elim "none" fun t => "T" ++ toString t := by
  rw [render]
  cases v.source <;> rfl

theorem plain_render {piece : TemplatePiece} (v : ChangeValues)
    (h : ∀ s, piece = text s → Plain s) : Plain (piece.render v) := by
  cases piece with
  | text s => exact h s rfl
  | tool => exact plain_toString v.tool
  | source =>
      rw [render_source]
      cases v.source with
      | none => exact plain_of_all (by decide)
      | some t => exact plain_append (plain_of_all (by decide)) (plain_toString t)
  | temperature => exact plain_toString v.temperature
  | lift => exact plain_coordinate _ _
  | clearance => exact plain_coordinate _ _

theorem plain_join {line : List TemplatePiece} (h : isPlain line = true) (v : ChangeValues) :
    Plain (String.join (line.map (render v))) := by
  unfold isPlain at h
  induction line with
  | nil => exact plain_empty
  | cons piece line ih =>
      rw [List.all_cons, Bool.and_eq_true] at h
      rw [List.map_cons, String.join_cons]
      refine plain_append (plain_render v ?_) (ih h.2)
      rintro s rfl
      exact plain_of_all h.1

end TemplatePiece

theorem Flavor.isPlain_template (f : Flavor) :
    ∀ line ∈ f.template, TemplatePiece.isPlain line = true := by
  cases f <;> decide +kernel

theorem Command.plain_parse {text : String} (h : Text.Plain text) (n : Nat) :
    Text.Plain (parse n text).raw := by
  rw [parse_of_isLine n h.isLine]
  exact h

namespace BodyPlan

open Text

theorem Surrounds.plain {p : BodyPlan} {c : Command} (h : p.Surrounds c) : Plain c.raw := by
  cases h with
  | tower tool index =>
      refine plain_append (plain_of_all (by decide)) ?_
      exact plain_append (plain_append (plain_append (plain_of_all (by decide))
        (plain_toString tool)) (plain_of_all (by decide))) (plain_toString index)
  | move h => exact Move.plain_text h
  | absolute => exact plain_of_all (by decide)
  | @positioning m _ => cases m.positioning <;> exact plain_of_all (by decide)
  | extrusion mode => cases mode <;> exact plain_of_all (by decide)
  | extruder e => exact plain_append (plain_of_all (by decide)) (plain_coordinate _ _)
  | block h =>
      obtain ⟨n, tag, line, hline, rfl⟩ := Flavor.exists_of_mem_render h
      exact Command.plain_parse
        (TemplatePiece.plain_join (p.settings.toolChange.flavor.isPlain_template line hline) _) n

end BodyPlan

end ToolBatching
