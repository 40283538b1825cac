import Mathlib.Data.List.Basic
import ToolBatching.Proofs.CommandText

namespace ToolBatching

namespace Text

/-- A text that fits on one line: it has no line feed, and a carriage return at its end would
be taken for a part of the terminator. -/
structure IsLine (text : List Char) : Prop where
  feed : '\n' ∉ text
  last : ∀ c ∈ text.getLast?, c ≠ '\r'

theorem isLine_of_forall {text : List Char} (h : ∀ c ∈ text, c ≠ '\n' ∧ c ≠ '\r') :
    IsLine text where
  feed := fun hfeed => (h _ hfeed).1 rfl
  last := fun c hc => (h c (List.mem_of_getLast? hc)).2

theorem addToLines_of_ne {c : Char} (hfeed : c ≠ '\n') (hreturn : c ≠ '\r') (beforeFeed : Bool)
    (line : List Char) (rest : List (List Char)) :
    addToLines c (beforeFeed, line :: rest) = (false, (c :: line) :: rest) := by
  simp [addToLines, hfeed, hreturn]

theorem addToLines_of_not_beforeFeed {c : Char} (hfeed : c ≠ '\n') (line : List Char)
    (rest : List (List Char)) :
    addToLines c (false, line :: rest) = (false, (c :: line) :: rest) := by
  simp [addToLines, hfeed]

theorem foldr_addToLines_of_not_beforeFeed {text : List Char} (h : '\n' ∉ text) (line : List Char)
    (rest : List (List Char)) :
    text.foldr addToLines (false, line :: rest) = (false, (text ++ line) :: rest) := by
  induction text with
  | nil => rfl
  | cons c text ih =>
      obtain ⟨hc, htext⟩ := List.ne_and_not_mem_of_not_mem_cons h
      rw [List.foldr_cons, ih htext, addToLines_of_not_beforeFeed (Ne.symm hc), List.cons_append]

theorem foldr_addToLines {text : List Char} (h : IsLine text) (beforeFeed : Bool)
    (rest : List (List Char)) :
    (text.foldr addToLines (beforeFeed, [] :: rest)).2 = text :: rest := by
  rcases List.eq_nil_or_concat' text with rfl | ⟨front, last, rfl⟩
  · rfl
  · have hfeed : '\n' ∉ front := fun hmem => h.feed (List.mem_append_left _ hmem)
    have hlast : last ≠ '\n' := fun heq => h.feed (by simp [heq])
    have hreturn : last ≠ '\r' := h.last last (by simp)
    rw [List.foldr_append, List.foldr_cons, List.foldr_nil, addToLines_of_ne hlast hreturn,
      foldr_addToLines_of_not_beforeFeed hfeed]

theorem foldr_addToLines_terminator (ending : LineEnding) (state : Bool × List (List Char)) :
    ∃ beforeFeed, ending.terminator.toList.foldr addToLines state =
      (beforeFeed, [] :: state.2) := by
  cases ending with
  | lf => exact ⟨true, rfl⟩
  | crlf => exact ⟨false, rfl⟩

theorem toList_unlines (ending : LineEnding) (raws : List String) :
    (unlines ending raws).toList =
      raws.flatMap fun raw => raw.toList ++ ending.terminator.toList := by
  have hfold (front : String) :
      (raws.foldl (fun text line => text ++ line ++ ending.terminator) front).toList =
        front.toList ++ raws.flatMap fun raw => raw.toList ++ ending.terminator.toList := by
    induction raws generalizing front with
    | nil => simp
    | cons raw raws ih =>
        rw [List.foldl_cons, ih, String.toList_append, String.toList_append, List.flatMap_cons]
        simp only [List.append_assoc]
  exact hfold ""

theorem lines_unlines (ending : LineEnding) {raws : List String}
    (h : ∀ raw ∈ raws, IsLine raw.toList) :
    lines (unlines ending raws).toList = raws.map String.toList := by
  rw [toList_unlines, lines]
  induction raws with
  | nil => rfl
  | cons raw raws ih =>
      obtain ⟨hraw, hraws⟩ := List.forall_mem_cons.mp h
      rw [List.flatMap_cons, List.foldr_append, List.foldr_append]
      obtain ⟨beforeFeed, hterminator⟩ := foldr_addToLines_terminator ending
        ((raws.flatMap fun raw => raw.toList ++ ending.terminator.toList).foldr addToLines
          (false, []))
      rw [hterminator, foldr_addToLines hraw, ih hraws, List.map_cons]

theorem feed_notMem_of_mem_lines {text line : List Char} (h : line ∈ lines text) :
    '\n' ∉ line := by
  unfold lines at h
  induction text generalizing line with
  | nil => exact absurd h (by simp)
  | cons c text ih =>
      rw [List.foldr_cons] at h
      generalize text.foldr addToLines (false, []) = state at h ih
      obtain ⟨beforeFeed, lines⟩ := state
      unfold addToLines at h
      dsimp only at h
      split at h
      · rcases List.mem_cons.mp h with rfl | h
        · simp
        · exact ih h
      · rename_i hc
        split at h
        · exact ih h
        · split at h
          · obtain rfl := List.mem_singleton.mp h
            simpa using Ne.symm hc
          · rename_i first rest
            rcases List.mem_cons.mp h with rfl | h
            · exact List.not_mem_cons_of_ne_of_not_mem (Ne.symm hc) (ih List.mem_cons_self)
            · exact ih (List.mem_cons_of_mem _ h)

/-- Characters that are dropped at the end of a line. -/
def isTerminator (c : Char) : Bool :=
  c == '\r' || c == '\n'

theorem isBlank_of_isTerminator {c : Char} (hc : isTerminator c = true) : isBlank c = true := by
  simp only [isTerminator, Bool.or_eq_true, beq_iff_eq] at hc
  rcases hc with rfl | rfl <;> decide

theorem exists_dropEndWhile_append (p : Char → Bool) (text : List Char) :
    ∃ more, text = dropEndWhile p text ++ more ∧ ∀ c ∈ more, p c = true := by
  refine ⟨(text.reverse.takeWhile p).reverse, ?_, fun c hc => ?_⟩
  · rw [dropEndWhile, ← List.reverse_append, List.takeWhile_append_dropWhile, List.reverse_reverse]
  · exact List.mem_takeWhile_imp (List.mem_reverse.mp hc)

theorem isLine_dropEndWhile {text : List Char} (h : '\n' ∉ text) :
    IsLine (dropEndWhile isTerminator text) where
  feed := fun hfeed => h ((Text.dropEndWhile_prefix _ _).subset hfeed)
  last := by
    intro c hc
    rw [dropEndWhile, List.getLast?_reverse] at hc
    have hstop := List.head?_dropWhile_not isTerminator text.reverse
    rw [hc] at hstop
    simp only [isTerminator, Bool.or_eq_false_iff, beq_eq_false_iff_ne] at hstop
    exact hstop.1

theorem dropEndWhile_of_isLine {text : List Char} (h : IsLine text) :
    dropEndWhile isTerminator text = text := by
  rcases List.eq_nil_or_concat' text with rfl | ⟨front, last, rfl⟩
  · rfl
  · refine dropEndWhile_append (by simp) (List.forall_mem_singleton.mpr ?_)
    have hlast : last ≠ '\n' := fun heq => h.feed (by simp [heq])
    have hreturn : last ≠ '\r' := h.last last (by simp)
    simp [isTerminator, hlast, hreturn]

end Text

namespace Command

/-- The text of a line as a command keeps it. -/
def trimmed (text : String) : String :=
  String.ofList (Text.dropEndWhile Text.isTerminator text.toList)

theorem toList_trimmed (text : String) :
    (trimmed text).toList = Text.dropEndWhile Text.isTerminator text.toList :=
  String.toList_ofList

theorem parse_eq (n : Nat) (text : String) : parse n text = ofText (some n) (trimmed text) :=
  rfl

theorem isLine_trimmed {text : String} (h : '\n' ∉ text.toList) :
    Text.IsLine (trimmed text).toList := by
  rw [toList_trimmed]
  exact Text.isLine_dropEndWhile h

theorem trimmed_of_isLine {text : String} (h : Text.IsLine text.toList) : trimmed text = text := by
  rw [trimmed, Text.dropEndWhile_of_isLine h, String.ofList_toList]

theorem map_trimmed_of_isLine {raws : List String} (h : ∀ raw ∈ raws, Text.IsLine raw.toList) :
    raws.map trimmed = raws := by
  have hmap := List.map_congr_left fun raw hraw => trimmed_of_isLine (h raw hraw)
  exact hmap.trans (List.map_id' raws)

theorem parse_of_isLine (n : Nat) {text : String} (h : Text.IsLine text.toList) :
    parse n text = ofText (some n) text := by
  rw [parse_eq, trimmed_of_isLine h]

end Command

end ToolBatching
