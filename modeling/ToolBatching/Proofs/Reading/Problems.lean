import ToolBatching.Proofs.Reading.Cuts
import ToolBatching.Proofs.Reading.LeftOpen

/-!
Problems found while reading. Besides the problems of markers that do not nest there are two of
layers: an object is open where a layer begins, and the number of a layer marker is not above that
of the newest layer. The warnings of a program are these problems in line order and, at last, the
sequence that is never closed, so there are none exactly for programs that nest well.
-/

namespace ToolBatching

namespace ScannedLine

def index (line : ScannedLine) : Nat :=
  line.command.line.getD 0

/-- The problem of a line that opens a layer: an object is open in front of it. -/
def boundaryProblem (line : ScannedLine) : Option Warning :=
  line.before.object.map (.objectOpenAtLayerBoundary line.index)

/-- The problem of a line behind the opener of the newest layer: its number is not above. -/
def markerProblem (opener line : ScannedLine) : Option Warning :=
  opener.layerNumber.bind fun previous =>
    line.layerNumber.map (.nonIncreasingLayerMarker line.index · previous)

/-- The problem of a line that opens no layer behind the newest opener, if there is one. -/
def problemBehind (last : Option ScannedLine) (line : ScannedLine) : Option Warning :=
  last.bind fun opener => opener.markerProblem line

theorem markerProblem_of_silent {line : ScannedLine} (h : line.layerNumber = none)
    (opener : ScannedLine) : opener.markerProblem line = none := by
  rw [markerProblem, h]
  cases opener.layerNumber <;> rfl

theorem problemBehind_of_silent {line : ScannedLine} (h : line.layerNumber = none)
    (last : Option ScannedLine) : problemBehind last line = none := by
  cases last with
  | none => rfl
  | some opener => exact markerProblem_of_silent h opener

end ScannedLine

/-- The problems of the lines of one layer, in line order. -/
def Slice.problems (s : Slice) : List Warning :=
  s.lead.filterMap ScannedLine.warning ++ s.opener.warning.toList ++
    s.opener.boundaryProblem.toList ++
    s.rest.flatMap fun line => line.warning.toList ++ (s.opener.markerProblem line).toList

variable {κ : Type} [LT κ]

/-- The problems of lines behind the opener `last` of the newest layer: a line whose key lies above
that of the opener opens the next layer, and no other line does. -/
inductive Noted (key : ScannedLine → Option κ) :
    Option ScannedLine → List ScannedLine → List Warning → Prop where
  | nil {last : Option ScannedLine} : Noted key last [] []
  | opens {last : Option ScannedLine} {line : ScannedLine} {lines : List ScannedLine}
      {problems : List Warning} {k : κ} (hkey : key line = some k)
      (habove : ∀ t ∈ last.bind key, t < k) (hrest : Noted key (some line) lines problems) :
      Noted key last (line :: lines)
        (line.warning.toList ++ line.boundaryProblem.toList ++ problems)
  | stays {last : Option ScannedLine} {line : ScannedLine} {lines : List ScannedLine}
      {problems : List Warning} (hquiet : ∀ k ∈ key line, ∃ t ∈ last.bind key, ¬ t < k)
      (hrest : Noted key last lines problems) :
      Noted key last (line :: lines)
        (line.warning.toList ++ (line.problemBehind last).toList ++ problems)

section Noted

variable {key : ScannedLine → Option κ} {last : Option ScannedLine} {line : ScannedLine}
  {front lines : List ScannedLine} {slices : List Slice} {problems : List Warning}

theorem Noted.of_quiet (h : Noted key last (front ++ lines) problems)
    (hquiet : ∀ line ∈ front, ∀ k ∈ key line, ∃ t ∈ last.bind key, ¬ t < k) :
    ∃ more, Noted key last lines more ∧ problems = (front.flatMap fun line =>
      line.warning.toList ++ (line.problemBehind last).toList) ++ more := by
  induction front generalizing problems with
  | nil => exact ⟨problems, h, rfl⟩
  | cons line front ih =>
      obtain ⟨hline, hfront⟩ := List.forall_mem_cons.mp hquiet
      rw [List.cons_append] at h
      cases h with
      | opens hkey habove hrest =>
          obtain ⟨t, ht, hnot⟩ := hline _ hkey
          exact absurd (habove t ht) hnot
      | stays _ hrest =>
          obtain ⟨more, hmore, rfl⟩ := ih hrest hfront
          exact ⟨more, hmore, by simp only [List.flatMap_cons, List.append_assoc]⟩

theorem Noted.of_opener {k : κ} (h : Noted key last (line :: lines) problems)
    (hkey : key line = some k) (habove : ∀ t ∈ last.bind key, t < k) :
    ∃ more, Noted key (some line) lines more ∧
      problems = line.warning.toList ++ line.boundaryProblem.toList ++ more := by
  cases h with
  | opens _ _ hrest => exact ⟨_, hrest, rfl⟩
  | stays hquiet _ =>
      obtain ⟨t, ht, hnot⟩ := hquiet k hkey
      exact absurd (habove t ht) hnot

theorem problems_of_silent (h : ∀ line ∈ lines, line.layerNumber = none) (last : Option ScannedLine) :
    (lines.flatMap fun line => line.warning.toList ++ (line.problemBehind last).toList) =
      lines.filterMap ScannedLine.warning := by
  rw [List.filterMap_eq_flatMap_toList]
  refine List.flatMap_congr fun line hline => ?_
  rw [ScannedLine.problemBehind_of_silent (h line hline), Option.toList_none, List.append_nil]

theorem Noted.of_slices (h : Noted key last (slices.flatMap Slice.lines) problems)
    (hleads : ∀ s ∈ slices, ∀ line ∈ s.lead, key line = none ∧ line.layerNumber = none)
    (hquiet : ∀ s ∈ slices, ∀ k ∈ key s.opener, ∀ line ∈ s.rest, ∀ j ∈ key line, ¬ k < j)
    {keys : List κ} (hkeys : slices.map (fun s => key s.opener) = keys.map some)
    (hpairwise : keys.Pairwise (· < ·)) (habove : ∀ t ∈ last.bind key, ∀ k ∈ keys, t < k) :
    problems = slices.flatMap Slice.problems := by
  induction slices generalizing last problems keys with
  | nil =>
      cases h
      rfl
  | cons s slices ih =>
      obtain ⟨k, keys, rfl⟩ : ∃ k rest, keys = k :: rest := by
        cases keys with
        | nil => exact absurd hkeys (by simp)
        | cons k rest => exact ⟨k, rest, rfl⟩
      rw [List.map_cons, List.map_cons] at hkeys
      obtain ⟨hkey, hkeys⟩ := List.cons.inj hkeys
      obtain ⟨hfirst, hpairwise⟩ := List.pairwise_cons.mp hpairwise
      obtain ⟨hlead, hleads⟩ := List.forall_mem_cons.mp hleads
      obtain ⟨hrest, hquiet⟩ := List.forall_mem_cons.mp hquiet
      have hlast (t : κ) (ht : t ∈ last.bind key) : t < k := habove t ht k List.mem_cons_self
      rw [List.flatMap_cons, Slice.lines, List.append_assoc, List.cons_append] at h
      obtain ⟨_, hopener, rfl⟩ := h.of_quiet fun line hline j hj => by
        rw [(hlead line hline).1] at hj
        exact absurd hj (by simp)
      obtain ⟨_, hbehind, rfl⟩ := hopener.of_opener hkey hlast
      obtain ⟨_, hslices, rfl⟩ := hbehind.of_quiet fun line hline j hj =>
        ⟨k, hkey, hrest k hkey line hline j hj⟩
      have hnext := ih hslices hleads hquiet hkeys hpairwise fun t ht j hj => by
        obtain rfl : k = t := Option.some.inj (hkey.symm.trans ht)
        exact hfirst j hj
      rw [problems_of_silent (fun line hline => (hlead line hline).2), hnext, List.flatMap_cons,
        Slice.problems]
      simp only [ScannedLine.problemBehind, List.append_assoc, Option.bind_some]

end Noted

namespace Layout

variable {R : Rule κ} {last : Option ScannedLine} {line : ScannedLine} {l : Layout}

/-- A layout knows the key of the newest opener. -/
structure Knows (R : Rule κ) (last : Option ScannedLine) (l : Layout) : Prop where
  detection : l.detection = R.detection
  top : R.top l.lastNumber l.topZ = last.bind R.key

/-- What a layout keeps of the numbers, the heights and the warnings. -/
structure Keeps (l next : Layout) : Prop where
  detection : next.detection = l.detection
  lastNumber : next.lastNumber = l.lastNumber
  topZ : next.topZ = l.topZ
  ending : next.ending = l.ending

theorem Keeps.knows {next : Layout} (h : Keeps l next) (hknows : Knows R last l) :
    Knows R last next :=
  ⟨h.detection.trans hknows.detection, by rw [h.lastNumber, h.topZ, hknows.top]⟩

theorem Keeps.trans {next last : Layout} (h : Keeps l next) (hnext : Keeps next last) :
    Keeps l last :=
  ⟨hnext.detection.trans h.detection, hnext.lastNumber.trans h.lastNumber,
    hnext.topZ.trans h.topZ, hnext.ending.trans h.ending⟩

theorem keeps_warn (l : Layout) (w : Option Warning) : Keeps l (l.warn w) := by
  rw [warn_eq]
  exact ⟨rfl, rfl, rfl, rfl⟩

theorem keeps_append (l : Layout) (line : ScannedLine) : Keeps l (l.append line) := by
  cases hcurrent : l.current with
  | none =>
      obtain ⟨pendingZ, heq⟩ := append_of_current_eq_none line hcurrent
      rw [heq]
      exact ⟨rfl, rfl, rfl, rfl⟩
  | some d =>
      obtain ⟨hintedZ, pendingZ, heq⟩ := l.append_eq_of_current line hcurrent
      rw [heq]
      exact ⟨rfl, rfl, rfl, rfl⟩

theorem keeps_closeLayer (l : Layout) : Keeps l l.closeLayer := by
  unfold closeLayer
  split
  · exact ⟨rfl, rfl, rfl, rfl⟩
  · split <;> exact ⟨rfl, rfl, rfl, rfl⟩

theorem keeps_openLayer (l : Layout) (line : ScannedLine) (openedZ : Option Float) :
    Keeps l (l.openLayer line openedZ) := by
  obtain ⟨w, hintedZ, heq⟩ := l.openLayer_eq line openedZ
  have htaken : Keeps (l.warn w) ((l.warn w).takeBack line.before.object
      ((l.leadIn.map LeadIn.entry).getD line.before.machine)
      ((l.leadIn.map LeadIn.length).getD 0)).1 := by
    unfold takeBack
    split <;> exact ⟨rfl, rfl, rfl, rfl⟩
  have hclosed := ((l.keeps_warn w).trans htaken).trans (keeps_closeLayer _)
  rw [heq]
  exact ⟨hclosed.detection, hclosed.lastNumber, hclosed.topZ, hclosed.ending⟩

/-- A line that opens no layer shows the problem of its marker behind the newest opener. -/
def Tells (R : Rule κ) (line : ScannedLine) : Prop :=
  ∀ {l : Layout} {last : Option ScannedLine}, l.line = line.index → l.Knows R last →
    (∀ k ∈ R.key line, ∃ t ∈ last.bind R.key, ¬ t < k) →
      l.openAt line = l.warn (line.problemBehind last)

theorem tells_markers (line : ScannedLine) : Tells Rule.markers line := by
  intro l last hindex hknows hquiet
  have hlast : l.lastNumber = last.bind ScannedLine.layerNumber := hknows.top
  have hdetection : l.detection = .markers := hknows.detection
  unfold openAt
  simp only [hdetection]
  cases hkey : line.layerNumber with
  | none =>
      rw [ScannedLine.problemBehind_of_silent hkey]
      split
      · rename_i number total hmarker
        rw [ScannedLine.layerNumber, hmarker] at hkey
        exact absurd hkey (by simp)
      · rfl
  | some k =>
      obtain ⟨total, hmarker⟩ := ScannedLine.marker_of_layerNumber hkey
      obtain ⟨t, ht, hnot⟩ := hquiet k hkey
      obtain ⟨opener, rfl, hopener⟩ := Option.bind_eq_some_iff.mp ht
      have hnumber : opener.layerNumber = some t := hopener
      rw [Option.bind_some, hnumber] at hlast
      simp only [hmarker, hlast, ScannedLine.problemBehind, Option.bind_some,
        ScannedLine.markerProblem, hnumber, hkey, Option.map_some, if_pos (Nat.le_of_not_lt hnot), hindex]

theorem tells_zHeight (hsilent : line.layerNumber = none) : Tells Rule.zHeight line := by
  intro l last _ hknows hquiet
  have hlast : l.topZ = last.bind ScannedLine.commandedZ := hknows.top
  have hdetection : l.detection = .zHeight := hknows.detection
  rw [ScannedLine.problemBehind_of_silent hsilent]
  unfold openAt
  simp only [hdetection]
  split
  · rename_i hmoves
    have hkey : line.commandedZ = some line.next.machine.z :=
      ScannedLine.commandedZ_eq_some_iff.mpr ⟨hmoves, rfl⟩
    obtain ⟨t, ht, hnot⟩ := hquiet _ hkey
    have htop : l.topZ = some t := hlast.trans ht
    simp [htop, hnot, warn]
  · rfl

/-- What a line in front of the end sequence does: it begins the end sequence, it opens a layer,
or it goes on behind the newest opener. -/
inductive Takes (R : Rule κ) (last : Option ScannedLine) (line : ScannedLine) (l next : Layout) :
    Prop where
  | ends (tail : EndSequence) (hending : next.ending = some tail)
      (hcommands : tail.commands.toList = [line.command])
      (hwarnings : next.warnings.toList = l.warnings.toList ++ line.warning.toList)
  | opens (hopen : next.ending = none) (k : κ) (hkey : R.key line = some k)
      (habove : ∀ t ∈ last.bind R.key, t < k) (hknows : Knows R (some line) next)
      (hwarnings : next.warnings.toList =
        l.warnings.toList ++ line.warning.toList ++ line.boundaryProblem.toList)
  | stays (hopen : next.ending = none) (hquiet : ∀ k ∈ R.key line, ∃ t ∈ last.bind R.key, ¬ t < k)
      (hknows : Knows R last next)
      (hwarnings : next.warnings.toList = l.warnings.toList ++ line.warning.toList ++
        (line.problemBehind last).toList)

theorem Knows.openAt (h : Knows R last l) (hindex : l.line = line.index) (htells : Tells R line) :
    (∃ k, R.key line = some k ∧ (∀ t ∈ last.bind R.key, t < k) ∧
        Knows R (some line) (l.openAt line) ∧
        (l.openAt line).warnings = (l.warn line.boundaryProblem).warnings) ∨
      (∀ k ∈ R.key line, ∃ t ∈ last.bind R.key, ¬ t < k) ∧ Knows R last (l.openAt line) ∧
        (l.openAt line).warnings =
          (l.warn (line.problemBehind last)).warnings := by
  have hcases := R.openAt l line h.detection
  rw [h.top] at hcases
  rcases hcases with ⟨-, hquiet⟩ | ⟨k, lastNumber, topZ, hkey, habove, htop, heq⟩
  · rw [htells hindex h hquiet]
    exact Or.inr ⟨hquiet, (l.keeps_warn _).knows h, rfl⟩
  · have hkeeps := keeps_openLayer { l with lastNumber, topZ } line (R.height line)
    refine Or.inl ⟨k, hkey, habove, ?_, ?_⟩
    · rw [heq]
      exact hkeeps.knows ⟨h.detection, htop.trans hkey.symm⟩
    · rw [heq, warnings_openLayer_eq, ScannedLine.boundaryProblem, ← hindex, warn_eq, warn_eq]
      cases line.before.object <;> rfl

theorem Knows.read (h : Knows R last l) (hopen : l.ending = none) (text : String)
    (htells : Tells R (l.context.scan l.line text)) :
    Takes R last (l.context.scan l.line text) l (l.read text) := by
  have hindex : l.line = (l.context.scan l.line text).index := by
    rw [ScannedLine.index, Context.line_scan]
    rfl
  unfold Layout.read push
  generalize l.context.scan l.line text = line at hindex htells ⊢
  have hwarned := (l.keeps_warn line.warning).knows h
  have hline : (l.warn line.warning).line = line.index := (l.frame_warn _).line.trans hindex
  have hstill : (l.warn line.warning).ending = none :=
    (l.keeps_warn line.warning).ending.trans hopen
  have hwarnings := l.warnings_warn line.warning
  rcases place_of_ending_eq_none line hstill with ⟨-, -, heq⟩ | ⟨-, heq⟩
  · rw [heq]
    refine .ends _ rfl rfl ?_
    rw [← hwarnings]
    exact congrArg Array.toList (warnings_closeLayer _)
  · rw [heq]
    have hkept := keeps_append ((l.warn line.warning).openAt line) line
    have hsame := (((l.warn line.warning).openAt line).warnings_append line).1
    have hending : (((l.warn line.warning).openAt line).append line).ending = none :=
      hkept.ending.trans ((((l.warn line.warning).frame_openAt line).ending).trans hstill)
    rcases hwarned.openAt hline htells with ⟨k, hkey, habove, hknows, hadded⟩ |
      ⟨hquiet, hknows, hadded⟩
    · have hnext := hkept.knows hknows
      refine .opens hending k hkey habove ⟨hnext.detection, hnext.top⟩ ?_
      rw [← hwarnings, ← warnings_warn]
      exact congrArg Array.toList (hsame.trans hadded)
    · have hnext := hkept.knows hknows
      refine .stays hending hquiet ⟨hnext.detection, hnext.top⟩ ?_
      rw [← hwarnings, ← warnings_warn]
      exact congrArg Array.toList (hsame.trans hadded)

theorem ended_foldl {tail : EndSequence} (h : l.ending = some tail) (lines : List String) :
    ∃ tail', (lines.foldl Layout.read l).ending = some tail' ∧
      tail'.commands.toList = tail.commands.toList ++
        (scanLines l.context l.line lines).map ScannedLine.command ∧
      (lines.foldl Layout.read l).warnings.toList = l.warnings.toList ++
        (scanLines l.context l.line lines).filterMap ScannedLine.warning := by
  induction lines generalizing l tail with
  | nil => exact ⟨tail, h, (List.append_nil _).symm, (List.append_nil _).symm⟩
  | cons text lines ih =>
      have hnext : ∃ next, (l.read text).ending = some next ∧
          next.commands.toList =
            tail.commands.toList ++ [(l.context.scan l.line text).command] ∧
          (l.read text).warnings.toList =
            l.warnings.toList ++ (l.context.scan l.line text).warning.toList := by
        unfold Layout.read push
        generalize l.context.scan l.line text = line
        have hstill := (l.keeps_warn line.warning).ending.trans h
        rw [place_of_ending_eq_some line hstill]
        exact ⟨_, rfl, Array.toList_push, l.warnings_warn line.warning⟩
      obtain ⟨next, hending, hcommands, hwarnings⟩ := hnext
      obtain ⟨last, hlast, hall, hadded⟩ := ih hending
      rw [context_read, line_read] at hall hadded
      rw [List.foldl_cons]
      refine ⟨last, hlast, ?_, ?_⟩
      · rw [hall, hcommands, scanLines, List.map_cons, List.append_assoc, List.singleton_append]
      · rw [hadded, hwarnings, scanLines, List.filterMap_cons]
        cases (l.context.scan l.line text).warning <;> simp

/-- Reading lines finds the problems of the lines in front of the end sequence, and those of the
markers in it. -/
theorem Knows.foldl {lines : List String} (h : Knows R last l) (hopen : l.ending = none)
    (htells : ∀ line ∈ scanLines l.context l.line lines, Tells R line) :
    ∃ body tail problems, scanLines l.context l.line lines = body ++ tail ∧
      Noted R.key last body problems ∧
      (lines.foldl Layout.read l).warnings.toList =
        l.warnings.toList ++ problems ++ tail.filterMap ScannedLine.warning ∧
      (((lines.foldl Layout.read l).ending.map fun ending =>
        ending.commands.toList).getD []) = tail.map ScannedLine.command := by
  induction lines generalizing l last with
  | nil =>
      refine ⟨[], [], [], rfl, .nil, by simp, ?_⟩
      rw [List.foldl_nil, hopen]
      rfl
  | cons text lines ih =>
      rw [scanLines] at htells ⊢
      obtain ⟨hline, hlines⟩ := List.forall_mem_cons.mp htells
      rw [← context_read, ← line_read l text] at hlines ⊢
      have htakes := h.read hopen text hline
      generalize l.context.scan l.line text = line at htakes ⊢
      rw [List.foldl_cons]
      cases htakes with
      | ends tail hending hcommands hwarnings =>
          obtain ⟨ending, hlast, hall, hadded⟩ := ended_foldl hending lines
          refine ⟨[], _, [], rfl, .nil, ?_, ?_⟩
          · rw [hadded, hwarnings, List.filterMap_cons]
            cases line.warning <;> simp
          · rw [hlast, Option.map_some, Option.getD_some, hall, hcommands]
            rfl
      | opens hstill k hkey habove hknows hwarnings =>
          obtain ⟨body, tail, problems, hsplit, hnoted, hadded, hcommands⟩ := ih hknows hstill hlines
          refine ⟨line :: body, tail, _, by rw [hsplit]; rfl, .opens hkey habove hnoted, ?_,
            hcommands⟩
          rw [hadded, hwarnings]
          simp only [List.append_assoc]
      | stays hstill hquiet hknows hwarnings =>
          obtain ⟨body, tail, problems, hsplit, hnoted, hadded, hcommands⟩ := ih hknows hstill hlines
          refine ⟨line :: body, tail, _, by rw [hsplit]; rfl, .stays hquiet hnoted, ?_, hcommands⟩
          rw [hadded, hwarnings]
          simp only [List.append_assoc]

theorem behind_foldl {seen : List ScannedLine} (h : l.context.Behind seen) (lines : List String) :
    (lines.foldl Layout.read l).context.Behind (seen ++ scanLines l.context l.line lines) := by
  induction lines generalizing l seen with
  | nil => rwa [scanLines, List.append_nil]
  | cons text lines ih =>
      have hrest := ih (l := l.read text) (h.scan l.line text)
      rw [context_read, line_read, List.append_assoc, List.singleton_append] at hrest
      rwa [List.foldl_cons, scanLines]

theorem postamble_finish (l : Layout) (lineEnding : LineEnding) :
    (l.finish lineEnding).postamble =
      (l.ending.map fun ending => ending.commands.toList).getD [] := by
  rw [← l.keeps_closeLayer.ending, ← (l.closeLayer.keeps_warn
    (l.context.sequence.map Warning.unterminatedToolChange)).ending]
  rfl

end Layout

/-- A rule tells the problem of every line that opens no layer, and a line without a key for it
carries no layer marker. -/
structure Rule.Finds (R : Rule κ) (lines : List ScannedLine) : Prop where
  tells : ∀ line ∈ lines, Layout.Tells R line
  silent : ∀ line ∈ lines, R.key line = none → line.layerNumber = none

namespace Program

theorem exists_cutBy_warnings (R : Rule κ) {lines : List String} (lineEnding : LineEnding)
    (hrule : (if Marker.anyLayer lines then .markers else .zHeight) = R.detection)
    (hfinds : R.Finds (scanLines {} 0 lines)) :
    ∃ front slices tail, CutBy R (scanLines {} 0 lines) front slices tail
        (ofLines lines lineEnding) ∧
      (ofLines lines lineEnding).warnings = front.filterMap ScannedLine.warning ++
        slices.flatMap Slice.problems ++ tail.filterMap ScannedLine.warning ++
        ((openSequence (scanLines {} 0 lines)).map .unterminatedToolChange).toList := by
  obtain ⟨front, slices, tail, hcut⟩ := exists_cutBy R lines lineEnding hrule
  refine ⟨front, slices, tail, hcut, ?_⟩
  have hpostamble := hcut.postamble
  have hstart : Layout.Knows R none { detection := R.detection } := ⟨rfl, R.top_start⟩
  have hbehind := Layout.behind_foldl (l := { detection := R.detection }) Context.behind_nil lines
  obtain ⟨body, tail', problems, hsplit, hnoted, hwarnings, hending⟩ :=
    hstart.foldl rfl hfinds.tells
  rw [ofLines, hrule] at hpostamble ⊢
  rw [Layout.postamble_finish, hending] at hpostamble
  rw [warnings_finish, hwarnings, hbehind.sequence]
  -- The end sequence is the same for the cut and for the warnings, so the lines before it are.
  have hlines := hcut.lines.trans hsplit
  obtain ⟨rfl, rfl⟩ := List.append_inj' hlines.symm (by simpa using congrArg List.length hpostamble)
  have hsilent (line : ScannedLine) (hline : line ∈ front ++ slices.flatMap Slice.lines)
      (hkey : R.key line = none) : line.layerNumber = none :=
    hfinds.silent line (hsplit ▸ List.mem_append_left _ hline) hkey
  obtain ⟨more, hmore, rfl⟩ := hnoted.of_quiet fun line hline k hk => by
    rw [hcut.cuts.outside line hline] at hk
    exact absurd hk (by simp)
  obtain ⟨keys, hkeys, hpairwise⟩ := hcut.cuts.opens
  have hleads (s : Slice) (hs : s ∈ slices) (line : ScannedLine) (hline : line ∈ s.lead) :
      R.key line = none ∧ line.layerNumber = none := by
    have hkey := hcut.cuts.key_of_mem_lead hs line hline
    refine ⟨hkey, hsilent line (List.mem_append_right _ ?_) hkey⟩
    exact List.mem_flatMap.mpr ⟨s, hs, List.mem_append_left _ hline⟩
  rw [hmore.of_slices hleads hcut.cuts.quiet hkeys hpairwise (by simp),
    problems_of_silent fun line hline => hsilent line (List.mem_append_left _ hline)
      (hcut.cuts.outside line hline)]
  rfl

end Program

theorem Slice.problems_eq_nil_iff (s : Slice) :
    s.problems = [] ↔ (∀ line ∈ s.lines, line.warning = none) ∧ s.opener.before.object = none ∧
      ∀ line ∈ s.rest, s.opener.markerProblem line = none := by
  simp only [problems, lines, ScannedLine.boundaryProblem, List.append_eq_nil_iff,
    List.filterMap_eq_nil_iff, Option.toList_eq_nil_iff, Option.map_eq_none_iff,
    List.flatMap_eq_nil_iff, List.forall_mem_append, List.forall_mem_cons]
  grind

section Rising

variable {front : List ScannedLine} {slices : List Slice}

theorem Rises.numbers_eq (h : Rises ScannedLine.layerNumber front slices)
    (hsilent : ∀ s ∈ slices, ∀ line ∈ s.rest, line.layerNumber = none) :
    (front ++ slices.flatMap Slice.lines).filterMap ScannedLine.layerNumber =
      slices.filterMap fun s => s.opener.layerNumber := by
  rw [List.filterMap_append, List.filterMap_eq_nil_iff.mpr h.outside, List.nil_append,
    List.filterMap_flatMap, List.filterMap_eq_flatMap_toList _ slices]
  refine List.flatMap_congr fun s hs => ?_
  rw [Slice.lines, List.filterMap_append, List.filterMap_eq_nil_iff.mpr (h.leads s hs),
    List.filterMap_cons, List.filterMap_eq_nil_iff.mpr (hsilent s hs)]
  cases s.opener.layerNumber <;> rfl

/-- Layer markers rise exactly where none of them is found late. -/
theorem Rises.pairwise_iff (h : Rises ScannedLine.layerNumber front slices) :
    ((front ++ slices.flatMap Slice.lines).filterMap ScannedLine.layerNumber).Pairwise (· < ·) ↔
      ∀ s ∈ slices, ∀ line ∈ s.rest, s.opener.markerProblem line = none := by
  obtain ⟨keys, hkeys, hpairwise⟩ := h.opens
  have hopener (s : Slice) (hs : s ∈ slices) : ∃ k, s.opener.layerNumber = some k := by
    have hmem : s.opener.layerNumber ∈ keys.map some := hkeys ▸ List.mem_map_of_mem hs
    obtain ⟨k, -, hk⟩ := List.mem_map.mp hmem
    exact ⟨k, hk.symm⟩
  constructor
  · intro hrising s hs line hline
    obtain ⟨k, hk⟩ := hopener s hs
    apply ScannedLine.markerProblem_of_silent
    rw [Option.eq_none_iff_forall_ne_some]
    intro j hj
    -- The number of the opener stands in front of that of the line, but it is not below it.
    obtain ⟨earlier, later, rfl⟩ := List.append_of_mem hs
    have hsub : [s.opener, line].Sublist (front ++ (earlier ++ s :: later).flatMap Slice.lines) := by
      have hlines : [s.opener, line].Sublist s.lines :=
        ((List.singleton_sublist.mpr hline).cons_cons _).trans (List.sublist_append_right _ _)
      refine (hlines.trans ?_).trans (List.sublist_append_right _ _)
      rw [List.flatMap_append, List.flatMap_cons]
      exact (List.sublist_append_left _ _).trans (List.sublist_append_right _ _)
    have hpair := hrising.sublist (hsub.filterMap ScannedLine.layerNumber)
    simp only [List.filterMap_cons, hk, hj, List.filterMap_nil, List.pairwise_cons,
      List.mem_singleton, forall_eq] at hpair
    exact h.quiet s hs k hk line hline j hj hpair.1
  · intro hlate
    have hsilent : ∀ s ∈ slices, ∀ line ∈ s.rest, line.layerNumber = none := by
      intro s hs line hline
      obtain ⟨k, hk⟩ := hopener s hs
      have hnone := hlate s hs line hline
      rwa [ScannedLine.markerProblem, hk, Option.bind_some, Option.map_eq_none_iff] at hnone
    have hnumbers : (slices.filterMap fun s => s.opener.layerNumber) = keys := by
      have hall := congrArg (List.filterMap id) hkeys
      rwa [List.filterMap_map, List.filterMap_map, Function.id_comp, Function.id_comp,
        List.filterMap_some] at hall
    rw [h.numbers_eq hsilent, hnumbers]
    exact hpairwise

theorem pairwise_iff_of_silent
    (h : ∀ line ∈ front ++ slices.flatMap Slice.lines, line.layerNumber = none) :
    ((front ++ slices.flatMap Slice.lines).filterMap ScannedLine.layerNumber).Pairwise (· < ·) ↔
      ∀ s ∈ slices, ∀ line ∈ s.rest, s.opener.markerProblem line = none := by
  refine iff_of_true ?_ fun s hs line hline => ScannedLine.markerProblem_of_silent ?_ s.opener
  · rw [List.filterMap_eq_nil_iff.mpr h]
    exact List.Pairwise.nil
  · refine h line (List.mem_append_right _ (List.mem_flatMap.mpr ⟨s, hs, ?_⟩))
    exact List.mem_append_right _ (List.mem_cons_of_mem _ hline)

end Rising

namespace Program

/-- Lines nest well: their markers nest, every sequence is closed, no object is open where a layer
begins, and the numbers of the layer markers in front of the end sequence rise. -/
structure WellNested (scanned front : List ScannedLine) (slices : List Slice) : Prop where
  markers : ∃ n, ({} : Nesting).read (scanned.map ScannedLine.command) = some n ∧ n.sequence = false
  boundaries : ∀ s ∈ slices, s.opener.before.object = none
  numbers : ((front ++ slices.flatMap Slice.lines).filterMap ScannedLine.layerNumber).Pairwise
    (· < ·)

theorem markers_nest_iff (lines : List String) :
    (∃ n, ({} : Nesting).read ((scanLines {} 0 lines).map ScannedLine.command) = some n ∧
        n.sequence = false) ↔
      (∀ line ∈ scanLines {} 0 lines, line.warning = none) ∧
        openSequence (scanLines {} 0 lines) = none := by
  have hread := Context.behind_nil.read_eq_some_iff 0 lines
  rw [List.nil_append] at hread
  constructor
  · rintro ⟨n, hn, hsequence⟩
    obtain ⟨hwarning, rfl⟩ := (hread n).mp hn
    exact ⟨hwarning, Option.isNone_iff_eq_none.mp (Option.isSome_eq_false_iff.mp hsequence)⟩
  · rintro ⟨hwarning, hsequence⟩
    refine ⟨_, (hread _).mpr ⟨hwarning, rfl⟩, ?_⟩
    rw [hsequence]
    rfl

theorem problems_eq_nil_iff {lines : List String} {front tail : List ScannedLine}
    {slices : List Slice}
    (hlines : front ++ slices.flatMap Slice.lines ++ tail = scanLines {} 0 lines)
    (hnumbers : ((front ++ slices.flatMap Slice.lines).filterMap
        ScannedLine.layerNumber).Pairwise (· < ·) ↔
      ∀ s ∈ slices, ∀ line ∈ s.rest, s.opener.markerProblem line = none) :
    front.filterMap ScannedLine.warning ++ slices.flatMap Slice.problems ++
        tail.filterMap ScannedLine.warning ++
        ((openSequence (scanLines {} 0 lines)).map .unterminatedToolChange).toList = [] ↔
      WellNested (scanLines {} 0 lines) front slices := by
  have hmarkers := markers_nest_iff lines
  have hwarnings : (∀ line ∈ scanLines {} 0 lines, line.warning = none) ↔
      (∀ line ∈ front, line.warning = none) ∧ (∀ s ∈ slices, ∀ line ∈ s.lines, line.warning = none) ∧
        ∀ line ∈ tail, line.warning = none := by
    rw [← hlines, List.forall_mem_append, List.forall_mem_append, and_assoc]
    simp only [List.mem_flatMap, forall_exists_index, and_imp]
    grind
  rw [hwarnings] at hmarkers
  simp only [List.append_eq_nil_iff, List.filterMap_eq_nil_iff, List.flatMap_eq_nil_iff,
    Slice.problems_eq_nil_iff, Option.toList_eq_nil_iff, Option.map_eq_none_iff]
  constructor
  · rintro ⟨⟨⟨hfront, hslices⟩, htail⟩, hsequence⟩
    exact ⟨hmarkers.mpr ⟨⟨hfront, fun s hs => (hslices s hs).1, htail⟩, hsequence⟩,
      fun s hs => (hslices s hs).2.1, hnumbers.mpr fun s hs => (hslices s hs).2.2⟩
  · rintro ⟨hnest, hboundaries, hrising⟩
    obtain ⟨⟨hfront, hslices, htail⟩, hsequence⟩ := hmarkers.mp hnest
    exact ⟨⟨⟨hfront, fun s hs => ⟨hslices s hs, hboundaries s hs, hnumbers.mp hrising s hs⟩⟩, htail⟩,
      hsequence⟩

/-- Warnings are exact. A line shows the problem of its marker: a stop of an object, whatever its
label, or a closer where the lines in front leave none open, or an opener where they leave a
sequence open. The warnings are these problems in line order and, with each layer, an object that
is open where the layer begins and the layer markers that are not above its own, and at last the
sequence that is never closed; so there are none exactly for lines that nest well. -/
theorem ofLines_warnings (lines : List String) (lineEnding : LineEnding) :
    let p := ofLines lines lineEnding
    let scanned := scanLines {} 0 lines
    (∀ seen line behind, scanned = seen ++ line :: behind →
      line.command.line = some seen.length ∧ line.before.object = openObject seen ∧
        ∀ w, line.warning = some w ↔ Misnests seen line w) ∧
    ∃ front slices tail, CutAt scanned front slices tail p ∧
      (p.detection = .markers →
        Rises ScannedLine.layerNumber front slices ∧ ∀ s ∈ slices, s.lead = []) ∧
      (p.detection = .zHeight → Rises ScannedLine.commandedZ front slices ∧
        ∀ line ∈ scanned, line.layerNumber = none) ∧
      p.warnings = front.filterMap ScannedLine.warning ++ slices.flatMap Slice.problems ++
        tail.filterMap ScannedLine.warning ++
        ((openSequence scanned).map .unterminatedToolChange).toList ∧
      (p.warnings = [] ↔ WellNested scanned front slices) := by
  intro p scanned
  refine ⟨fun seen line behind h => shows_of_scanLines h, ?_⟩
  have hdetection : p.detection = if Marker.anyLayer lines then .markers else .zHeight :=
    detection_ofLines lines lineEnding
  cases hlayer : Marker.anyLayer lines with
  | true =>
      have hfinds : Rule.markers.Finds scanned :=
        ⟨fun line _ => Layout.tells_markers line, fun _ _ h => h⟩
      obtain ⟨front, slices, tail, hcut, hwarnings⟩ :=
        exists_cutBy_warnings Rule.markers lineEnding (if_pos hlayer) hfinds
      have hrises : Rises ScannedLine.layerNumber front slices := hcut.cuts.rises
      have hmode : p.detection = .markers := hdetection.trans (if_pos hlayer)
      refine ⟨front, slices, tail, hcut.cutAt, fun _ => ⟨hrises, fun s hs => ?_⟩,
        fun h => ?_, hwarnings, ?_⟩
      · obtain ⟨earlier, later, hslices⟩ := List.append_of_mem hs
        exact hcut.cuts.lead_eq hslices
      · exact absurd (hmode.symm.trans h) (by decide)
      · rw [hwarnings]
        exact problems_eq_nil_iff hcut.lines hrises.pairwise_iff
  | false =>
      have hsilent : ∀ line ∈ scanned, line.layerNumber = none := layerNumber_eq_none hlayer
      have hfinds : Rule.zHeight.Finds scanned :=
        ⟨fun line hline => Layout.tells_zHeight (hsilent line hline), fun line hline _ =>
          hsilent line hline⟩
      have hrule : (if Marker.anyLayer lines then Detection.markers else .zHeight) = .zHeight :=
        if_neg (by simp [hlayer])
      obtain ⟨front, slices, tail, hcut, hwarnings⟩ :=
        exists_cutBy_warnings Rule.zHeight lineEnding hrule hfinds
      have hmode : p.detection = .zHeight := hdetection.trans hrule
      have hbody : ∀ line ∈ front ++ slices.flatMap Slice.lines, line.layerNumber = none := by
        intro line hline
        have hmem := List.mem_append_left tail hline
        rw [hcut.lines] at hmem
        exact hsilent line hmem
      refine ⟨front, slices, tail, hcut.cutAt, fun h => ?_, fun _ => ⟨hcut.cuts.rises, hsilent⟩,
        hwarnings, ?_⟩
      · exact absurd (hmode.symm.trans h) (by decide)
      · rw [hwarnings]
        exact problems_eq_nil_iff hcut.lines (pairwise_iff_of_silent hbody)

/-- The stop of another object closes the open one. -/
theorem ofLines_accepts_other_stop :
    let lines := ["; start printing object, unique label id: 1",
      "; stop printing object, unique label id: 2"]
    let scanned := scanLines {} 0 lines
    openObject (scanned.take 1) = some "1" ∧
      scanned[1]?.bind ScannedLine.marker = some (.objectStop "2") ∧
      (ofLines lines .lf).warnings = [] := by
  decide +kernel

end Program

end ToolBatching
