import ToolBatching.Proofs.Reading.Detection
import ToolBatching.Proofs.TextLines

namespace ToolBatching

section Pieces

variable {α : Type}

theorem append_cons_inj_of {p : α → Prop} {front front' back back' : List α} {a a' : α}
    (h : front ++ a :: back = front' ++ a' :: back') (hfront : ∀ x ∈ front, ¬ p x)
    (hfront' : ∀ x ∈ front', ¬ p x) (ha : p a) (ha' : p a') :
    front = front' ∧ a :: back = a' :: back' := by
  rcases List.append_eq_append_iff.mp h with ⟨middle, rfl, hback⟩ | ⟨middle, rfl, hback⟩
  · cases middle with
    | nil => exact ⟨(List.append_nil front).symm, hback⟩
    | cons x middle =>
        obtain ⟨rfl, -⟩ := List.cons.inj hback
        exact absurd ha (hfront' a (by simp))
  · cases middle with
    | nil => exact ⟨List.append_nil front', hback.symm⟩
    | cons x middle =>
        obtain ⟨rfl, -⟩ := List.cons.inj hback
        exact absurd ha' (hfront a' (by simp))

theorem prefix_of_append_eq {ends : α → Prop} {front back front' back' : List α}
    (h : front ++ back = front' ++ back') (hfront : ∀ x ∈ front, ¬ ends x)
    (hback' : ∀ x ∈ back'.head?, ends x) : front <+: front' := by
  rcases List.append_eq_append_iff.mp h with ⟨middle, rfl, -⟩ | ⟨middle, rfl, hback⟩
  · exact List.prefix_append front middle
  · cases middle with
    | nil => exact ⟨[], by simp⟩
    | cons x middle =>
        rw [hback] at hback'
        exact absurd (hback' x rfl) (hfront x (by simp))

/-- The elements of pieces in a row, each piece with its opener. -/
def pieces (items : List (α × List α)) : List α :=
  items.flatMap fun item => item.1 :: item.2

@[simp]
theorem pieces_cons (item : α × List α) (items : List (α × List α)) :
    pieces (item :: items) = item.1 :: (item.2 ++ pieces items) :=
  rfl

theorem mem_pieces {item : α × List α} {items : List (α × List α)} (h : item ∈ items) :
    item.1 ∈ pieces items :=
  List.mem_flatMap.mpr ⟨item, h, List.mem_cons_self⟩

/-- The keys of the openers ascend. -/
def Ascends (key : α → Option Nat) (items : List (α × List α)) : Prop :=
  items.Pairwise fun c d => ∃ k ∈ key c.1, ∃ j ∈ key d.1, k < j

/-- Pieces that are cut at ascending keys from blocks with ascending keys are the blocks, as
long as there are as many of them; the last one may lose its end or take on `closing`. -/
theorem forall₂_of_pieces_eq {key : α → Option Nat} {ends : α → Prop}
    {items blocks : List (α × List α)} {tail closing post : List α}
    (heq : pieces items ++ tail = pieces blocks ++ (closing ++ post))
    (hlength : items.length = blocks.length)
    (hitems : Ascends key items) (hblocks : Ascends key blocks)
    (hquiet : ∀ c ∈ items, ∀ k ∈ key c.1, ∀ a ∈ c.2, ∀ j ∈ key a, ¬ k < j)
    (hkeyless : ∀ b ∈ blocks, ∀ a ∈ b.2, key a = none)
    (hends : ∀ c ∈ items, ∀ a ∈ c.2, ¬ ends a) (htail : ∀ a ∈ tail.head?, ends a)
    (hpost : ∀ a ∈ post.head?, ends a)
    (hfirst : ∀ b ∈ blocks, ∃ a rest, b.2 = a :: rest ∧ ¬ ends a) :
    List.Forall₂ (fun b c => c.1 = b.1 ∧ c.2 ≠ [] ∧ c.2 <+: b.2 ++ closing) blocks items := by
  induction blocks generalizing items with
  | nil =>
      obtain rfl := List.length_eq_zero_iff.mp hlength
      exact .nil
  | cons b blocks ih =>
      obtain ⟨c, items, rfl⟩ := List.exists_cons_of_length_eq_add_one hlength
      obtain ⟨opener, rest⟩ := c
      obtain ⟨head, more⟩ := b
      obtain ⟨hcItems, hitems'⟩ := List.pairwise_cons.mp hitems
      obtain ⟨hbBlocks, hblocks'⟩ := List.pairwise_cons.mp hblocks
      obtain ⟨hcQuiet, hquiet'⟩ := List.forall_mem_cons.mp hquiet
      obtain ⟨hbKeyless, hkeyless'⟩ := List.forall_mem_cons.mp hkeyless
      obtain ⟨hcEnds, hends'⟩ := List.forall_mem_cons.mp hends
      obtain ⟨⟨first, others, hmore, hfirstQuiet⟩, hfirst'⟩ := List.forall_mem_cons.mp hfirst
      simp only at hmore hcItems hbBlocks hcQuiet hbKeyless hcEnds
      simp only [pieces_cons, List.cons_append] at heq
      obtain ⟨rfl, hbehind⟩ := List.cons.inj heq
      rw [List.append_assoc, List.append_assoc] at hbehind
      cases blocks with
      | nil =>
          obtain rfl := List.length_eq_zero_iff.mp (Nat.succ.inj hlength)
          change rest ++ tail = more ++ (closing ++ post) at hbehind
          rw [← List.append_assoc] at hbehind
          refine .cons ⟨rfl, ?_, prefix_of_append_eq hbehind hcEnds hpost⟩ .nil
          rintro rfl
          rw [List.nil_append, hmore] at hbehind
          exact hfirstQuiet (htail first (by rw [hbehind]; rfl))
      | cons b' blocks =>
          obtain ⟨c', items, rfl⟩ := List.exists_cons_of_length_eq_add_one (Nat.succ.inj hlength)
          -- Both next openers are the first element with a key above the one of `opener`.
          obtain ⟨k, hk, j, hj, hlt⟩ := hcItems c' List.mem_cons_self
          obtain ⟨k', hk', j', hj', hlt'⟩ := hbBlocks b' List.mem_cons_self
          obtain rfl : k = k' := Option.some.inj (hk.symm.trans hk')
          rw [pieces_cons, pieces_cons, List.cons_append, List.cons_append] at hbehind
          obtain ⟨hrest, hnext⟩ := append_cons_inj_of (p := fun a => ∃ j ∈ key a, k < j) hbehind
            (fun a ha ⟨j, hj, hlt⟩ => hcQuiet k hk a ha j hj hlt)
            (fun a ha ⟨j, hj, _⟩ => by rw [hbKeyless a ha] at hj; exact absurd hj (by simp))
            ⟨j, hj, hlt⟩ ⟨j', hj', hlt'⟩
          refine .cons ⟨rfl, ?_, ?_⟩ (ih hnext (Nat.succ.inj hlength) hitems' hblocks'
            hquiet' hkeyless' hends' hfirst')
          · rw [hrest, hmore]
            simp
          · rw [hrest]
            exact List.prefix_append more closing

theorem forall₂_trans {β γ : Type} {first : α → β → Prop} {second : β → γ → Prop}
    {both : α → γ → Prop} {as : List α} {bs : List β} {cs : List γ}
    (hfirst : List.Forall₂ first as bs) (hsecond : List.Forall₂ second bs cs)
    (h : ∀ a, ∀ b ∈ bs, ∀ c ∈ cs, first a b → second b c → both a c) :
    List.Forall₂ both as cs := by
  induction hfirst generalizing cs with
  | nil =>
      obtain rfl := List.forall₂_nil_left_iff.mp hsecond
      exact .nil
  | cons hab _ ih =>
      obtain ⟨c, cs, hbc, hrest, rfl⟩ := List.forall₂_cons_left_iff.mp hsecond
      refine .cons (h _ _ List.mem_cons_self _ List.mem_cons_self hab hbc) (ih hrest ?_)
      exact fun a b hb c hc => h a b (List.mem_cons_of_mem _ hb) c (List.mem_cons_of_mem _ hc)

end Pieces

theorem map_raw_scanLines (ctx : Context) (start : Nat) (raws : List String) :
    (scanLines ctx start raws).map (fun line => line.command.raw) = raws.map Command.trimmed := by
  induction raws generalizing ctx start with
  | nil => rfl
  | cons raw raws ih =>
      rw [scanLines, List.map_cons, ih, ctx.command_scan]
      rfl

namespace Slice

/-- The texts of a slice from its opener on. -/
def texts (s : Slice) : String × List String :=
  (s.opener.command.raw, s.rest.map fun line => line.command.raw)

theorem pieces_texts {slices : List Slice} (h : ∀ s ∈ slices, s.lead = []) :
    pieces (slices.map texts) =
      (slices.flatMap lines).map fun line => line.command.raw := by
  rw [pieces, List.flatMap_map, List.map_flatMap]
  refine List.flatMap_congr fun s hs => ?_
  rw [lines, h s hs]
  rfl

end Slice

namespace Program

/-- The lines of a program with layer markers as texts, each layer with its opener. -/
structure CutTexts (raws front : List String) (slices : List Slice) (tail : List String)
    (p : Program) : Prop where
  layers : List.Forall₂ (fun (s : Slice) (l : Layer) =>
    l.commands.map Command.raw = s.texts.1 :: s.texts.2) slices p.layers
  lines : front ++ (pieces (slices.map Slice.texts) ++ tail) = raws
  front : ∀ raw ∈ front, Marker.numberOf raw = none
  keyed : ∀ c ∈ slices.map Slice.texts, ∃ k, Marker.numberOf c.1 = some k
  ascends : Ascends Marker.numberOf (slices.map Slice.texts)
  quiet : ∀ c ∈ slices.map Slice.texts, ∀ k ∈ Marker.numberOf c.1, ∀ raw ∈ c.2,
    ∀ j ∈ Marker.numberOf raw, ¬ k < j
  ends : ∀ c ∈ slices.map Slice.texts, ∀ raw ∈ c.2,
    Marker.ofCommand (Command.ofText none raw) ≠ some .endOfPrint
  tail : ∀ raw ∈ tail.head?, Marker.ofCommand (Command.ofText none raw) = some .endOfPrint

/-- Where a program with layer markers is cut depends on the texts of its lines alone. -/
theorem CutBy.texts {raws : List String} {front tail : List ScannedLine} {slices : List Slice}
    {p : Program} (h : CutBy Rule.markers (scanLines {} 0 raws) front slices tail p)
    (hlines : ∀ raw ∈ raws, Text.IsLine raw.toList) :
    CutTexts raws (front.map fun line => line.command.raw) slices
      (tail.map fun line => line.command.raw) p := by
  have hleads : ∀ s ∈ slices, s.lead = [] := by
    intro s hs
    obtain ⟨earlier, later, hslices⟩ := List.append_of_mem hs
    exact h.cuts.lead_eq hslices
  have hfront : ∀ line ∈ front, line ∈ scanLines {} 0 raws := by
    intro line hline
    rw [← h.lines]
    exact List.mem_append_left _ (List.mem_append_left _ hline)
  have htail : ∀ line ∈ tail, line ∈ scanLines {} 0 raws := by
    intro line hline
    rw [← h.lines]
    exact List.mem_append_right _ hline
  have hslice : ∀ s ∈ slices, ∀ line ∈ s.lines, line ∈ scanLines {} 0 raws := by
    intro s hs line hline
    rw [← h.lines]
    exact List.mem_append_left _ (List.mem_append_right _ (List.mem_flatMap.mpr ⟨s, hs, hline⟩))
  have hopener : ∀ s ∈ slices, Marker.numberOf s.texts.1 = s.opener.layerNumber := fun s hs =>
    (ScannedLine.layerNumber_eq (hslice s hs _ (by simp [Slice.lines]))).symm
  have hrest : ∀ s ∈ slices, ∀ line ∈ s.rest, line ∈ scanLines {} 0 raws := fun s hs line hline =>
    hslice s hs line (by simp [Slice.lines, hline])
  constructor
  · refine ((List.forall₂_and_left _ _).mpr ⟨hleads, h.layers⟩).imp fun s l hlayer => ?_
    obtain ⟨hlead, hclosed⟩ := hlayer
    rw [hclosed.commands, Slice.commands, Slice.lines, hlead, List.map_map]
    rfl
  · rw [Slice.pieces_texts hleads, ← List.append_assoc, ← List.map_append,
      ← List.map_append, h.lines]
    exact (map_raw_scanLines {} 0 raws).trans (Command.map_trimmed_of_isLine hlines)
  · refine List.forall_mem_map.mpr fun line hline => ?_
    rw [← ScannedLine.layerNumber_eq (hfront line hline)]
    exact h.cuts.outside line hline
  · refine List.forall_mem_map.mpr fun s hs => ?_
    rw [hopener s hs]
    exact h.cuts.exists_key hs
  · obtain ⟨keys, hkeys, hpairwise⟩ := h.cuts.opens
    have hascends : (slices.map fun s => Rule.markers.key s.opener).Pairwise fun a b =>
        ∃ k ∈ a, ∃ j ∈ b, k < j := by
      rw [hkeys]
      exact List.pairwise_map.mpr (hpairwise.imp fun hlt => ⟨_, rfl, _, rfl, hlt⟩)
    refine List.pairwise_map.mpr ((List.pairwise_map.mp hascends).imp_of_mem ?_)
    intro s s' hs hs' hlt
    rw [hopener s hs, hopener s' hs']
    exact hlt
  · refine List.forall_mem_map.mpr fun s hs k hk => List.forall_mem_map.mpr fun line hline j hj => ?_
    rw [hopener s hs] at hk
    rw [← ScannedLine.layerNumber_eq (hrest s hs line hline)] at hj
    exact h.cuts.quiet s hs k hk line hline j hj
  · refine List.forall_mem_map.mpr fun s hs => List.forall_mem_map.mpr fun line hline => ?_
    rw [← marker_eq_of_mem_scanLines (hrest s hs line hline)]
    exact h.cuts.ends s hs line hline
  · intro raw hraw
    rw [List.head?_map] at hraw
    obtain ⟨line, hline, rfl⟩ := Option.map_eq_some_iff.mp hraw
    rw [← marker_eq_of_mem_scanLines (htail line (List.mem_of_mem_head? hline))]
    exact h.begun line hline

end Program

end ToolBatching
