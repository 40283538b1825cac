import Mathlib.Data.List.ModifyLast
import ToolBatching.Proofs.Reading.Cuts
import ToolBatching.Proofs.Reading.Pieces

namespace ToolBatching

section Pieces

variable {α : Type}

theorem append_inj_of_head? {ends : α → Prop} {front front' back back' : List α}
    (h : front ++ back = front' ++ back') (hfront : ∀ x ∈ front, ¬ ends x)
    (hfront' : ∀ x ∈ front', ¬ ends x) (hback : ∀ x ∈ back.head?, ends x)
    (hback' : ∀ x ∈ back'.head?, ends x) : front = front' ∧ back = back' := by
  obtain ⟨more, rfl⟩ := prefix_of_append_eq h hfront hback'
  obtain ⟨less, hless⟩ := prefix_of_append_eq h.symm hfront' hback
  rw [List.append_assoc, List.append_right_eq_self, List.append_eq_nil_iff] at hless
  obtain ⟨rfl, -⟩ := hless
  rw [List.append_nil] at h ⊢
  exact ⟨rfl, List.append_cancel_left h⟩

/-- Pieces that are cut at ascending keys are the blocks that the list was laid in, the last
one with what closes them. -/
theorem items_eq_of_pieces_eq {key : α → Option Nat} {items blocks : List (α × List α)}
    {closing : List α} (hne : blocks ≠ []) (heq : pieces items = pieces blocks ++ closing)
    (hkeyed : ∀ c ∈ items, ∃ k, key c.1 = some k) (hitems : Ascends key items)
    (hblocks : Ascends key blocks)
    (hquiet : ∀ c ∈ items, ∀ k ∈ key c.1, ∀ a ∈ c.2, ∀ j ∈ key a, ¬ k < j)
    (hkeyless : ∀ b ∈ blocks, ∀ a ∈ b.2, key a = none) (hclosing : ∀ a ∈ closing, key a = none) :
    items.map (fun c => c.1 :: c.2) =
      (blocks.map fun b => b.1 :: b.2).modifyLast (· ++ closing) := by
  induction blocks generalizing items with
  | nil => exact absurd rfl hne
  | cons b blocks ih =>
      obtain ⟨head, more⟩ := b
      cases items with
      | nil => exact absurd heq (by simp [pieces])
      | cons c items =>
          obtain ⟨opener, rest⟩ := c
          obtain ⟨hcItems, hitems'⟩ := List.pairwise_cons.mp hitems
          obtain ⟨hbBlocks, hblocks'⟩ := List.pairwise_cons.mp hblocks
          obtain ⟨hcQuiet, hquiet'⟩ := List.forall_mem_cons.mp hquiet
          obtain ⟨hbKeyless, hkeyless'⟩ := List.forall_mem_cons.mp hkeyless
          obtain ⟨-, hkeyed'⟩ := List.forall_mem_cons.mp hkeyed
          simp only at hcItems hbBlocks hcQuiet hbKeyless
          simp only [pieces_cons, List.cons_append] at heq
          obtain ⟨rfl, hbehind⟩ := List.cons.inj heq
          rw [List.append_assoc] at hbehind
          cases blocks with
          | nil =>
              have hnone : ∀ a ∈ rest ++ pieces items, key a = none := by
                rw [hbehind]
                exact List.forall_mem_append.mpr ⟨hbKeyless, hclosing⟩
              cases items with
              | nil =>
                  obtain rfl : rest = more ++ closing := by simpa [pieces] using hbehind
                  rfl
              | cons c' items =>
                  obtain ⟨k, hk⟩ := hkeyed' c' List.mem_cons_self
                  have hkey := hnone c'.1 (by simp)
                  exact absurd (hk.symm.trans hkey) (by simp)
          | cons b' blocks =>
              obtain ⟨k, hk, j, hj, hlt⟩ := hbBlocks b' List.mem_cons_self
              cases items with
              | nil =>
                  have hmem : b'.1 ∈ rest := by
                    rw [show rest = more ++ (pieces (b' :: blocks) ++ closing) by
                      simpa [pieces] using hbehind]
                    simp
                  exact absurd hlt (hcQuiet k hk b'.1 hmem j hj)
              | cons c' items =>
                  -- Both next openers are the first element with a key above the one of `opener`.
                  obtain ⟨k', hk', j', hj', hlt'⟩ := hcItems c' List.mem_cons_self
                  obtain rfl : k = k' := Option.some.inj (hk.symm.trans hk')
                  have hquieter : ∀ a ∈ rest, ¬ ∃ j ∈ key a, k < j := by
                    rintro a ha ⟨j, hj, hlt⟩
                    exact hcQuiet k hk a ha j hj hlt
                  have hkeys : ∀ a ∈ more, ¬ ∃ j ∈ key a, k < j := by
                    rintro a ha ⟨j, hj, -⟩
                    rw [hbKeyless a ha] at hj
                    exact absurd hj (by simp)
                  rw [pieces_cons, pieces_cons, List.cons_append] at hbehind
                  obtain ⟨rfl, hnext⟩ := append_cons_inj_of (p := fun a => ∃ j ∈ key a, k < j)
                    hbehind hquieter hkeys ⟨j', hj', hlt'⟩ ⟨j, hj, hlt⟩
                  have hrest := @ih (c' :: items) (by simp)
                    (by rw [pieces_cons, pieces_cons, List.cons_append, hnext]) hkeyed' hitems'
                    hblocks' hquiet' hkeyless'
                  rw [List.map_cons, hrest, List.map_cons]
                  exact (List.modifyLast_append_of_right_ne_nil _ [_] _ (by simp)).symm

end Pieces

namespace Program

/-- Pieces with ascending layer numbers are read as the layers of a program, and what stands in
front of them and behind them as its ends. -/
theorem ofLines_pieces {items : List (String × List String)} (hne : items ≠ [])
    {front closing ending : List String}
    (hlines : ∀ raw ∈ front ++ (pieces items ++ (closing ++ ending)), Text.IsLine raw.toList)
    (hfront : ∀ raw ∈ front, Marker.numberOf raw = none)
    (hkeyed : ∀ item ∈ items, ∃ k, Marker.numberOf item.1 = some k)
    (hascends : Ascends Marker.numberOf items)
    (hkeyless : ∀ item ∈ items, ∀ raw ∈ item.2, Marker.numberOf raw = none)
    (hclosing : ∀ raw ∈ closing, Marker.numberOf raw = none)
    (hgoes : ∀ raw ∈ pieces items ++ closing,
      Marker.ofCommand (Command.ofText none raw) ≠ some .endOfPrint)
    (hending : ∀ raw ∈ ending.head?, Marker.ofCommand (Command.ofText none raw) = some .endOfPrint)
    {p : Program} {lineEnding : LineEnding}
    (hp : p = ofLines (front ++ (pieces items ++ (closing ++ ending))) lineEnding) :
    p.preamble.map Command.raw = front ∧
      p.layers.map (fun l => l.commands.map Command.raw) =
        (items.map fun item => item.1 :: item.2).modifyLast (· ++ closing) ∧
      p.postamble.map Command.raw = ending := by
  obtain ⟨first, items', hitems⟩ := List.exists_cons_of_ne_nil hne
  obtain ⟨k, hk⟩ := hkeyed first (hitems ▸ List.mem_cons_self)
  have hany : Marker.anyLayer (front ++ (pieces items ++ (closing ++ ending))) = true := by
    have hmem : first.1 ∈ pieces items := mem_pieces (hitems ▸ List.mem_cons_self)
    exact Marker.anyLayer_of_mem (List.mem_append_right front (List.mem_append_left _ hmem))
      List.prefix_rfl hk
  obtain ⟨before, slices, behind, hcut⟩ := exists_cutBy Rule.markers _ lineEnding (if_pos hany)
  rw [← hp] at hcut
  have htexts := hcut.texts hlines
  have hslices : slices ≠ [] := by
    rintro rfl
    have hbehind : behind = [] := by
      by_contra hne
      exact hcut.sliced hne rfl
    subst hbehind
    have hlaid := htexts.lines
    rw [List.map_nil, List.map_nil, List.append_nil, pieces, List.flatMap_nil, List.append_nil]
      at hlaid
    have hnone := htexts.front first.1 (by rw [hlaid, hitems]; simp)
    exact absurd (hk.symm.trans hnone) (by simp)
  obtain ⟨s, slices', hsplit⟩ := List.exists_cons_of_ne_nil hslices
  -- The first layer number divides the lines in front from the layers, both ways.
  have hsame := htexts.lines
  rw [hsplit, hitems, List.map_cons, pieces_cons, pieces_cons, List.cons_append,
    List.cons_append] at hsame
  obtain ⟨hbefore, hlayers⟩ := append_cons_inj_of (p := fun raw => ∃ k, Marker.numberOf raw = some k)
    hsame (fun raw hraw => by simp [htexts.front raw hraw]) (fun raw hraw => by simp [hfront raw hraw])
    (htexts.keyed _ (by rw [hsplit]; exact List.mem_cons_self)) ⟨k, hk⟩
  have hpieces : pieces (slices.map Slice.texts) ++ behind.map (fun line => line.command.raw) =
      (pieces items ++ closing) ++ ending := by
    rw [hsplit, hitems, List.map_cons, pieces_cons, pieces_cons, List.append_assoc]
    exact hlayers
  have hquiet : ∀ raw ∈ pieces (slices.map Slice.texts),
      Marker.ofCommand (Command.ofText none raw) ≠ some .endOfPrint := by
    intro raw hraw
    obtain ⟨c, hc, hraw⟩ := List.mem_flatMap.mp hraw
    rcases List.mem_cons.mp hraw with rfl | hraw
    · obtain ⟨j, hj⟩ := htexts.keyed c hc
      obtain ⟨total, hmarker⟩ := Marker.exists_of_numberOf hj
      simp [hmarker]
    · exact htexts.ends c hc raw hraw
  obtain ⟨hlayers, hpostamble⟩ :=
    append_inj_of_head? hpieces hquiet hgoes htexts.tail hending
  refine ⟨?_, ?_, ?_⟩
  · rw [hcut.preamble, List.map_map]
    exact hbefore
  · rw [← items_eq_of_pieces_eq hne hlayers htexts.keyed htexts.ascends hascends htexts.quiet
      hkeyless hclosing, List.map_map]
    exact map_eq_map_of_forall₂ htexts.layers fun _ _ h => h
  · rw [hcut.postamble, List.map_map]
    exact hpostamble

end Program

end ToolBatching
