import AssetSlots.Proofs.Slot.Terminated

namespace AssetSlots.Slot

open Text

variable {s : Slot} {lines : List (List Char)}

theorem replacement_last (hl : lines ≠ []) (leading content : List Char) :
    (s.markerHit leading content []).replacement lines =
      leading ++ (if leading = [] then ['\n'] else leading).intercalate
        (lines.map (content.takeWhile isBlank ++ ·)) := by
  have hsep : (s.markerHit leading content []).separator =
      if leading = [] then ['\n'] else leading := by
    by_cases h : leading = [] <;> simp [Hit.separator, markerHit, h]
  rw [Hit.replacement, if_neg hl, hsep, markerHit, List.append_nil]

theorem replacement_last_singleton (leading content l : List Char) :
    (s.markerHit leading content []).replacement [l] =
      leading ++ (content.takeWhile isBlank ++ l) := by
  rw [replacement_last (List.cons_ne_nil l []), List.map_singleton, List.intercalate_singleton]

theorem fillFrom_line_last (hs : '\n' ∉ s.token) {x : List Char} (hx : Terminated x) {b : Record}
    (hb : b.Closed) (hbm : ¬ s.IsMarker b.content) {y : List Char} (hy : s.IsMarker y) :
    s.fillFrom lines true 0 (x ++ b.text ++ y) =
      s.fillFrom lines true 0 x ++ b.content ++
        (s.markerHit b.terminator y []).replacement lines := by
  rw [List.append_assoc, fillFrom_append hs hx (not_isMarker_text_append hs hb y),
    fillFrom_line hs hb hbm, if_pos hy, List.append_assoc]

theorem fillFrom_marker_last (hs : '\n' ∉ s.token) {x : List Char} (hx : Terminated x)
    {b : Record} (hb : b.Closed) (hbm : s.IsMarker b.content) {y : List Char}
    (hy : s.IsMarker y) :
    s.fillFrom lines true 0 (x ++ b.text ++ y) =
      s.fillFrom lines true 0 (x ++ b.text) ++ (s.markerHit [] y []).replacement lines := by
  have hterm : Terminated b.text := .inr hb.getLast?_text
  rw [List.append_assoc, fillFrom_append hs hx (not_isMarker_text_append hs hb y),
    fillFrom_append hs hx (not_isMarker_of_terminated hs hterm), fillFrom_text hs hb, fillLine,
    if_pos hbm, fillFrom_marker hs hb hbm, replacement_markerHit hb, fillFrom_last_marker hs hy,
    List.append_assoc]

theorem fillFrom_append_of_length_eq_one (hs : '\n' ∉ s.token) (hl : lines.length = 1)
    {x : List Char} (hx : Terminated x) (y : List Char) :
    s.fillFrom lines true 0 (x ++ y) = s.fillFrom lines true 0 x ++ s.fillFrom lines true 0 y := by
  by_cases hy : s.IsMarker y
  · obtain ⟨l, rfl⟩ := List.length_eq_one_iff.mp hl
    rcases hx.eq_nil_or_append with rfl | ⟨v, b, rfl, hv, hb⟩
    · rfl
    · by_cases hbm : s.IsMarker b.content
      · rw [fillFrom_marker_last hs hv hb hbm hy, fillFrom_last_marker hs hy]
      · -- the break goes to the marker and comes back in front of its line
        have hterm : Terminated b.text := .inr hb.getLast?_text
        rw [fillFrom_line_last hs hv hb hbm hy, fillFrom_last_marker hs hy,
          fillFrom_append hs hv (not_isMarker_of_terminated hs hterm), fillFrom_text hs hb,
          fillLine, if_neg hbm, replacement_last_singleton, replacement_last_singleton]
        simp [Record.text]
  · exact fillFrom_append hs hx hy

/-- What stands before a text does not count for how it is filled, unless the text is one marker. -/
theorem fillFrom_append_of (hs : '\n' ∉ s.token) {x y : List Char} (hx : Terminated x)
    (h : x = [] ∨ ¬ s.IsMarker y ∨ lines.length = 1) :
    s.fillFrom lines true 0 (x ++ y) = s.fillFrom lines true 0 x ++ s.fillFrom lines true 0 y := by
  rcases h with rfl | hy | hl
  · rfl
  · exact fillFrom_append hs hx hy
  · exact fillFrom_append_of_length_eq_one hs hl hx y

end AssetSlots.Slot
