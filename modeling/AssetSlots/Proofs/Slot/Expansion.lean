import AssetSlots.Proofs.Slot.Fill

namespace AssetSlots.Slot

open Text

variable {s : Slot} {lines : List (List Char)}

/-- What goes between the lines in place of the marker line `r`: its own break; if the text leaves
`r` open, the break before it, unless that one ends a marker line. -/
def separator (s : Slot) (before : Option Record) (r : Record) : List Char :=
  if r.terminator ≠ [] then r.terminator
  else
    match before with
    | some b => if s.IsMarker b.content then ['\n'] else b.terminator
    | none => ['\n']

def expandLine (s : Slot) (lines : List (List Char)) (before : Option Record) (r : Record) :
    List Char :=
  if s.IsMarker r.content then
    (s.separator before r).intercalate (lines.map (r.indent ++ ·)) ++ r.terminator
  else r.text

def expand (s : Slot) (lines : List (List Char)) : Option Record → List Record → List Char
  | _, [] => []
  | before, r :: rs => s.expandLine lines before r ++ s.expand lines (some r) rs

theorem expandLine_of_closed {r : Record} (hr : r.Closed) (before : Option Record) :
    s.expandLine lines before r = s.expandLine lines none r := by
  have hsep : s.separator before r = s.separator none r := by
    simp only [separator, if_pos hr.terminator_ne_nil]
  rw [expandLine, expandLine, hsep]

theorem expandLine_of_not_isMarker {r : Record} (hm : ¬ s.IsMarker r.content)
    (before : Option Record) : s.expandLine lines before r = r.text := by
  rw [expandLine, if_neg hm]

/-- After a marker line, the lines go on as at the start of a text. -/
theorem expand_some_of_isMarker {b : Record} (hb : s.IsMarker b.content) (rs : List Record) :
    s.expand lines (some b) rs = s.expand lines none rs := by
  cases rs with
  | nil => rfl
  | cons r rs =>
      have h : s.separator (some b) r = s.separator none r := by
        simp only [separator, if_pos hb]
      rw [expand, expand, expandLine, expandLine, h]

/-- What came before counts for a marker that is all of the text, and for nothing else. -/
theorem expand_records_of_not_isMarker {t : List Char} (ht : ¬ s.IsMarker t)
    (before : Option Record) :
    s.expand lines before (records t) = s.expand lines none (records t) := by
  rcases exists_line t with rfl | ⟨r, hr, rfl⟩ | ⟨r, rest, hr, rfl⟩
  · rfl
  · rw [hr.text_eq] at ht
    simp only [records_text_of_open hr, expand, expandLine_of_not_isMarker ht]
  · rw [records_text_append hr, expand, expand, expandLine_of_closed hr]

theorem replacement_of_ne_nil (hl : lines ≠ []) (h : Hit) :
    h.replacement lines =
      h.leading ++ h.separator.intercalate (lines.map (h.indent ++ ·)) ++ h.terminator := by
  rw [Hit.replacement, if_neg hl]

theorem fillFrom_eq_expand (hs : '\n' ∉ s.token) (hl : lines ≠ []) (t : List Char) :
    s.fillFrom lines true 0 t = s.expand lines none (records t) := by
  induction t using lineInduction with
  | nil => rfl
  | last r hr =>
      rw [records_text_of_open hr, expand, expand, List.append_nil]
      by_cases hm : s.IsMarker r.content
      · rw [hr.text_eq, fillFrom_last_marker hs hm, replacement_of_ne_nil hl, expandLine,
          if_pos hm, hr.terminator_eq, separator, if_neg (by simp [hr.terminator_eq])]
        rfl
      · rw [fillFrom_last hr hm, expandLine_of_not_isMarker hm]
  | line r rest hr ih =>
      rw [records_text_append hr, expand]
      by_cases hm : s.IsMarker r.content
      · have hsep : (s.markerHit [] r.content r.terminator).separator = r.terminator :=
          if_pos hr.terminator_ne_nil
        rw [fillFrom_marker hs hr hm, ih, expand_some_of_isMarker hm, replacement_of_ne_nil hl,
          hsep, expandLine, if_pos hm, separator, if_pos hr.terminator_ne_nil]
        rfl
      · rw [fillFrom_line hs hr hm, expandLine_of_not_isMarker hm]
        by_cases hrest : s.IsMarker rest
        · -- the marker takes the break of `r` and gives it back before its own lines
          have hsep : (s.markerHit r.terminator rest []).separator = r.terminator := by
            simp [Hit.separator, markerHit, hr.terminator_ne_nil]
          have hsep' : s.separator (some r) ⟨rest, []⟩ = r.terminator := by
            simp [separator, hm]
          rw [if_pos hrest, records_of_isMarker hs hrest, expand, expand, expandLine,
            if_pos hrest, replacement_of_ne_nil hl, hsep, hsep']
          simp [Record.text, Record.indent, markerHit]
        · rw [if_neg hrest, ih, ← expand_records_of_not_isMarker hrest (some r), Record.text,
            List.append_assoc]

/-- Filling a slot with references puts them, line by line, in place of its marker lines. -/
theorem fill_eq_expand_records {token : String} (hblank : trim token.toList ≠ [])
    (hline : '\n' ∉ trim token.toList) (chunk : String) {refs : List String} (hrefs : refs ≠ []) :
    ∃ s, Slot.ofText token = .ok s ∧ s.token = trim token.toList ∧
      s.fill chunk refs =
        String.ofList (s.expand (refs.map String.toList) none (records chunk.toList)) := by
  have hl : refs.map String.toList ≠ [] := by simpa using hrefs
  refine ⟨_, dif_neg hblank, rfl, ?_⟩
  rw [fill, fillFrom_eq_expand hline hl]

theorem fill_eq_expand_records_mixed :
    trim " T ".toList ≠ [] ∧ '\n' ∉ trim " T ".toList ∧ ["x", "y"] ≠ [] ∧
      ∃ s, Slot.ofText " T " = .ok s ∧ s.token = ['T'] ∧
        s.fill "a\r\n\tT \r\nT\nb\r\n T" ["x", "y"] =
          "a\r\n\tx\r\n\ty\r\nx\ny\nb\r\n x\r\n y" := by
  have hblank : trim " T ".toList ≠ [] := by decide
  have hline : '\n' ∉ trim " T ".toList := by decide
  have hrefs : ["x", "y"] ≠ [] := by decide
  obtain ⟨s, ho, ht, hf⟩ := fill_eq_expand_records hblank hline "a\r\n\tT \r\nT\nb\r\n T" hrefs
  obtain ⟨token, h1, h2, h3⟩ := s
  obtain rfl : token = ['T'] := ht.trans (by decide)
  exact ⟨hblank, hline, hrefs, _, ho, rfl, hf.trans rfl⟩

end AssetSlots.Slot
