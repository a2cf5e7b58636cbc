import AssetSlots.Proofs.Slot.Terminated

namespace AssetSlots.Slot

open Text

variable {s q : Slot} {lines : List (List Char)}

theorem absent_nil : s.Absent [] := by
  intro r hr
  simp [records] at hr

theorem absent_append {x : List Char} (hx : Terminated x) {y : List Char} :
    s.Absent (x ++ y) ↔ s.Absent x ∧ s.Absent y := by
  rw [Absent, records_append hx, List.forall_mem_append, Absent, Absent]

theorem absent_text_append {r : Record} (hr : r.Closed) {t : List Char} :
    s.Absent (r.text ++ t) ↔ ¬ s.IsMarker r.content ∧ s.Absent t := by
  rw [Absent, records_text_append hr, List.forall_mem_cons, Absent]

theorem absent_text {r : Record} (hr : r.Open) : s.Absent r.text ↔ ¬ s.IsMarker r.content := by
  rw [Absent, records_text_of_open hr, List.forall_mem_singleton]

theorem absent_content {content : List Char} (hn : '\n' ∉ content) (hm : ¬ s.IsMarker content) :
    s.Absent content := by
  by_cases hne : content = []
  · exact hne ▸ absent_nil
  · rwa [Absent, records_content hn hne, List.forall_mem_singleton]

theorem not_isMarker_of_absent (hs : '\n' ∉ s.token) {t : List Char} (h : s.Absent t) :
    ¬ s.IsMarker t := by
  intro hm
  exact h ⟨t, []⟩ (by simp [records_of_isMarker hs hm]) hm

theorem fillFrom_of_absent (hs : '\n' ∉ s.token) {t : List Char} (h : s.Absent t) :
    s.fillFrom lines true 0 t = t := by
  induction t using lineInduction with
  | nil => rfl
  | last r hr => exact fillFrom_last hr ((absent_text hr).mp h)
  | line r rest hr ih =>
      obtain ⟨hm, hrest⟩ := (absent_text_append hr).mp h
      rw [fillFrom_line hs hr hm, if_neg (not_isMarker_of_absent hs hrest), ih hrest, Record.text,
        List.append_assoc]

theorem lacks_indent_append {line : List Char} (hline : line ≠ [])
    (hlines : ∀ l ∈ lines, Lacks line l) (r : Record) :
    ∀ l ∈ lines.map (r.indent ++ ·), Lacks line l := by
  intro l hl
  obtain ⟨k, hk, rfl⟩ := List.mem_map.mp hl
  exact (hlines k hk).blank_append hline r.blank_indent

theorem lacks_fillLine {line : List Char} (hline : line ≠ [])
    (hlines : ∀ l ∈ lines, Lacks line l) {r : Record} (hr : r.Closed) :
    Lacks line (lines.flatMap (fun l => r.indent ++ l ++ r.terminator)) := by
  have h := Lacks.flatMap_append hline hr.isBreak (lacks_indent_append hline hlines r)
  rwa [List.flatMap_map] at h

/-- The lines in place of a marker left open lack what the references lack. -/
theorem lacks_replacement {line : List Char} (hline : line ≠ [])
    (hlines : ∀ l ∈ lines, Lacks line l) {leading : List Char}
    (hl : leading = [] ∨ IsBreak leading) (content : List Char) (hne : lines ≠ []) :
    ∃ u, (s.markerHit leading content []).replacement lines = leading ++ u ∧ Lacks line u := by
  have hb : IsBreak (s.markerHit leading content []).separator := by
    rcases hl with rfl | hb
    · exact .inl rfl
    · have hlead : leading ≠ [] := by rcases hb with rfl | rfl <;> simp
      rwa [Hit.separator, markerHit, if_neg (by simp), if_pos hlead]
  refine ⟨_, ?_, Lacks.intercalate hline hb (lacks_indent_append hline hlines ⟨content, []⟩)⟩
  rw [Hit.replacement, if_neg hne, markerHit, List.append_nil]
  rfl

theorem absent_fillFrom (hs : '\n' ∉ s.token) (hlines : ∀ l ∈ lines, Lacks q.token l)
    {t : List Char} (h : ∀ r ∈ records t, ¬ s.IsMarker r.content → ¬ q.IsMarker r.content) :
    q.Absent (s.fillFrom lines true 0 t) := by
  induction t using lineInduction with
  | nil => exact absent_nil
  | last r hr =>
      rw [records_text_of_open hr, List.forall_mem_singleton] at h
      by_cases hm : s.IsMarker r.content
      · rw [hr.text_eq, fillFrom_last_marker hs hm]
        by_cases hne : lines = []
        · rw [hne]
          exact absent_nil
        · obtain ⟨u, hu, hlacks⟩ := lacks_replacement q.ne_nil hlines (.inl rfl) r.content hne
          rw [hu]
          exact Absent.of_lacks hlacks
      · rw [fillFrom_last hr hm]
        exact (absent_text hr).mpr (h hm)
  | line r rest hr ih =>
      rw [records_text_append hr, List.forall_mem_cons] at h
      obtain ⟨hr', hrest⟩ := h
      by_cases hm : s.IsMarker r.content
      · have hterm : Terminated (s.fillLine lines r) := terminated_fillLine hr
        rw [fillLine, if_pos hm] at hterm
        rw [fillFrom_marker hs hr hm, replacement_markerHit hr]
        exact (absent_append hterm).mpr
          ⟨Absent.of_lacks (lacks_fillLine q.ne_nil hlines hr), ih hrest⟩
      rw [fillFrom_line hs hr hm]
      by_cases hmark : s.IsMarker rest
      · rw [if_pos hmark]
        by_cases hne : lines = []
        · -- the line loses its break and stays what it was
          rw [hne, show (s.markerHit r.terminator rest []).replacement [] = [] from rfl,
            List.append_nil]
          exact absent_content hr.notMem (hr' hm)
        · obtain ⟨u, hu, hlacks⟩ :=
            lacks_replacement q.ne_nil hlines (.inr hr.isBreak) rest hne
          rw [hu, ← List.append_assoc]
          exact (absent_text_append hr).mpr ⟨hr' hm, Absent.of_lacks hlacks⟩
      · rw [if_neg hmark, ← List.append_assoc]
        exact (absent_text_append hr).mpr ⟨hr' hm, ih hrest⟩

end AssetSlots.Slot
