import AssetSlots.Proofs.Slot.Fill

namespace AssetSlots.Slot

open Text

variable {s : Slot} {lines : List (List Char)}

/-- What follows a break, if it is more than one marker, is filled on its own. -/
theorem fillFrom_append (hs : '\n' ∉ s.token) {x y : List Char} (hx : Terminated x)
    (hy : ¬ s.IsMarker y) :
    s.fillFrom lines true 0 (x ++ y) = s.fillFrom lines true 0 x ++ s.fillFrom lines true 0 y := by
  induction x using lineInduction with
  | nil => rfl
  | last r hr => exact absurd hx (not_terminated_text hr)
  | line r rest hr ih =>
      have hrest := (terminated_text_append hr).mp hx
      rw [List.append_assoc]
      by_cases hm : s.IsMarker r.content
      · rw [fillFrom_marker hs hr hm, fillFrom_marker hs hr hm, ih hrest, List.append_assoc]
      · have hboth : ¬ s.IsMarker (rest ++ y) := by
          rcases hrest with rfl | hl
          · exact hy
          · intro h
            exact notMem_of_isMarker hs h (List.mem_append_left y (List.mem_of_getLast? hl))
        rw [fillFrom_line hs hr hm, fillFrom_line hs hr hm, if_neg hboth,
          if_neg (not_isMarker_of_terminated hs hrest), ih hrest]
        simp

def fillLine (s : Slot) (lines : List (List Char)) (r : Record) : List Char :=
  if s.IsMarker r.content then lines.flatMap (fun l => r.indent ++ l ++ r.terminator) else r.text

theorem intercalate_append_self (b : List Char) {ls : List (List Char)} (h : ls ≠ []) :
    b.intercalate ls ++ b = ls.flatMap (fun l => l ++ b) := by
  induction ls with
  | nil => exact absurd rfl h
  | cons l ls ih =>
      cases ls with
      | nil => simp
      | cons k ls =>
          rw [List.intercalate_cons_cons, List.append_assoc, ih (by simp)]
          rfl

theorem replacement_markerHit {r : Record} (hr : r.Closed) (lines : List (List Char)) :
    (s.markerHit [] r.content r.terminator).replacement lines =
      lines.flatMap (fun l => r.indent ++ l ++ r.terminator) := by
  by_cases hl : lines = []
  · rw [hl]; rfl
  · have hsep : (s.markerHit [] r.content r.terminator).separator = r.terminator :=
      if_pos hr.terminator_ne_nil
    have hne : lines.map (r.indent ++ ·) ≠ [] := by simpa using hl
    have hjoin := intercalate_append_self r.terminator hne
    rw [List.flatMap_map] at hjoin
    rw [Hit.replacement, if_neg hl, hsep]
    exact hjoin

theorem fillFrom_of_terminated (hs : '\n' ∉ s.token) {t : List Char} (ht : Terminated t) :
    s.fillFrom lines true 0 t = (records t).flatMap (s.fillLine lines) := by
  induction t using lineInduction with
  | nil => rfl
  | last r hr => exact absurd ht (not_terminated_text hr)
  | line r rest hr ih =>
      have hrest := (terminated_text_append hr).mp ht
      rw [records_text_append hr, List.flatMap_cons, ← ih hrest, fillLine]
      by_cases hm : s.IsMarker r.content
      · rw [fillFrom_marker hs hr hm, replacement_markerHit hr, if_pos hm]
      · rw [fillFrom_line hs hr hm, if_neg (not_isMarker_of_terminated hs hrest), if_neg hm,
          Record.text, List.append_assoc]

theorem fillFrom_text (hs : '\n' ∉ s.token) {r : Record} (hr : r.Closed) :
    s.fillFrom lines true 0 r.text = s.fillLine lines r := by
  rw [fillFrom_of_terminated hs (.inr hr.getLast?_text), records_text_of_closed hr,
    List.flatMap_singleton]

theorem terminated_fillLine {r : Record} (hr : r.Closed) : Terminated (s.fillLine lines r) := by
  rw [fillLine]
  split
  · induction lines with
    | nil => exact .inl rfl
    | cons l lines ih =>
        rw [List.flatMap_cons]
        refine Terminated.append (.inr ?_) ih
        rcases hr.isBreak with h | h <;> simp [h]
  · exact .inr hr.getLast?_text

theorem terminated_fillFrom (hs : '\n' ∉ s.token) {t : List Char} (ht : Terminated t) :
    Terminated (s.fillFrom lines true 0 t) := by
  have hrs : ∀ r ∈ records t, r.Closed := fun r => ht.closed_of_mem
  rw [fillFrom_of_terminated hs ht]
  generalize records t = rs at hrs ⊢
  induction rs with
  | nil => exact .inl rfl
  | cons r rs ih =>
      rw [List.forall_mem_cons] at hrs
      rw [List.flatMap_cons]
      exact (terminated_fillLine hrs.1).append (ih hrs.2)

end AssetSlots.Slot
