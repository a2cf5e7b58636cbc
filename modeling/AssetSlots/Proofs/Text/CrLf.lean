import AssetSlots.Proofs.Text.Lines

namespace AssetSlots.Text

def CrLf (t : List Char) : Prop := ∀ u v, t = u ++ '\n' :: v → u.getLast? = some '\r'

theorem crlf_of_notMem {t : List Char} (hn : '\n' ∉ t) : CrLf t := by
  rintro u v rfl
  exact absurd (by simp) hn

theorem crlf_append_lf {l t : List Char} (hn : '\n' ∉ l) :
    CrLf (l ++ '\n' :: t) ↔ l.getLast? = some '\r' ∧ CrLf t := by
  constructor
  · intro h
    refine ⟨h l t rfl, ?_⟩
    rintro u v rfl
    have hu := h (l ++ '\n' :: u) v (by simp)
    cases u with
    | nil => simp at hu
    | cons c u => simpa [List.getLast?_append] using hu
  · rintro ⟨hl, ht⟩ u v h
    rcases List.append_eq_append_iff.mp h with ⟨w, rfl, hw⟩ | ⟨w, rfl, hw⟩
    · -- the break is the first one, or it stands in `t`
      cases w with
      | nil => simpa using hl
      | cons c w =>
          obtain ⟨rfl, rfl⟩ := List.cons.inj hw
          have hlast := ht w v rfl
          simp [List.getLast?_append, List.getLast?_cons, hlast]
    · cases w with
      | nil => simpa using hl
      | cons c w =>
          obtain ⟨rfl, _⟩ := List.cons.inj hw
          exact absurd (by simp) hn

theorem crlf_text_append {r : Record} (hr : r.Closed) {t : List Char} :
    CrLf (r.text ++ t) ↔ r.terminator = ['\r', '\n'] ∧ CrLf t := by
  rcases hr.terminator_eq with ⟨h, hl⟩ | h
  · have ht : r.text ++ t = r.content ++ '\n' :: t := by simp [Record.text, h]
    rw [ht, crlf_append_lf hr.notMem, h]
    simp [hl]
  · have hn : '\n' ∉ r.content ++ ['\r'] := by simpa using hr.notMem
    have ht : r.text ++ t = r.content ++ ['\r'] ++ '\n' :: t := by simp [Record.text, h]
    rw [ht, crlf_append_lf hn, h]
    simp

theorem crlf_iff_forall_records {t : List Char} :
    CrLf t ↔ ∀ r ∈ records t, r.terminator ≠ ['\n'] := by
  induction t using lineInduction with
  | nil => simp [crlf_of_notMem, records]
  | last r hr =>
      rw [records_text_of_open hr, List.forall_mem_singleton, hr.terminator_eq, hr.text_eq]
      simp [crlf_of_notMem hr.notMem]
  | line r rest hr ih =>
      rw [records_text_append hr, List.forall_mem_cons, crlf_text_append hr, ih]
      rcases hr.terminator_eq with ⟨h, _⟩ | h <;> simp [h]

instance (t : List Char) : Decidable (CrLf t) := decidable_of_iff _ crlf_iff_forall_records.symm

theorem crlf_append {x y : List Char} (hx : Terminated x) :
    CrLf (x ++ y) ↔ CrLf x ∧ CrLf y := by
  rw [crlf_iff_forall_records, records_append hx, List.forall_mem_append, crlf_iff_forall_records,
    crlf_iff_forall_records]

end AssetSlots.Text
