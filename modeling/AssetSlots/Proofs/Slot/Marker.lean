import AssetSlots.Proofs.Text.Stripped
import AssetSlots.Slot

namespace AssetSlots.Slot

open Text

variable {s : Slot}

def IsMarker (s : Slot) (content : List Char) : Prop :=
  ∃ indent trailing, content = indent ++ s.token ++ trailing ∧ Blank indent ∧ Blank trailing

def markerHit (s : Slot) (leading content terminator : List Char) : Hit :=
  ⟨leading, content.takeWhile isBlank, (content.dropWhile isBlank).drop s.token.length, terminator⟩

theorem head?_token_append (s : Slot) (t : List Char) {c : Char}
    (h : (s.token ++ t).head? = some c) : isBlank c = false := by
  rw [List.head?_append, Option.or_of_isSome (by simpa using s.ne_nil)] at h
  exact isBlank_eq_false (s.head c h)

theorem markerHit_append {indent trailing : List Char} (hi : Blank indent)
    (leading terminator : List Char) :
    s.markerHit leading (indent ++ s.token ++ trailing) terminator =
      ⟨leading, indent, trailing, terminator⟩ := by
  have ht : ∀ c, (s.token ++ trailing).head? = some c → isBlank c = false := fun c =>
    s.head?_token_append trailing
  rw [markerHit, List.append_assoc, takeWhile_blank_append hi ht, dropWhile_blank_append hi ht,
    List.drop_left]

theorem text_markerHit {content : List Char} (hm : s.IsMarker content)
    (leading terminator : List Char) :
    (s.markerHit leading content terminator).text s = leading ++ content ++ terminator := by
  obtain ⟨indent, trailing, rfl, hi, _⟩ := hm
  rw [markerHit_append hi]
  simp [Hit.text]

theorem marker?_append {indent trailing rest : List Char} (hi : Blank indent)
    (htr : Blank trailing) (hrest : ∀ c, rest.head? = some c → isBlank c = false) :
    s.marker? (indent ++ s.token ++ trailing ++ rest) = some (indent, trailing, rest) := by
  have ht : ∀ c, (s.token ++ (trailing ++ rest)).head? = some c → isBlank c = false := fun c =>
    s.head?_token_append _
  rw [List.append_assoc, List.append_assoc, marker?, dropWhile_blank_append hi ht,
    takeWhile_blank_append hi ht, after?_eq_some_iff.mpr rfl, Option.map_some,
    takeWhile_blank_append htr hrest, dropWhile_blank_append htr hrest]

theorem blank_of_marker? {t indent trailing rest : List Char}
    (h : s.marker? t = some (indent, trailing, rest)) : Blank indent ∧ Blank trailing := by
  simp only [marker?, Option.map_eq_some_iff, Prod.mk.injEq] at h
  obtain ⟨r, _, rfl, rfl, _⟩ := h
  exact ⟨List.all_eq_true.mp List.all_takeWhile, List.all_eq_true.mp List.all_takeWhile⟩

theorem marker?_eq_some_nil_iff {t indent trailing : List Char} :
    s.marker? t = some (indent, trailing, []) ↔
      t = indent ++ s.token ++ trailing ∧ Blank indent ∧ Blank trailing := by
  constructor
  · intro h
    have ht := marker?_eq_some h
    rw [List.append_nil] at ht
    exact ⟨ht, blank_of_marker? h⟩
  · rintro ⟨rfl, hi, htr⟩
    have h : s.marker? (indent ++ s.token ++ trailing ++ []) = some (indent, trailing, []) :=
      marker?_append hi htr (by simp)
    rwa [List.append_nil] at h

theorem isMarker_iff {content : List Char} :
    s.IsMarker content ↔ (s.marker? content).any (fun m => m.2.2.isEmpty) = true := by
  simp only [IsMarker, ← marker?_eq_some_nil_iff, Option.any_eq_true, List.isEmpty_iff]
  constructor
  · rintro ⟨indent, trailing, h⟩
    exact ⟨_, h, rfl⟩
  · rintro ⟨⟨indent, trailing, rest⟩, h, rfl⟩
    exact ⟨indent, trailing, h⟩

instance (s : Slot) : DecidablePred s.IsMarker := fun _ => decidable_of_iff _ isMarker_iff.symm

/-- A marker that is all of a text, after the break `leading`. -/
theorem last?_eq (s : Slot) (leading t : List Char) :
    s.last? leading t = if s.IsMarker t then some (s.markerHit leading t []) else none := by
  by_cases hm : s.IsMarker t
  · rw [if_pos hm]
    obtain ⟨indent, trailing, rfl, hi, htr⟩ := hm
    rw [last?, marker?_eq_some_nil_iff.mpr ⟨rfl, hi, htr⟩, markerHit_append hi]
  · rw [if_neg hm, last?]
    split
    · next indent trailing h => exact absurd ⟨_, _, marker?_eq_some_nil_iff.mp h⟩ hm
    · rfl

theorem lineBreak?_append {b : List Char} (hb : IsBreak b) (t : List Char) :
    lineBreak? (b ++ t) = some (b, t) := by
  rcases hb with rfl | rfl <;> rfl

theorem isBreak_of_lineBreak? {t b rest : List Char} (h : lineBreak? t = some (b, rest)) :
    IsBreak b := by
  unfold lineBreak? at h
  split at h
  · simp only [Option.some.injEq, Prod.mk.injEq] at h
    exact .inl h.1.symm
  · simp only [Option.some.injEq, Prod.mk.injEq] at h
    exact .inr h.1.symm
  · simp at h

theorem lineBreak?_cons {c : Char} {t : List Char} (hc : c ≠ '\n')
    (hr : c = '\r' → t.head? ≠ some '\n') : lineBreak? (c :: t) = none := by
  unfold lineBreak?
  split
  · next h => exact absurd (List.cons.inj h).1 hc
  · next h =>
      obtain ⟨rfl, rfl⟩ := List.cons.inj h
      exact absurd rfl (hr rfl)
  · rfl

theorem ne_nil_of_isMarker {content : List Char} (hm : s.IsMarker content) : content ≠ [] := by
  obtain ⟨indent, trailing, rfl, _⟩ := hm
  simp [s.ne_nil]

theorem notMem_of_isMarker (hs : '\n' ∉ s.token) {content : List Char} (hm : s.IsMarker content) :
    '\n' ∉ content := by
  obtain ⟨indent, trailing, rfl, hi, htr⟩ := hm
  simp only [List.mem_append, not_or]
  exact ⟨⟨hi.notMem, hs⟩, htr.notMem⟩

theorem records_of_isMarker (hs : '\n' ∉ s.token) {t : List Char} (hm : s.IsMarker t) :
    records t = [⟨t, []⟩] :=
  records_content (notMem_of_isMarker hs hm) (ne_nil_of_isMarker hm)

theorem not_isMarker_of_terminated (hs : '\n' ∉ s.token) {t : List Char} (ht : Terminated t) :
    ¬ s.IsMarker t := by
  intro hm
  rcases ht with rfl | ht
  · exact ne_nil_of_isMarker hm rfl
  · exact notMem_of_isMarker hs hm (List.mem_of_getLast? ht)

theorem not_isMarker_text_append (hs : '\n' ∉ s.token) {r : Record} (hr : r.Closed)
    (t : List Char) : ¬ s.IsMarker (r.text ++ t) := fun hm =>
  notMem_of_isMarker hs hm
    (List.mem_append_left t (List.mem_of_getLast? hr.getLast?_text))

theorem getLast?_ne_of_isMarker {content : List Char} (hm : s.IsMarker content) :
    content.getLast? ≠ some '\r' := by
  obtain ⟨indent, trailing, rfl, _, htr⟩ := hm
  intro h
  rw [List.getLast?_append] at h
  cases ht : trailing.getLast? with
  | some c => exact htr.getLast?_ne (by simpa [ht] using h)
  | none =>
      rw [ht, Option.none_or, List.getLast?_append, Option.or_of_isSome
        (by simpa using s.ne_nil)] at h
      exact absurd (s.last _ h) (by decide)

theorem exists_of_closed? {t : List Char} {h : Hit} (hc : s.closed? t = some h) :
    ∃ content b rest, s.IsMarker content ∧ IsBreak b ∧ t = content ++ b ++ rest := by
  rw [closed?] at hc
  split at hc
  · next indent trailing rest hmarker =>
      obtain ⟨⟨b, rest'⟩, hb, _⟩ := Option.map_eq_some_iff.mp hc
      obtain ⟨hi, htr⟩ := blank_of_marker? hmarker
      refine ⟨indent ++ s.token ++ trailing, b, rest', ⟨indent, trailing, rfl, hi, htr⟩,
        isBreak_of_lineBreak? hb, ?_⟩
      rw [marker?_eq_some hmarker, lineBreak?_eq_some hb]
      simp
  · simp at hc

/-- A marker with a break after it, at the front of a closed line, is that line. -/
theorem closed?_text_append (hs : '\n' ∉ s.token) {r : Record} (hr : r.Closed) (t : List Char) :
    s.closed? (r.text ++ t) =
      if s.IsMarker r.content then some (s.markerHit [] r.content r.terminator) else none := by
  by_cases hm : s.IsMarker r.content
  · rw [if_pos hm]
    obtain ⟨indent, trailing, hc, hi, htr⟩ := hm
    have hhead : ∀ c, (r.terminator ++ t).head? = some c → isBlank c = false := fun c =>
      head?_break_append hr.isBreak t
    have hmarker := marker?_append (s := s) hi htr hhead
    rw [← List.append_assoc, ← hc, ← Record.text] at hmarker
    simp only [closed?, hmarker, lineBreak?_append hr.isBreak, Option.map_some]
    rw [hc, markerHit_append hi]
  · rw [if_neg hm]
    cases h : s.closed? (r.text ++ t) with
    | none => rfl
    | some hit =>
        obtain ⟨content, b, rest, hq, hb, ht⟩ := exists_of_closed? h
        -- the marker and the break it found make up a line, so they are the line `r`
        have hclosed : Record.Closed ⟨content, b⟩ :=
          ⟨notMem_of_isMarker hs hq, hb.imp (fun h => ⟨h, getLast?_ne_of_isMarker hq⟩) id⟩
        have hrec := congrArg records ht
        rw [records_text_append hr, show content ++ b = Record.text ⟨content, b⟩ from rfl,
          records_text_append hclosed] at hrec
        exact absurd ((List.cons.inj hrec).1 ▸ hq) hm

theorem closed?_eq_none {t : List Char} (ht : '\n' ∉ t) : s.closed? t = none := by
  cases h : s.closed? t with
  | none => rfl
  | some hit =>
      obtain ⟨content, b, rest, _, hb, rfl⟩ := exists_of_closed? h
      exact absurd (by rcases hb with rfl | rfl <;> simp) ht

theorem trim_of_isMarker {content : List Char} (hm : s.IsMarker content) :
    trim content = s.token := by
  obtain ⟨indent, trailing, rfl, hi, htr⟩ := hm
  rw [trim_append_white htr.white, trim_white_append hi.white, trim_eq_self s.head s.last]

def Absent (s : Slot) (t : List Char) : Prop := ∀ r ∈ records t, ¬ s.IsMarker r.content

instance (s : Slot) (t : List Char) : Decidable (s.Absent t) :=
  inferInstanceAs (Decidable (∀ r ∈ records t, ¬ s.IsMarker r.content))

theorem Absent.of_lacks {t : List Char} (ht : Lacks s.token t) : s.Absent t := fun r hr hm =>
  ht r hr (trim_of_isMarker hm)

end AssetSlots.Slot
