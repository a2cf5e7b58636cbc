import AssetSlots.Proofs.Slot.Marker

namespace AssetSlots.Slot

open Text

variable {s : Slot} {lines : List (List Char)}

/-- What a marker covers is skipped; its last character says whether a line starts after it. -/
theorem fillFrom_length_append (u t : List Char) (start : Bool) :
    s.fillFrom lines start u.length (u ++ t) =
      s.fillFrom lines (u.getLast?.elim start (· == '\n')) 0 t := by
  induction u generalizing start with
  | nil => rfl
  | cons c u ih =>
      rw [List.cons_append, List.length_cons, fillFrom, ih, List.getLast?_cons]
      cases h : u.getLast? <;> rfl

theorem fillFrom_hit {h : Hit} {start : Bool} {t : List Char}
    (hh : s.hit? start (h.text s ++ t) = some h) :
    s.fillFrom lines start 0 (h.text s ++ t) =
      h.replacement lines ++ s.fillFrom lines ((h.text s).getLast? == some '\n') 0 t := by
  have hne : h.text s ≠ [] := fun he => s.ne_nil (by simp_all [Hit.text])
  obtain ⟨c, u, hu⟩ := List.exists_cons_of_ne_nil hne
  rw [hu, List.cons_append] at hh
  rw [hu, List.cons_append, fillFrom, hh]
  simp only [hu, List.length_cons, Nat.add_sub_cancel]
  rw [fillFrom_length_append, List.getLast?_cons]
  cases h : u.getLast? <;> rfl

theorem hit?_false (t : List Char) :
    s.hit? false t = (lineBreak? t).bind fun (leading, rest) => s.last? leading rest := by
  cases h : lineBreak? t <;> simp [hit?, h]

theorem fillFrom_cons_of_hit?_eq_none {c : Char} {t : List Char} {start : Bool}
    (h : s.hit? start (c :: t) = none) :
    s.fillFrom lines start 0 (c :: t) = c :: s.fillFrom lines (c == '\n') 0 t := by
  rw [fillFrom, h]

/-- Inside a line nothing is found up to its break. -/
theorem fillFrom_inside {content t : List Char} (hn : '\n' ∉ content)
    (hcr : content.getLast? = some '\r' → t.head? ≠ some '\n') :
    s.fillFrom lines false 0 (content ++ t) = content ++ s.fillFrom lines false 0 t := by
  induction content with
  | nil => rfl
  | cons c content ih =>
      have hc : c ≠ '\n' := fun h => hn (by simp [h])
      have hn' : '\n' ∉ content := fun h => hn (List.mem_cons_of_mem c h)
      have hnext : c = '\r' → (content ++ t).head? ≠ some '\n' := by
        rintro rfl
        cases content with
        | nil => exact hcr rfl
        | cons d content =>
            intro h
            obtain rfl : d = '\n' := by simpa using h
            exact hn' List.mem_cons_self
      have hcr' : content.getLast? = some '\r' → t.head? ≠ some '\n' := by
        intro h
        exact hcr (by rw [List.getLast?_cons, h]; rfl)
      have hhit : s.hit? false (c :: (content ++ t)) = none := by
        rw [hit?_false, lineBreak?_cons hc hnext, Option.bind_none]
      rw [List.cons_append, fillFrom_cons_of_hit?_eq_none hhit, beq_eq_false_iff_ne.mpr hc,
        ih hn' hcr', List.cons_append]

theorem fillFrom_inside_nil {content : List Char} (hn : '\n' ∉ content) :
    s.fillFrom lines false 0 content = content := by
  have h : s.fillFrom lines false 0 (content ++ []) = content ++ s.fillFrom lines false 0 [] :=
    fillFrom_inside hn (by simp)
  simpa [fillFrom] using h

theorem hit?_break_append {b : List Char} (hb : IsBreak b) (t : List Char) :
    s.hit? false (b ++ t) = if s.IsMarker t then some (s.markerHit b t []) else none := by
  rw [hit?_false, lineBreak?_append hb, Option.bind_some, ← last?_eq]

/-- A marker that is the rest of the text takes the break with it. -/
theorem fillFrom_break {b : List Char} (hb : IsBreak b) (t : List Char) :
    s.fillFrom lines false 0 (b ++ t) =
      if s.IsMarker t then (s.markerHit b t []).replacement lines
      else b ++ s.fillFrom lines true 0 t := by
  by_cases hm : s.IsMarker t
  · have htext : (s.markerHit b t []).text s = b ++ t := by
      rw [text_markerHit hm, List.append_nil]
    have hhit : s.hit? false ((s.markerHit b t []).text s ++ []) = some (s.markerHit b t []) := by
      rw [List.append_nil, htext, hit?_break_append hb, if_pos hm]
    rw [if_pos hm]
    simpa [htext, fillFrom] using fillFrom_hit hhit
  · have hnone {b : List Char} (hb : IsBreak b) : s.hit? false (b ++ t) = none := by
      rw [hit?_break_append hb, if_neg hm]
    have hn : s.fillFrom lines false 0 ('\n' :: t) = '\n' :: s.fillFrom lines true 0 t :=
      fillFrom_cons_of_hit?_eq_none (hnone (.inl rfl))
    rw [if_neg hm]
    rcases hb with rfl | rfl
    · exact hn
    · have hr : s.fillFrom lines false 0 ('\r' :: '\n' :: t) =
          '\r' :: s.fillFrom lines false 0 ('\n' :: t) :=
        fillFrom_cons_of_hit?_eq_none (hnone (.inr rfl))
      exact hr.trans (congrArg _ hn)

/-- Where no marker starts, the start of a line is like the inside of one. -/
theorem fillFrom_start {t : List Char} (hc : s.closed? t = none) (hm : ¬ s.IsMarker t) :
    s.fillFrom lines true 0 t = s.fillFrom lines false 0 t := by
  have hhit : s.hit? true t = s.hit? false t := by
    simp [hit?, hc, last?_eq s [] t, hm]
  cases t with
  | nil => rfl
  | cons c t => rw [fillFrom, fillFrom, hhit]

theorem fillFrom_marker (hs : '\n' ∉ s.token) {r : Record} (hr : r.Closed)
    (hm : s.IsMarker r.content) (t : List Char) :
    s.fillFrom lines true 0 (r.text ++ t) =
      (s.markerHit [] r.content r.terminator).replacement lines ++ s.fillFrom lines true 0 t := by
  have htext : (s.markerHit [] r.content r.terminator).text s = r.text := text_markerHit hm _ _
  have hhit : s.hit? true ((s.markerHit [] r.content r.terminator).text s ++ t) =
      some (s.markerHit [] r.content r.terminator) := by
    simp [htext, hit?, closed?_text_append hs hr t, hm]
  have h : s.fillFrom lines true 0 ((s.markerHit [] r.content r.terminator).text s ++ t) = _ :=
    fillFrom_hit hhit
  rw [htext, hr.getLast?_text] at h
  exact h

theorem fillFrom_last_marker (hs : '\n' ∉ s.token) {t : List Char} (hm : s.IsMarker t) :
    s.fillFrom lines true 0 t = (s.markerHit [] t []).replacement lines := by
  have htext : (s.markerHit [] t []).text s = t := by
    rw [text_markerHit hm, List.nil_append, List.append_nil]
  have hb : lineBreak? t = none := by
    cases t with
    | nil => rfl
    | cons c t =>
        have hn := notMem_of_isMarker hs hm
        exact lineBreak?_cons (fun h => hn (by simp [h]))
          (fun _ h => hn (List.mem_cons_of_mem c (List.mem_of_mem_head? h)))
  have hhit : s.hit? true ((s.markerHit [] t []).text s ++ []) = some (s.markerHit [] t []) := by
    rw [List.append_nil, htext]
    simp [hit?, closed?_eq_none (notMem_of_isMarker hs hm), hb, last?_eq s [] t, hm]
  simpa [htext, fillFrom] using fillFrom_hit hhit

theorem fillFrom_last {r : Record} (hr : r.Open) (hm : ¬ s.IsMarker r.content) :
    s.fillFrom lines true 0 r.text = r.text := by
  rw [hr.text_eq, fillFrom_start (closed?_eq_none hr.notMem) hm, fillFrom_inside_nil hr.notMem]

theorem fillFrom_line (hs : '\n' ∉ s.token) {r : Record} (hr : r.Closed)
    (hm : ¬ s.IsMarker r.content) (t : List Char) :
    s.fillFrom lines true 0 (r.text ++ t) =
      r.content ++ if s.IsMarker t then (s.markerHit r.terminator t []).replacement lines
        else r.terminator ++ s.fillFrom lines true 0 t := by
  have hcr : r.content.getLast? = some '\r' → (r.terminator ++ t).head? ≠ some '\n' := by
    intro hl
    rcases hr.terminator_eq with ⟨_, h⟩ | h
    · exact absurd hl h
    · simp [h]
  rw [fillFrom_start (by rw [closed?_text_append hs hr, if_neg hm])
    (not_isMarker_text_append hs hr t), Record.text, List.append_assoc,
    fillFrom_inside hr.notMem hcr, fillFrom_break hr.isBreak]

end AssetSlots.Slot
