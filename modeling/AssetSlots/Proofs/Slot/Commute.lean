import AssetSlots.Proofs.Slot.Absence
import AssetSlots.Proofs.Slot.LastLine

namespace AssetSlots.Slot

open Text

variable {s q : Slot} {lines more : List (List Char)}

theorem eq_of_isMarker {content : List Char} (hs : s.IsMarker content) (hq : q.IsMarker content) :
    s = q := by
  have htoken : s.token = q.token := by rw [← trim_of_isMarker hs, trim_of_isMarker hq]
  cases s
  cases q
  cases htoken
  rfl

def EndsAs (lines : List (List Char)) (b : Record) : Prop :=
  ∃ l, lines.getLast? = some l ∧ (b.terminator = ['\n'] → l.getLast? ≠ some '\r')

instance (lines : List (List Char)) (b : Record) : Decidable (EndsAs lines b) :=
  match h : lines.getLast? with
  | none => isFalse (by simp [EndsAs, h])
  | some l =>
    decidable_of_iff (b.terminator = ['\n'] → l.getLast? ≠ some '\r') (by simp [EndsAs, h])

/-- For two marker lines that meet, `b` and one left open after it, with `lines` for `b` and `more`
for the other: the break between them is either not needed or not changed. -/
def Agree (lines more : List (List Char)) (b : Record) : Prop :=
  more.length = 1 ∨ EndsAs lines b ∧ (more = [] → lines.length = 1)

instance (lines more : List (List Char)) (b : Record) : Decidable (Agree lines more b) :=
  inferInstanceAs (Decidable (more.length = 1 ∨ EndsAs lines b ∧
    (more = [] → lines.length = 1)))

/-- Where one of the two leaves no lines, the other one meets the line `before` them, which is no
marker line: its break is the one between the lines that there are. -/
def AgreeAfter (before : Option Record) (lines more : List (List Char)) (b : Record) : Prop :=
  lines = [] ∧ more = [] ∨ before.elim ['\n'] Record.terminator = b.terminator ∧
    (lines = [] ∨ EndsAs lines b ∧ more = [])

instance (before : Option Record) (lines more : List (List Char)) (b : Record) :
    Decidable (AgreeAfter before lines more b) :=
  inferInstanceAs (Decidable (lines = [] ∧ more = [] ∨
    before.elim ['\n'] Record.terminator = b.terminator ∧
      (lines = [] ∨ EndsAs lines b ∧ more = [])))

theorem exists_fillLine_eq_append {b : Record} (hb : b.Closed) (hm : s.IsMarker b.content)
    (h : EndsAs lines b) : ∃ (x : List Char) (r : Record), Terminated x ∧ r.Closed ∧
      r.terminator = b.terminator ∧ s.fillLine lines b = x ++ r.text := by
  obtain ⟨l, hl, hend⟩ := h
  obtain ⟨front, rfl⟩ := List.getLast?_eq_some_iff.mp hl
  obtain ⟨x, c, hxc, hx, hc⟩ := exists_terminated_append (b.indent ++ l)
  have hfront : Terminated (s.fillLine front b) := terminated_fillLine hb
  have hclosed : Record.Closed ⟨c, b.terminator⟩ := by
    rcases hc with rfl | ⟨r, hr, rfl⟩
    · exact ⟨List.not_mem_nil, hb.isBreak.imp (fun h => ⟨h, by simp⟩) id⟩
    · rw [hr.text_eq]
      refine ⟨hr.notMem, hb.isBreak.imp (fun h => ⟨h, fun hcr => hend h ?_⟩) id⟩
      rw [← b.blank_indent.getLast?_append_iff, hxc, hr.text_eq]
      simp [List.getLast?_append, hcr]
  refine ⟨s.fillLine front b ++ x, _, hfront.append hx, hclosed, rfl, ?_⟩
  simp only [fillLine, if_pos hm, List.flatMap_append, List.flatMap_singleton, hxc, Record.text]
  simp only [List.append_assoc]

def Passed (s : Slot) (before : Option Record) : Prop :=
  ∀ r ∈ before, r.Closed ∧ ¬ s.IsMarker r.content

section Before

variable {before : Option Record}

theorem absent_before (hbefore : s.Passed before) {t : List Char} (ht : s.Absent t) :
    s.Absent (before.elim [] Record.text ++ t) := by
  cases before with
  | none => exact ht
  | some r =>
      obtain ⟨hr, hm⟩ := hbefore r rfl
      exact (absent_text_append hr).mpr ⟨hm, ht⟩

theorem not_isMarker_before (hs : '\n' ∉ s.token) (hbefore : s.Passed before) {t : List Char}
    (h : before ≠ none ∨ ¬ s.IsMarker t) : ¬ s.IsMarker (before.elim [] Record.text ++ t) := by
  cases before with
  | none => exact h.resolve_left fun hne => hne rfl
  | some r => exact not_isMarker_text_append hs (hbefore r rfl).1 t

theorem fillFrom_before (hs : '\n' ∉ s.token) (hbefore : s.Passed before) {t : List Char}
    (ht : ¬ s.IsMarker t) :
    s.fillFrom lines true 0 (before.elim [] Record.text ++ t) =
      before.elim [] Record.text ++ s.fillFrom lines true 0 t := by
  cases before with
  | none => rfl
  | some r =>
      obtain ⟨hr, hm⟩ := hbefore r rfl
      rw [Option.elim_some, fillFrom_append hs (.inr hr.getLast?_text) ht, fillFrom_text hs hr,
        fillLine, if_neg hm]

theorem fillFrom_before_last (hs : '\n' ∉ s.token) (hbefore : s.Passed before) {y : List Char}
    (hy : s.IsMarker y) (hl : lines ≠ []) :
    s.fillFrom lines true 0 (before.elim [] Record.text ++ y) =
      before.elim [] Record.text ++ (before.elim ['\n'] Record.terminator).intercalate
        (lines.map (y.takeWhile isBlank ++ ·)) := by
  cases before with
  | none =>
      simp only [Option.elim_none, List.nil_append]
      rw [fillFrom_last_marker hs hy, replacement_last hl, if_pos rfl, List.nil_append]
  | some r =>
      obtain ⟨hr, hm⟩ := hbefore r rfl
      simp only [Option.elim_some]
      rw [fillFrom_line hs hr hm, if_pos hy, replacement_last hl, if_neg hr.terminator_ne_nil,
        Record.text, List.append_assoc]

theorem fillFrom_nil_before_last (hs : '\n' ∉ s.token) (hbefore : s.Passed before)
    {y : List Char} (hy : s.IsMarker y) :
    s.fillFrom [] true 0 (before.elim [] Record.text ++ y) = before.elim [] Record.content := by
  cases before with
  | none => exact fillFrom_last_marker hs hy
  | some r =>
      obtain ⟨hr, hm⟩ := hbefore r rfl
      simp only [Option.elim_some]
      rw [fillFrom_line hs hr hm, if_pos hy]
      exact List.append_nil _

end Before

structure Meet (s q : Slot) (lines more : List (List Char)) (b m : Record) : Prop where
  first_notMem : '\n' ∉ s.token
  second_notMem : '\n' ∉ q.token
  lines_lack : ∀ l ∈ lines, Lacks q.token l
  more_lack : ∀ l ∈ more, Lacks s.token l
  first_closed : b.Closed
  second_open : m.Open
  first : s.IsMarker b.content
  second : q.IsMarker m.content
  ne : s ≠ q

namespace Meet

variable {before : Option Record} {b m : Record}

theorem not_second_first (h : Meet s q lines more b m) : ¬ q.IsMarker b.content := fun hq =>
  h.ne (eq_of_isMarker h.first hq)

theorem not_first_second (h : Meet s q lines more b m) : ¬ s.IsMarker m.content := fun hs =>
  h.ne (eq_of_isMarker hs h.second)

theorem second_text (h : Meet s q lines more b m) : q.IsMarker m.text :=
  h.second_open.text_eq ▸ h.second

theorem fillLine_eq (h : Meet s q lines more b m) :
    s.fillLine lines b = lines.flatMap fun l => b.indent ++ l ++ b.terminator := by
  rw [fillLine, if_pos h.first]

theorem absent_fillLine (h : Meet s q lines more b m) : q.Absent (s.fillLine lines b) := by
  rw [h.fillLine_eq]
  exact Absent.of_lacks (lacks_fillLine q.ne_nil h.lines_lack h.first_closed)

theorem exists_replacement (h : Meet s q lines more b m) (hne : more ≠ []) :
    ∃ u, (q.markerHit b.terminator m.text []).replacement more = b.terminator ++ u ∧
      s.Absent u := by
  obtain ⟨u, hu, hlacks⟩ :=
    lacks_replacement (s := q) s.ne_nil h.more_lack (.inr h.first_closed.isBreak) m.text hne
  exact ⟨u, hu, Absent.of_lacks hlacks⟩

theorem fillFrom_first (h : Meet s q lines more b m) :
    s.fillFrom lines true 0 (b.text ++ m.text) = s.fillLine lines b ++ m.text := by
  have hnot : ¬ s.IsMarker m.text := h.second_open.text_eq ▸ h.not_first_second
  rw [fillFrom_append h.first_notMem (.inr h.first_closed.getLast?_text) hnot,
    fillFrom_text h.first_notMem h.first_closed, fillFrom_last h.second_open h.not_first_second]

theorem fillFrom_second (h : Meet s q lines more b m) :
    q.fillFrom more true 0 (b.text ++ m.text) =
      b.content ++ (q.markerHit b.terminator m.text []).replacement more := by
  rw [fillFrom_line h.second_notMem h.first_closed h.not_second_first, if_pos h.second_text]

theorem fillFrom_first_append (h : Meet s q lines more b m) {u : List Char} (hu : s.Absent u) :
    s.fillFrom lines true 0 (b.text ++ u) = s.fillLine lines b ++ u := by
  have hmark := not_isMarker_of_absent h.first_notMem hu
  rw [fillFrom_append h.first_notMem (.inr h.first_closed.getLast?_text) hmark,
    fillFrom_text h.first_notMem h.first_closed, fillFrom_of_absent h.first_notMem hu]

/-- The lines in place of the second marker do not depend on the first, once the break is given. -/
theorem fillFrom_fillLine_append (h : Meet s q lines more b m) (hends : EndsAs lines b) :
    ∃ u, s.fillLine lines b = u ++ b.terminator ∧
      q.fillFrom more true 0 (s.fillLine lines b ++ m.text) =
        u ++ (q.markerHit b.terminator m.text []).replacement more := by
  obtain ⟨x, r, hx, hr, hterm, heq⟩ := exists_fillLine_eq_append h.first_closed h.first hends
  have habsent := h.absent_fillLine
  rw [heq, absent_append hx] at habsent
  obtain ⟨hax, har⟩ := habsent
  rw [← List.append_nil r.text, absent_text_append hr] at har
  refine ⟨x ++ r.content, ?_, ?_⟩
  · rw [heq, Record.text, hterm, List.append_assoc]
  · rw [heq, fillFrom_line_last h.second_notMem hx hr har.1 h.second_text,
      fillFrom_of_absent h.second_notMem hax, hterm]

theorem fillFrom_comm (h : Meet s q lines more b m) (hagree : Agree lines more b) :
    q.fillFrom more true 0 (s.fillFrom lines true 0 (b.text ++ m.text)) =
      s.fillFrom lines true 0 (q.fillFrom more true 0 (b.text ++ m.text)) := by
  rw [h.fillFrom_first, h.fillFrom_second]
  by_cases hne : more = []
  · -- the second marker goes with the break, and the one line of the first is left open
    obtain ⟨hends, hone⟩ := hagree.resolve_left (by simp [hne])
    obtain ⟨l, rfl⟩ := List.length_eq_one_iff.mp (hone hne)
    obtain ⟨u, hu, hfill⟩ := h.fillFrom_fillLine_append hends
    rw [h.fillLine_eq, List.flatMap_singleton] at hu
    rw [hfill, hne, show (q.markerHit b.terminator m.text []).replacement [] = [] from rfl,
      List.append_nil, List.append_nil, fillFrom_last_marker h.first_notMem h.first,
      replacement_last_singleton]
    exact (List.append_cancel_right hu).symm
  · obtain ⟨u, hu, habsent⟩ := h.exists_replacement hne
    rw [hu, ← List.append_assoc, ← Record.text, h.fillFrom_first_append habsent]
    rcases hagree with hone | ⟨hends, -⟩
    · -- one line comes out the same after any text
      obtain ⟨l, rfl⟩ := List.length_eq_one_iff.mp hone
      rw [replacement_last_singleton] at hu
      rw [fillFrom_append_of_length_eq_one h.second_notMem hone
          (terminated_fillLine h.first_closed),
        fillFrom_of_absent h.second_notMem h.absent_fillLine,
        fillFrom_last_marker h.second_notMem h.second_text, replacement_last_singleton,
        List.nil_append, List.append_cancel_left hu]
    · obtain ⟨v, hv, hfill⟩ := h.fillFrom_fillLine_append hends
      rw [hfill, hu, hv, List.append_assoc]

/-- A break stands before the second marker also once the first is filled, if it is needed. -/
theorem not_isMarker_fillFrom_first (h : Meet s q lines more b m) (hagree : Agree lines more b) :
    ¬ q.IsMarker (s.fillFrom lines true 0 (b.text ++ m.text)) ∨ more.length = 1 := by
  rcases hagree with hone | ⟨hends, -⟩
  · exact .inr hone
  · obtain ⟨x, r, _, hr, _, heq⟩ := exists_fillLine_eq_append h.first_closed h.first hends
    left
    intro hmark
    apply notMem_of_isMarker h.second_notMem hmark
    rw [h.fillFrom_first, heq]
    simp [List.mem_of_getLast? hr.getLast?_text]

theorem not_isMarker_fillFrom_second (h : Meet s q lines more b m) (hagree : Agree lines more b) :
    ¬ s.IsMarker (q.fillFrom more true 0 (b.text ++ m.text)) ∨ lines.length = 1 := by
  by_cases hne : more = []
  · exact .inr ((hagree.resolve_left (by simp [hne])).2 hne)
  · left
    intro hmark
    apply notMem_of_isMarker h.first_notMem hmark
    rw [h.fillFrom_second, replacement_last hne, if_neg h.first_closed.terminator_ne_nil]
    rcases h.first_closed.isBreak with hbreak | hbreak <;> simp [hbreak]

theorem fillFrom_before_first (h : Meet s q lines more b m) (hbefore : s.Passed before) :
    s.fillFrom lines true 0 (before.elim [] Record.text ++ (b.text ++ m.text)) =
      before.elim [] Record.text ++ (s.fillLine lines b ++ m.text) := by
  rw [fillFrom_before h.first_notMem hbefore
    (not_isMarker_text_append h.first_notMem h.first_closed m.text), h.fillFrom_first]

theorem fillFrom_before_second (h : Meet s q lines more b m) (hbefore : q.Passed before) :
    q.fillFrom more true 0 (before.elim [] Record.text ++ (b.text ++ m.text)) =
      before.elim [] Record.text ++
        (b.content ++ (q.markerHit b.terminator m.text []).replacement more) := by
  rw [fillFrom_before h.second_notMem hbefore
    (not_isMarker_text_append h.second_notMem h.first_closed m.text), h.fillFrom_second]

theorem fillFrom_comm_of_nil (h : Meet s q [] more b m) (hs : s.Passed before)
    (hq : q.Passed before)
    (hterm : more = [] ∨ before.elim ['\n'] Record.terminator = b.terminator) :
    q.fillFrom more true 0
        (s.fillFrom [] true 0 (before.elim [] Record.text ++ (b.text ++ m.text))) =
      s.fillFrom [] true 0
        (q.fillFrom more true 0 (before.elim [] Record.text ++ (b.text ++ m.text))) := by
  have hnil : s.fillLine [] b = [] := by rw [h.fillLine_eq, List.flatMap_nil]
  rw [h.fillFrom_before_first hs, hnil, List.nil_append, h.fillFrom_before_second hq]
  by_cases hne : more = []
  · subst hne
    rw [fillFrom_nil_before_last h.second_notMem hq h.second_text,
      show (q.markerHit b.terminator m.text []).replacement [] = [] from rfl, List.append_nil,
      fillFrom_nil_before_last h.first_notMem hs h.first]
  · -- the second marker takes the break of the first, which then goes with the first
    obtain ⟨u, hu, habsent⟩ := h.exists_replacement hne
    have heq := hu
    rw [replacement_last hne, if_neg h.first_closed.terminator_ne_nil,
      List.append_cancel_left_eq] at heq
    rw [fillFrom_before_last h.second_notMem hq h.second_text hne, hterm.resolve_left hne, heq, hu,
      ← List.append_assoc b.content, ← Record.text,
      fillFrom_before h.first_notMem hs (not_isMarker_text_append h.first_notMem h.first_closed u),
      h.fillFrom_first_append habsent, hnil, List.nil_append]

theorem fillFrom_nil_comm (h : Meet s q lines [] b m) (hs : s.Passed before)
    (hq : q.Passed before) (hends : EndsAs lines b)
    (hterm : before.elim ['\n'] Record.terminator = b.terminator) :
    q.fillFrom [] true 0
        (s.fillFrom lines true 0 (before.elim [] Record.text ++ (b.text ++ m.text))) =
      s.fillFrom lines true 0
        (q.fillFrom [] true 0 (before.elim [] Record.text ++ (b.text ++ m.text))) := by
  have hne : lines ≠ [] := by
    rintro rfl
    obtain ⟨l, hl, _⟩ := hends
    cases hl
  obtain ⟨u, hu, hfill⟩ := h.fillFrom_fillLine_append hends
  have heq : u = b.terminator.intercalate (lines.map (b.indent ++ ·)) := by
    have hmap : lines.map (b.indent ++ ·) ≠ [] := by simpa using hne
    have happend := intercalate_append_self b.terminator hmap
    rw [List.flatMap_map, ← h.fillLine_eq, hu] at happend
    exact (List.append_cancel_right happend).symm
  have hmark : ¬ q.IsMarker (s.fillLine lines b ++ m.text) := by
    intro hmark
    have hn := notMem_of_isMarker h.second_notMem hmark
    rw [hu] at hn
    rcases h.first_closed.isBreak with hbreak | hbreak <;> simp [hbreak] at hn
  -- the first marker ends the text once the second is gone, and takes the break before it
  rw [h.fillFrom_before_first hs, fillFrom_before h.second_notMem hq hmark, hfill,
    h.fillFrom_before_second hq,
    show (q.markerHit b.terminator m.text []).replacement [] = [] from rfl, List.append_nil,
    List.append_nil, fillFrom_before_last h.first_notMem hs h.first hne, hterm, heq]
  rfl

theorem fillFrom_comm_after (h : Meet s q lines more b m) (hs : s.Passed before)
    (hq : q.Passed before) (hagree : AgreeAfter before lines more b) :
    q.fillFrom more true 0
        (s.fillFrom lines true 0 (before.elim [] Record.text ++ (b.text ++ m.text))) =
      s.fillFrom lines true 0
        (q.fillFrom more true 0 (before.elim [] Record.text ++ (b.text ++ m.text))) := by
  rcases hagree with ⟨rfl, rfl⟩ | ⟨hterm, rfl | ⟨hends, rfl⟩⟩
  · exact h.fillFrom_comm_of_nil hs hq (.inl rfl)
  · exact h.fillFrom_comm_of_nil hs hq (.inr hterm)
  · exact h.fillFrom_nil_comm hs hq hends hterm

end Meet

end AssetSlots.Slot
