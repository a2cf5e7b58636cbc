import AssetSlots.Proofs.Slot.LastLine
import AssetSlots.Proofs.Slot.Removal
import AssetSlots.Proofs.Text.CrLf

namespace AssetSlots.Slot

open Text

variable {s : Slot} {lines : List (List Char)}

/-- The marker line that the text leaves open comes right after another marker line, and a `\n`
after one of the lines, the last one left out, has no `\r` before it. -/
def JoinsBare (s : Slot) (lines : List (List Char)) (t : List Char) : Prop :=
  ∃ rs b m, records t = rs ++ [b, m] ∧ s.IsMarker b.content ∧ m.terminator = [] ∧
    s.IsMarker m.content ∧ ∃ l ∈ lines.dropLast, l.getLast? ≠ some '\r'

theorem JoinsBare.endsOpen {t : List Char} (h : s.JoinsBare lines t) : s.EndsOpen t := by
  obtain ⟨rs, b, m, ht, _, hterm, hm, _⟩ := h
  exact ⟨m, by simp [ht], hterm, hm⟩

theorem joinsBare_iff {t : List Char} {rs : List Record} {b m : Record}
    (h : records t = rs ++ [b, m]) :
    s.JoinsBare lines t ↔ s.IsMarker b.content ∧ m.terminator = [] ∧ s.IsMarker m.content ∧
      ∃ l ∈ lines.dropLast, l.getLast? ≠ some '\r' := by
  constructor
  · rintro ⟨rs', b', m', h', hrest⟩
    obtain ⟨rfl, rfl, rfl⟩ := append_pair_inj (h.symm.trans h')
    exact hrest
  · intro hrest
    exact ⟨rs, b, m, h, hrest⟩

theorem crlf_fillLine (hlines : ∀ l ∈ lines, '\n' ∉ l) {r : Record} (hr : r.Closed)
    (ht : r.terminator = ['\r', '\n']) : CrLf (s.fillLine lines r) := by
  by_cases hm : s.IsMarker r.content
  · rw [fillLine, if_pos hm, ht]
    induction lines with
    | nil => exact crlf_of_notMem List.not_mem_nil
    | cons l ls ih =>
        rw [List.forall_mem_cons] at hlines
        have hclosed : Record.Closed ⟨r.indent ++ l, ['\r', '\n']⟩ :=
          ⟨r.blank_indent.notMem_append hlines.1, .inr rfl⟩
        rw [List.flatMap_cons]
        exact (crlf_text_append hclosed).mpr ⟨rfl, ih hlines.2⟩
  · have htext := (crlf_text_append hr).mpr ⟨ht, crlf_of_notMem List.not_mem_nil⟩
    rwa [fillLine, if_neg hm, ← List.append_nil r.text]

theorem crlf_fillFrom_of_terminated (hs : '\n' ∉ s.token) (hlines : ∀ l ∈ lines, '\n' ∉ l)
    {t : List Char} (ht : Terminated t) (hcrlf : CrLf t) :
    CrLf (s.fillFrom lines true 0 t) := by
  induction t using lineInduction with
  | nil => exact crlf_of_notMem List.not_mem_nil
  | last r hr => exact absurd ht (not_terminated_text hr)
  | line r rest hr ih =>
      obtain ⟨hterm, hrest⟩ := (crlf_text_append hr).mp hcrlf
      have hrest' := (terminated_text_append hr).mp ht
      rw [fillFrom_append hs (.inr hr.getLast?_text) (not_isMarker_of_terminated hs hrest'),
        fillFrom_text hs hr]
      exact (crlf_append (terminated_fillLine hr)).mpr
        ⟨crlf_fillLine hlines hr hterm, ih hrest' hrest⟩

theorem crlf_intercalate {ls : List (List Char)} (hls : ∀ l ∈ ls, '\n' ∉ l) :
    CrLf (['\r', '\n'].intercalate ls) := by
  induction ls with
  | nil => exact crlf_of_notMem List.not_mem_nil
  | cons l ls ih =>
      rw [List.forall_mem_cons] at hls
      cases ls with
      | nil => simpa using crlf_of_notMem hls.1
      | cons k ls =>
          have hclosed : Record.Closed ⟨l, ['\r', '\n']⟩ := ⟨hls.1, .inr rfl⟩
          rw [List.intercalate_cons_cons]
          exact (crlf_text_append hclosed).mpr ⟨rfl, ih hls.2⟩

/-- A bare `\n` between lines makes up a `\r\n` only with a `\r` that a line ends with. -/
theorem crlf_intercalate_lf {ls : List (List Char)} (hls : ∀ l ∈ ls, '\n' ∉ l) :
    CrLf (['\n'].intercalate ls) ↔ ∀ l ∈ ls.dropLast, l.getLast? = some '\r' := by
  induction ls with
  | nil => simp [crlf_of_notMem]
  | cons l ls ih =>
      rw [List.forall_mem_cons] at hls
      cases ls with
      | nil => simpa using crlf_of_notMem hls.1
      | cons k ls =>
          rw [List.intercalate_cons_cons, List.append_assoc, List.singleton_append,
            crlf_append_lf hls.1, ih hls.2, List.dropLast_cons_cons, List.forall_mem_cons]

theorem notMem_indented (hlines : ∀ l ∈ lines, '\n' ∉ l) (content : List Char) :
    ∀ l ∈ lines.map (content.takeWhile isBlank ++ ·), '\n' ∉ l := by
  intro l hl
  obtain ⟨k, hk, rfl⟩ := List.mem_map.mp hl
  exact (Record.blank_indent ⟨content, []⟩).notMem_append (hlines k hk)

/-- With no break of its own and none before it to take, a marker joins its lines with `\n`. -/
theorem crlf_replacement_nil_iff (hlines : ∀ l ∈ lines, '\n' ∉ l) (content : List Char) :
    CrLf ((s.markerHit [] content []).replacement lines) ↔
      ∀ l ∈ lines.dropLast, l.getLast? = some '\r' := by
  by_cases hl : lines = []
  · rw [hl]
    simpa [Hit.replacement] using crlf_of_notMem List.not_mem_nil
  · have hi : Blank (content.takeWhile isBlank) := Record.blank_indent ⟨content, []⟩
    rw [replacement_last hl, if_pos rfl, List.nil_append,
      crlf_intercalate_lf (notMem_indented hlines content), ← List.map_dropLast,
      List.forall_mem_map]
    simp only [hi.getLast?_append_iff]

theorem crlf_content_append_replacement (hlines : ∀ l ∈ lines, '\n' ∉ l) {b : Record}
    (hb : b.Closed) (ht : b.terminator = ['\r', '\n']) (y : List Char) :
    CrLf (b.content ++ (s.markerHit b.terminator y []).replacement lines) := by
  by_cases hl : lines = []
  · rw [hl]
    simpa [Hit.replacement] using crlf_of_notMem hb.notMem
  · rw [replacement_last hl, if_neg hb.terminator_ne_nil, ← List.append_assoc, ← Record.text,
      crlf_text_append hb, ht]
    exact ⟨rfl, crlf_intercalate (notMem_indented hlines y)⟩

theorem crlf_fillFrom_of_not_endsOpen (hs : '\n' ∉ s.token) (hlines : ∀ l ∈ lines, '\n' ∉ l)
    {t : List Char} (ht : CrLf t) (he : ¬ s.EndsOpen t) : CrLf (s.fillFrom lines true 0 t) := by
  obtain ⟨x, y, rfl, hx, rfl | ⟨m, hm, rfl⟩⟩ := exists_terminated_append t
  · rw [List.append_nil] at ht ⊢
    exact crlf_fillFrom_of_terminated hs hlines hx ht
  · have hnot : ¬ s.IsMarker m.content := fun h =>
      he ((endsOpen_iff (records_append_text hx hm)).mpr ⟨hm.terminator_eq, h⟩)
    obtain ⟨hcx, hcm⟩ := (crlf_append hx).mp ht
    rw [fillFrom_append hs hx (hm.text_eq ▸ hnot), fillFrom_last hm hnot]
    exact (crlf_append (terminated_fillFrom hs hx)).mpr
      ⟨crlf_fillFrom_of_terminated hs hlines hx hcx, hcm⟩

theorem crlf_fillFrom_iff (hs : '\n' ∉ s.token) (hlines : ∀ l ∈ lines, '\n' ∉ l) {t : List Char}
    (hbreak : '\n' ∈ t) (ht : CrLf t) :
    CrLf (s.fillFrom lines true 0 t) ↔ ¬ s.JoinsBare lines t := by
  by_cases he : s.EndsOpen t
  · obtain ⟨x, y, rfl, hx, rfl | ⟨m, hm, rfl⟩⟩ := exists_terminated_append t
    · exact absurd he (not_endsOpen_of_terminated (by rwa [List.append_nil]))
    have hmark : s.IsMarker m.text :=
      hm.text_eq ▸ ((endsOpen_iff (records_append_text hx hm)).mp he).2
    rcases hx.eq_nil_or_append with rfl | ⟨v, b, rfl, hv, hb⟩
    · exact absurd hbreak (notMem_of_isMarker hs hmark)
    obtain ⟨hcx, -⟩ := (crlf_append hx).mp ht
    rw [joinsBare_iff (records_append_two hv hb hm)]
    by_cases hbm : s.IsMarker b.content
    · -- the lines of the last marker are all that is in question
      rw [fillFrom_marker_last hs hv hb hbm hmark, crlf_append (terminated_fillFrom hs hx),
        crlf_replacement_nil_iff hlines]
      have hfront := crlf_fillFrom_of_terminated hs hlines hx hcx
      have hopen := hm.text_eq ▸ hmark
      simp [hfront, hbm, hm.terminator_eq, hopen]
    · obtain ⟨hcv, hcb⟩ := (crlf_append hv).mp hcx
      have hterm : b.terminator = ['\r', '\n'] := by
        rw [← List.append_nil b.text] at hcb
        exact ((crlf_text_append hb).mp hcb).1
      rw [fillFrom_line_last hs hv hb hbm hmark, List.append_assoc,
        crlf_append (terminated_fillFrom hs hv)]
      have hfront := crlf_fillFrom_of_terminated hs hlines hv hcv
      have hlast := crlf_content_append_replacement (s := s) hlines hb hterm m.text
      simp [hfront, hlast, hbm]
  · exact ⟨fun _ h => he h.endsOpen, fun _ => crlf_fillFrom_of_not_endsOpen hs hlines ht he⟩

/-- Where all breaks are `\r\n` they still are after filling, but for the ones between the lines of
a marker that the text leaves open right after another marker. -/
theorem crlf_fill_iff {token : String} (hblank : trim token.toList ≠ [])
    (hline : '\n' ∉ trim token.toList) {chunk : String} (hbreak : '\n' ∈ chunk.toList)
    (hcrlf : CrLf chunk.toList) {refs : List String} (hrefs : ∀ ref ∈ refs, '\n' ∉ ref.toList) :
    ∃ s, Slot.ofText token = .ok s ∧ s.token = trim token.toList ∧
      (CrLf (s.fill chunk refs).toList ↔
        ¬ s.JoinsBare (refs.map String.toList) chunk.toList) := by
  refine ⟨_, dif_neg hblank, rfl, ?_⟩
  rw [fill, String.toList_ofList]
  refine crlf_fillFrom_iff hline (fun l hl => ?_) hbreak hcrlf
  obtain ⟨ref, href, rfl⟩ := List.mem_map.mp hl
  exact hrefs ref href

theorem crlf_fill_iff_kept :
    trim "T".toList ≠ [] ∧ '\n' ∉ trim "T".toList ∧ '\n' ∈ "a\r\nT\r\n\tT".toList ∧
      CrLf "a\r\nT\r\n\tT".toList ∧ (∀ ref ∈ ["x\r", "y"], '\n' ∉ ref.toList) ∧
      ∃ s, Slot.ofText "T" = .ok s ∧ s.token = ['T'] ∧
        s.fill "a\r\nT\r\n\tT" ["x\r", "y"] = "a\r\nx\r\r\ny\r\n\tx\r\n\ty" ∧
        CrLf (s.fill "a\r\nT\r\n\tT" ["x\r", "y"]).toList := by
  have hblank : trim "T".toList ≠ [] := by decide
  have hline : '\n' ∉ trim "T".toList := by decide
  have hbreak : '\n' ∈ "a\r\nT\r\n\tT".toList := by decide
  have hcrlf : CrLf "a\r\nT\r\n\tT".toList := by decide
  have hrefs : ∀ ref ∈ ["x\r", "y"], '\n' ∉ ref.toList := by decide
  obtain ⟨s, ho, ht, hiff⟩ := crlf_fill_iff hblank hline hbreak hcrlf hrefs
  obtain ⟨token, h1, h2, h3⟩ := s
  obtain rfl : token = ['T'] := ht.trans (by decide)
  have hrec : records "a\r\nT\r\n\tT".toList =
      [⟨['a'], ['\r', '\n']⟩] ++ [⟨['T'], ['\r', '\n']⟩, ⟨['\t', 'T'], []⟩] := rfl
  refine ⟨hblank, hline, hbreak, hcrlf, hrefs, _, ho, rfl, rfl, hiff.mpr ?_⟩
  rw [joinsBare_iff hrec]
  rintro ⟨-, -, -, l, hl, hne⟩
  obtain rfl : l = ['x', '\r'] := by simpa using hl
  exact hne rfl

/-- Two markers at the end: the first takes the break between them, and the second, left without
one, joins its lines with `\n`. -/
theorem crlf_fill_bare :
    ∃ s, Slot.ofText "T" = .ok s ∧ '\n' ∈ "T\r\nT".toList ∧ CrLf "T\r\nT".toList ∧
      (∀ ref ∈ ["x", "y"], '\n' ∉ ref.toList) ∧
      s.fill "T\r\nT" ["x", "y"] = "x\r\ny\r\nx\ny" ∧
      ¬ CrLf (s.fill "T\r\nT" ["x", "y"]).toList :=
  ⟨_, rfl, by decide, by decide, by decide, rfl, by decide⟩

end AssetSlots.Slot
