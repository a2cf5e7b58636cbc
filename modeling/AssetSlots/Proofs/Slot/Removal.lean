import AssetSlots.Proofs.Slot.Terminated

namespace AssetSlots.Slot

open Text

variable {s : Slot}

def survivors (s : Slot) (t : List Char) : List Record :=
  (records t).filter fun r => ¬ s.IsMarker r.content

def leaveOpen (rs : List Record) : List Char :=
  rs.dropLast.flatMap Record.text ++ rs.getLast?.elim [] Record.content

def EndsOpen (s : Slot) (t : List Char) : Prop :=
  ∃ r, (records t).getLast? = some r ∧ r.terminator = [] ∧ s.IsMarker r.content

instance (s : Slot) (t : List Char) : Decidable (s.EndsOpen t) :=
  match h : (records t).getLast? with
  | none => isFalse (by simp [EndsOpen, h])
  | some r => decidable_of_iff (r.terminator = [] ∧ s.IsMarker r.content) (by simp [EndsOpen, h])

def withoutMarkers (s : Slot) (t : List Char) : List Char :=
  if s.EndsOpen t then leaveOpen (s.survivors t) else (s.survivors t).flatMap Record.text

/-- The marker line that the text leaves open comes right after another marker line, and some line
before them is none. -/
def Stranded (s : Slot) (t : List Char) : Prop :=
  ∃ rs b m, records t = rs ++ [b, m] ∧ s.IsMarker b.content ∧ m.terminator = [] ∧
    s.IsMarker m.content ∧ ∃ r ∈ rs, ¬ s.IsMarker r.content

theorem survivors_append {x : List Char} (hx : Terminated x) (y : List Char) :
    s.survivors (x ++ y) = s.survivors x ++ s.survivors y := by
  rw [survivors, records_append hx, List.filter_append, survivors, survivors]

theorem survivors_of_isMarker (hs : '\n' ∉ s.token) {t : List Char} (hm : s.IsMarker t) :
    s.survivors t = [] := by
  simp [survivors, records_of_isMarker hs hm, hm]

theorem survivors_text {r : Record} (hr : r.Closed) :
    s.survivors r.text = if s.IsMarker r.content then [] else [r] := by
  by_cases hm : s.IsMarker r.content <;> simp [survivors, records_text_of_closed hr, hm]

theorem survivors_ne_nil_iff {t : List Char} :
    s.survivors t ≠ [] ↔ ∃ r ∈ records t, ¬ s.IsMarker r.content := by
  simp [survivors, List.filter_eq_nil_iff]

theorem leaveOpen_append (rs : List Record) (r : Record) :
    leaveOpen (rs ++ [r]) = rs.flatMap Record.text ++ r.content := by
  simp [leaveOpen]

theorem leaveOpen_ne {rs : List Record} (hne : rs ≠ []) (hrs : ∀ r ∈ rs, r.Closed) :
    rs.flatMap Record.text ≠ leaveOpen rs := by
  obtain ⟨front, r, rfl⟩ := List.eq_nil_or_concat rs |>.resolve_left hne
  rw [List.concat_eq_append, leaveOpen_append, List.flatMap_append, List.flatMap_singleton]
  intro h
  have hterm := (hrs r (by simp)).terminator_ne_nil
  exact hterm (by simpa [Record.text] using List.append_cancel_left h)

theorem endsOpen_iff {t : List Char} {rs : List Record} {m : Record}
    (h : records t = rs ++ [m]) : s.EndsOpen t ↔ m.terminator = [] ∧ s.IsMarker m.content := by
  simp [EndsOpen, h]

theorem stranded_iff {t : List Char} {rs : List Record} {b m : Record}
    (h : records t = rs ++ [b, m]) :
    s.Stranded t ↔ s.IsMarker b.content ∧ m.terminator = [] ∧ s.IsMarker m.content ∧
      ∃ r ∈ rs, ¬ s.IsMarker r.content := by
  constructor
  · rintro ⟨rs', b', m', h', hrest⟩
    obtain ⟨rfl, rfl, rfl⟩ := append_pair_inj (h.symm.trans h')
    exact hrest
  · intro hrest
    exact ⟨rs, b, m, h, hrest⟩

theorem Stranded.endsOpen {t : List Char} (h : s.Stranded t) : s.EndsOpen t := by
  obtain ⟨rs, b, m, ht, _, hterm, hm, _⟩ := h
  exact ⟨m, by simp [ht], hterm, hm⟩

theorem fillFrom_nil_of_terminated (hs : '\n' ∉ s.token) {t : List Char} (ht : Terminated t) :
    s.fillFrom [] true 0 t = (s.survivors t).flatMap Record.text := by
  rw [fillFrom_of_terminated hs ht, survivors]
  induction records t with
  | nil => rfl
  | cons r rs ih =>
      by_cases hm : s.IsMarker r.content <;> simp [fillLine, hm, ih]

theorem fillFrom_nil_of_isMarker (hs : '\n' ∉ s.token) {t : List Char} (hm : s.IsMarker t) :
    s.fillFrom [] true 0 t = [] := fillFrom_last_marker hs hm

theorem fillFrom_nil_of_not_endsOpen (hs : '\n' ∉ s.token) {t : List Char}
    (he : ¬ s.EndsOpen t) : s.fillFrom [] true 0 t = (s.survivors t).flatMap Record.text := by
  obtain ⟨x, y, rfl, hx, rfl | ⟨r, hr, rfl⟩⟩ := exists_terminated_append t
  · rw [List.append_nil]
    exact fillFrom_nil_of_terminated hs hx
  · have hrec := records_append_text hx hr
    have hm : ¬ s.IsMarker r.content := fun hm =>
      he ((endsOpen_iff hrec).mpr ⟨hr.terminator_eq, hm⟩)
    rw [fillFrom_append hs hx (hr.text_eq ▸ hm), fillFrom_nil_of_terminated hs hx,
      fillFrom_last hr hm, survivors_append hx, List.flatMap_append]
    simp [survivors, records_text_of_open hr, hm]

theorem not_endsOpen_of_terminated {t : List Char} (ht : Terminated t) : ¬ s.EndsOpen t := by
  rintro ⟨r, hr, hterm, _⟩
  exact (ht.closed_of_mem (List.mem_of_getLast? hr)).terminator_ne_nil hterm

/-- The line before a marker left open decides: the marker takes its break, if it is no marker line
itself, and else there is none to take. -/
theorem fillFrom_nil_of_endsOpen (hs : '\n' ∉ s.token) {t : List Char} (he : s.EndsOpen t) :
    (s.Stranded t → s.fillFrom [] true 0 t = (s.survivors t).flatMap Record.text) ∧
      (¬ s.Stranded t → s.fillFrom [] true 0 t = leaveOpen (s.survivors t)) := by
  obtain ⟨x, y, rfl, hx, rfl | ⟨m, hm, rfl⟩⟩ := exists_terminated_append t
  · rw [List.append_nil] at he
    exact absurd he (not_endsOpen_of_terminated hx)
  have hrec := records_append_text hx hm
  have hmark : s.IsMarker m.text := hm.text_eq ▸ ((endsOpen_iff hrec).mp he).2
  rcases hx.eq_nil_or_append with rfl | ⟨z, b, rfl, hz, hb⟩
  · -- nothing but the marker
    have hnot : ¬ s.Stranded m.text := by
      rintro ⟨rs, b, q, h, _⟩
      rw [records_text_of_open hm] at h
      have hlen := congrArg List.length h
      simp at hlen
    rw [List.nil_append, fillFrom_nil_of_isMarker hs hmark, survivors_of_isMarker hs hmark]
    exact ⟨fun h => absurd h hnot, fun _ => rfl⟩
  have hsurv : s.survivors (z ++ b.text ++ m.text) =
      s.survivors z ++ if s.IsMarker b.content then [] else [b] := by
    rw [survivors_append hx, survivors_of_isMarker hs hmark, List.append_nil, survivors_append hz,
      survivors_text hb]
  rw [List.append_assoc, fillFrom_append hs hz (not_isMarker_text_append hs hb _),
    fillFrom_nil_of_terminated hs hz, ← List.append_assoc, hsurv,
    stranded_iff (records_append_two hz hb hm)]
  by_cases hbm : s.IsMarker b.content
  · -- the marker before it has taken the break
    rw [fillFrom_marker hs hb hbm, replacement_markerHit hb, fillFrom_nil_of_isMarker hs hmark,
      if_pos hbm, List.append_nil]
    refine ⟨fun _ => by simp, fun h => ?_⟩
    have hnil : s.survivors z = [] := by
      refine Classical.byContradiction fun hne => h ?_
      exact ⟨hbm, hm.terminator_eq, hm.text_eq ▸ hmark, survivors_ne_nil_iff.mp hne⟩
    simp [hnil, leaveOpen]
  · rw [fillFrom_line hs hb hbm, if_pos hmark, if_neg hbm, leaveOpen_append]
    refine ⟨fun h => absurd h.1 hbm, fun _ => ?_⟩
    rw [show (s.markerHit b.terminator m.text []).replacement [] = [] from rfl, List.append_nil]

theorem EndsOpen.closed_of_mem_survivors {t : List Char} (he : s.EndsOpen t) {r : Record}
    (hr : r ∈ s.survivors t) : r.Closed := by
  obtain ⟨hmem, hm⟩ := List.mem_filter.mp hr
  have hnot : ¬ s.IsMarker r.content := by simpa using hm
  obtain ⟨x, y, rfl, hx, rfl | ⟨m, hopen, rfl⟩⟩ := exists_terminated_append t
  · rw [List.append_nil] at hmem
    exact hx.closed_of_mem hmem
  · have hrec := records_append_text hx hopen
    rw [hrec, List.mem_append, List.mem_singleton] at hmem
    rcases hmem with hmem | rfl
    · exact hx.closed_of_mem hmem
    · exact absurd ((endsOpen_iff hrec).mp he).2 hnot

theorem fillFrom_nil_eq_withoutMarkers_iff (hs : '\n' ∉ s.token) (t : List Char) :
    s.fillFrom [] true 0 t = s.withoutMarkers t ↔ ¬ s.Stranded t := by
  by_cases he : s.EndsOpen t
  · rw [withoutMarkers, if_pos he]
    obtain ⟨hstranded, hnot⟩ := fillFrom_nil_of_endsOpen hs he
    refine ⟨fun h hstr => ?_, hnot⟩
    have hne : s.survivors t ≠ [] := by
      obtain ⟨rs, b, m, ht, _, _, _, r, hr, hm⟩ := hstr
      exact survivors_ne_nil_iff.mpr ⟨r, by simp [ht, hr], hm⟩
    rw [hstranded hstr] at h
    exact leaveOpen_ne hne (fun r => he.closed_of_mem_survivors) h
  · rw [withoutMarkers, if_neg he]
    exact ⟨fun _ h => he h.endsOpen, fun _ => fillFrom_nil_of_not_endsOpen hs he⟩

/-- Without references the marker lines go, and the line that is last then is left open if the last
marker was; the break stays if the marker before that one is a marker too, and some line is not. -/
theorem fill_nil_eq_withoutMarkers_iff {token : String} (hblank : trim token.toList ≠ [])
    (hline : '\n' ∉ trim token.toList) (chunk : String) :
    ∃ s, Slot.ofText token = .ok s ∧ s.token = trim token.toList ∧
      (s.fill chunk [] = String.ofList (s.withoutMarkers chunk.toList) ↔
        ¬ s.Stranded chunk.toList) ∧
      (s.Stranded chunk.toList →
        s.fill chunk [] = String.ofList ((s.survivors chunk.toList).flatMap Record.text)) := by
  refine ⟨_, dif_neg hblank, rfl, ?_, ?_⟩
  · rw [fill, String.ofList_inj]
    exact fillFrom_nil_eq_withoutMarkers_iff hline chunk.toList
  · intro h
    exact congrArg String.ofList ((fillFrom_nil_of_endsOpen hline h.endsOpen).1 h)

theorem fill_nil_keeps_break :
    trim "T".toList ≠ [] ∧ '\n' ∉ trim "T".toList ∧
      ∃ s, Slot.ofText "T" = .ok s ∧ s.token = ['T'] ∧ s.Stranded "b\r\na\r\nT\n\tT".toList ∧
        s.fill "b\r\na\r\nT\n\tT" [] = "b\r\na\r\n" ∧
        s.fill "b\r\na\r\nT\n\tT" [] ≠
          String.ofList (s.withoutMarkers "b\r\na\r\nT\n\tT".toList) := by
  have hblank : trim "T".toList ≠ [] := by decide
  have hline : '\n' ∉ trim "T".toList := by decide
  obtain ⟨s, ho, ht, hiff, hkeep⟩ :=
    fill_nil_eq_withoutMarkers_iff hblank hline "b\r\na\r\nT\n\tT"
  obtain ⟨token, h1, h2, h3⟩ := s
  obtain rfl : token = ['T'] := ht.trans (by decide)
  have hstr : Stranded ⟨['T'], h1, h2, h3⟩ "b\r\na\r\nT\n\tT".toList := by
    refine ⟨[⟨['b'], ['\r', '\n']⟩, ⟨['a'], ['\r', '\n']⟩], ⟨['T'], ['\n']⟩, ⟨['\t', 'T'], []⟩, rfl,
      isMarker_iff.mpr rfl, rfl, isMarker_iff.mpr rfl, ⟨['a'], ['\r', '\n']⟩, by simp, ?_⟩
    rw [isMarker_iff]
    exact Bool.false_ne_true
  exact ⟨hblank, hline, _, ho, rfl, hstr, (hkeep hstr).trans rfl, fun h => hiff.mp h hstr⟩

/-- Two markers at the end: the first takes the break between them, and the break of the line that
is left stays. -/
theorem fill_nil_stranded :
    ∃ s, Slot.ofText "T" = .ok s ∧ s.fill "a\nT\nT" [] = "a\n" ∧
      String.ofList (s.withoutMarkers "a\nT\nT".toList) = "a" :=
  ⟨_, rfl, rfl, rfl⟩

end AssetSlots.Slot
