import AssetSlots.Proofs.Text.Lines
import AssetSlots.Text.Blank

namespace AssetSlots.Text

def White (t : List Char) : Prop := ∀ c ∈ t, isWhite c = true

def Blank (t : List Char) : Prop := ∀ c ∈ t, isBlank c = true

theorem Blank.white {t : List Char} (ht : Blank t) : White t := fun c hc =>
  isWhite_of_isBlank (ht c hc)

theorem Blank.notMem {t : List Char} (ht : Blank t) : '\n' ∉ t := fun h =>
  absurd (ht _ h) (by decide)

theorem Blank.getLast?_ne {t : List Char} (ht : Blank t) : t.getLast? ≠ some '\r' := fun h =>
  absurd (ht _ (List.mem_of_getLast? h)) (by decide)

theorem Blank.notMem_append {i l : List Char} (hi : Blank i) (hl : '\n' ∉ l) : '\n' ∉ i ++ l := by
  rw [List.mem_append]
  exact fun h => h.elim hi.notMem hl

theorem Blank.getLast?_append_iff {i l : List Char} (hi : Blank i) :
    (i ++ l).getLast? = some '\r' ↔ l.getLast? = some '\r' := by
  rw [List.getLast?_append]
  cases h : l.getLast? with
  | none => simpa using hi.getLast?_ne
  | some c => simp

theorem isBlank_eq_false {c : Char} (h : isWhite c = false) : isBlank c = false := by
  simp [isBlank, h]

theorem takeWhile_blank_append {b t : List Char} (hb : Blank b)
    (ht : ∀ c, t.head? = some c → isBlank c = false) : (b ++ t).takeWhile isBlank = b := by
  rw [List.takeWhile_append_of_pos hb]
  cases t with
  | nil => simp
  | cons c t => simp [ht c rfl]

theorem dropWhile_blank_append {b t : List Char} (hb : Blank b)
    (ht : ∀ c, t.head? = some c → isBlank c = false) : (b ++ t).dropWhile isBlank = t := by
  rw [List.dropWhile_append_of_pos hb]
  cases t with
  | nil => simp
  | cons c t => simp [ht c rfl]

def Record.indent (r : Record) : List Char := r.content.takeWhile isBlank

theorem Record.blank_indent (r : Record) : Blank r.indent :=
  List.all_eq_true.mp List.all_takeWhile

theorem trim_white_append {w : List Char} (hw : White w) (t : List Char) :
    trim (w ++ t) = trim t := by
  rw [trim, trim, trimStart, List.dropWhile_append_of_pos hw, ← trimStart]

theorem trimEnd_append_white {w : List Char} (hw : White w) (t : List Char) :
    trimEnd (t ++ w) = trimEnd t := by
  have hr : ∀ c ∈ w.reverse, isWhite c = true := fun c hc => hw c (List.mem_reverse.mp hc)
  rw [trimEnd, List.reverse_append, List.dropWhile_append_of_pos hr, ← trimEnd]

theorem trim_append_white {w : List Char} (hw : White w) (t : List Char) :
    trim (t ++ w) = trim t := by
  by_cases ht : t.dropWhile isWhite = []
  · have hwhite : White t := by
      rw [← List.takeWhile_append_dropWhile (p := isWhite) (l := t), ht, List.append_nil]
      exact List.all_eq_true.mp List.all_takeWhile
    rw [trim_white_append hwhite, ← List.append_nil w, ← List.append_nil t,
      trim_white_append hw, trim_white_append hwhite]
  · rw [trim, trimStart, List.dropWhile_append, if_neg (by simpa using ht),
      trimEnd_append_white hw, ← trimStart, ← trim]

theorem trim_of_white {w : List Char} (hw : White w) : trim w = [] :=
  trim_eq_nil_iff.mpr hw

theorem exists_trim (t : List Char) :
    ∃ front back, White front ∧ White back ∧ t = front ++ trim t ++ back := by
  refine ⟨t.takeWhile isWhite, ((trimStart t).reverse.takeWhile isWhite).reverse,
    List.all_eq_true.mp List.all_takeWhile, fun c hc => ?_, ?_⟩
  · exact List.all_eq_true.mp List.all_takeWhile c (List.mem_reverse.mp hc)
  · rw [trim, List.append_assoc, trimEnd_append, trimStart, List.takeWhile_append_dropWhile]

theorem trim_eq_self {t : List Char} (hhead : ∀ c, t.head? = some c → isWhite c = false)
    (hlast : ∀ c, t.getLast? = some c → isWhite c = false) : trim t = t := by
  have stays {u : List Char} (hu : ∀ c, u.head? = some c → isWhite c = false) :
      u.dropWhile isWhite = u := by
    cases u with
    | nil => rfl
    | cons c u => rw [List.dropWhile_cons, hu c rfl]; rfl
  have hr : ∀ c, t.reverse.head? = some c → isWhite c = false := by
    intro c hc
    exact hlast c (by rwa [List.head?_reverse] at hc)
  rw [trim, trimStart, stays hhead, trimEnd, stays hr, List.reverse_reverse]

def IsBreak (b : List Char) : Prop := b = ['\n'] ∨ b = ['\r', '\n']

theorem Record.Closed.isBreak {r : Record} (hr : r.Closed) : IsBreak r.terminator := by
  rcases hr.terminator_eq with ⟨h, _⟩ | h
  · exact .inl h
  · exact .inr h

theorem head?_break_append {b : List Char} (hb : IsBreak b) (t : List Char) {c : Char}
    (h : (b ++ t).head? = some c) : isBlank c = false := by
  rcases hb with rfl | rfl
  · obtain rfl : '\n' = c := by simpa using h
    decide
  · obtain rfl : '\r' = c := by simpa using h
    decide

/-- A break closes a line. It may take in a `\r` that the line ends with. -/
theorem exists_closed {content b : List Char} (hn : '\n' ∉ content) (hb : IsBreak b) :
    ∃ r : Record, r.Closed ∧ r.text = content ++ b ∧ trim r.content = trim content := by
  rcases hb with rfl | rfl
  · by_cases hl : content.getLast? = some '\r'
    · obtain ⟨front, rfl⟩ := List.getLast?_eq_some_iff.mp hl
      refine ⟨⟨front, ['\r', '\n']⟩, ⟨fun h => hn (by simp [h]), .inr rfl⟩, ?_, ?_⟩
      · simp [Record.text]
      · exact (trim_append_white (by simp [White]; decide) front).symm
    · exact ⟨⟨content, ['\n']⟩, ⟨hn, .inl ⟨rfl, hl⟩⟩, rfl, rfl⟩
  · exact ⟨⟨content, ['\r', '\n']⟩, ⟨hn, .inr rfl⟩, rfl, rfl⟩

/-- No line of `t`, without the white space around it, is `line`. -/
def Lacks (line t : List Char) : Prop := ∀ r ∈ records t, trim r.content ≠ line

instance (line t : List Char) : Decidable (Lacks line t) :=
  inferInstanceAs (Decidable (∀ r ∈ records t, trim r.content ≠ line))

namespace Lacks

variable {line : List Char}

theorem nil : Lacks line [] := by
  intro r hr
  simp [records] at hr

theorem text_append_iff {r : Record} (hr : r.Closed) {t : List Char} :
    Lacks line (r.text ++ t) ↔ trim r.content ≠ line ∧ Lacks line t := by
  rw [Lacks, records_text_append hr, List.forall_mem_cons, Lacks]

theorem content_iff {content : List Char} (hn : '\n' ∉ content) (hne : content ≠ []) :
    Lacks line content ↔ trim content ≠ line := by
  rw [Lacks, records_content hn hne, List.forall_mem_singleton]

theorem content_append_break {content b y : List Char} (hn : '\n' ∉ content) (hb : IsBreak b)
    (hc : trim content ≠ line) (hy : Lacks line y) : Lacks line (content ++ b ++ y) := by
  obtain ⟨r, hr, ht, htrim⟩ := exists_closed hn hb
  rw [← ht]
  exact (text_append_iff hr).mpr ⟨htrim ▸ hc, hy⟩

theorem append_break {x y b : List Char} (hline : line ≠ []) (hb : IsBreak b) (hx : Lacks line x)
    (hy : Lacks line y) : Lacks line (x ++ b ++ y) := by
  induction x using lineInduction with
  | nil => exact content_append_break List.not_mem_nil hb (Ne.symm hline) hy
  | last r hr =>
      rw [hr.text_eq] at hx ⊢
      exact content_append_break hr.notMem hb ((content_iff hr.notMem hr.content_ne_nil).mp hx) hy
  | line r rest hr ih =>
      obtain ⟨hc, hrest⟩ := (text_append_iff hr).mp hx
      rw [List.append_assoc, List.append_assoc, ← List.append_assoc rest]
      exact (text_append_iff hr).mpr ⟨hc, ih hrest⟩

theorem of_white {w : List Char} (hline : line ≠ []) (hn : '\n' ∉ w) (hw : White w) :
    Lacks line w := by
  by_cases h : w = []
  · exact h ▸ nil
  · apply (content_iff hn h).mpr
    rw [trim_of_white hw]
    exact Ne.symm hline

theorem blank_append {i t : List Char} (hline : line ≠ []) (hi : Blank i) (ht : Lacks line t) :
    Lacks line (i ++ t) := by
  rcases exists_line t with rfl | ⟨r, hr, rfl⟩ | ⟨r, rest, hr, rfl⟩
  · rw [List.append_nil]
    exact of_white hline hi.notMem hi.white
  · rw [hr.text_eq] at ht ⊢
    apply (content_iff (hi.notMem_append hr.notMem) (by simp [hr.content_ne_nil])).mpr
    rw [trim_white_append hi.white]
    exact (content_iff hr.notMem hr.content_ne_nil).mp ht
  · obtain ⟨hc, hrest⟩ := (text_append_iff hr).mp ht
    have hclosed : Record.Closed ⟨i ++ r.content, r.terminator⟩ := by
      refine ⟨hi.notMem_append hr.notMem, hr.terminator_eq.imp (fun ⟨hb, hl⟩ => ⟨hb, ?_⟩) id⟩
      rwa [ne_eq, hi.getLast?_append_iff]
    have ht : i ++ (r.text ++ rest) = Record.text ⟨i ++ r.content, r.terminator⟩ ++ rest := by
      simp [Record.text]
    rw [ht]
    apply (text_append_iff hclosed).mpr
    rw [trim_white_append hi.white]
    exact ⟨hc, hrest⟩

theorem intercalate {b : List Char} (hline : line ≠ []) (hb : IsBreak b) {ls : List (List Char)}
    (hls : ∀ l ∈ ls, Lacks line l) : Lacks line (b.intercalate ls) := by
  induction ls with
  | nil => exact nil
  | cons l ls ih =>
      cases ls with
      | nil => simpa using hls
      | cons k ls =>
          rw [List.intercalate_cons_cons]
          exact append_break hline hb (hls l List.mem_cons_self)
            (ih fun l hl => hls l (List.mem_cons_of_mem _ hl))

theorem flatMap_append {b : List Char} (hline : line ≠ []) (hb : IsBreak b)
    {ls : List (List Char)} (hls : ∀ l ∈ ls, Lacks line l) :
    Lacks line (ls.flatMap (fun l => l ++ b)) := by
  induction ls with
  | nil => exact nil
  | cons l ls ih =>
      rw [List.flatMap_cons]
      exact append_break hline hb (hls l List.mem_cons_self)
        (ih fun l hl => hls l (List.mem_cons_of_mem _ hl))

end Lacks

end AssetSlots.Text
