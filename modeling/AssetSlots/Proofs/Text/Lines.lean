import AssetSlots.Text.Record

namespace AssetSlots.Text

namespace Record

structure Closed (r : Record) : Prop where
  notMem : '\n' ∉ r.content
  terminator_eq : r.terminator = ['\n'] ∧ r.content.getLast? ≠ some '\r' ∨
    r.terminator = ['\r', '\n']

structure Open (r : Record) : Prop where
  notMem : '\n' ∉ r.content
  terminator_eq : r.terminator = []
  content_ne_nil : r.content ≠ []

theorem Closed.terminator_ne_nil {r : Record} (hr : r.Closed) : r.terminator ≠ [] := by
  rcases hr.terminator_eq with ⟨h, _⟩ | h <;> simp [h]

theorem Open.text_eq {r : Record} (hr : r.Open) : r.text = r.content := by
  rw [text, hr.terminator_eq, List.append_nil]

theorem Closed.tail {c : Char} {content terminator : List Char}
    (h : Closed ⟨c :: content, terminator⟩) : Closed ⟨content, terminator⟩ := by
  refine ⟨fun hm => h.notMem (List.mem_cons_of_mem c hm), ?_⟩
  rcases h.terminator_eq with ⟨ht, hl⟩ | ht
  · cases content with
    | nil => exact .inl ⟨ht, by simp⟩
    | cons d content => exact .inl ⟨ht, by simpa only [List.getLast?_cons_cons] using hl⟩
  · exact .inr ht

theorem Closed.head?_ne {content terminator : List Char} (h : Closed ⟨'\r' :: content, terminator⟩)
    (t : List Char) : (content ++ terminator ++ t).head? ≠ some '\n' := by
  cases content with
  | nil =>
      rcases h.terminator_eq with ⟨_, hl⟩ | ht
      · exact absurd rfl hl
      · rw [show terminator = ['\r', '\n'] from ht]
        simp
  | cons d content =>
      intro hd
      have hdn : d = '\n' := by simpa using hd
      exact h.notMem (by simp [hdn])

end Record

theorem records_cons {c : Char} {t : List Char} (hc : c ≠ '\n')
    (hr : c = '\r' → t.head? ≠ some '\n') :
    records (c :: t) =
      match records t with
      | [] => [⟨[c], []⟩]
      | r :: rs => ⟨c :: r.content, r.terminator⟩ :: rs := by
  rw [records.eq_def]
  split
  · next h => exact absurd h (List.cons_ne_nil c t)
  · next h => exact absurd (List.cons.inj h).1 hc
  · next h =>
      obtain ⟨rfl, rfl⟩ := List.cons.inj h
      exact absurd rfl (hr rfl)
  · next h =>
      obtain ⟨rfl, rfl⟩ := List.cons.inj h
      rfl

theorem records_text_append {r : Record} (hr : r.Closed) (t : List Char) :
    records (r.text ++ t) = r :: records t := by
  obtain ⟨content, terminator⟩ := r
  induction content with
  | nil =>
      rcases hr.terminator_eq with ⟨h, _⟩ | h
      · rw [show terminator = ['\n'] from h]; rfl
      · rw [show terminator = ['\r', '\n'] from h]; rfl
  | cons c content ih =>
      have hc : c ≠ '\n' := fun h => hr.notMem (by simp [h])
      have hcr (h : c = '\r') : (content ++ terminator ++ t).head? ≠ some '\n' := by
        subst h
        exact hr.head?_ne t
      have ht := ih hr.tail
      simp only [Record.text] at ht
      simp only [Record.text, List.cons_append]
      rw [records_cons hc hcr, ht]

theorem records_text_of_closed {r : Record} (hr : r.Closed) : records r.text = [r] := by
  have h := records_text_append hr []
  rwa [List.append_nil] at h

theorem records_content {content : List Char} (hn : '\n' ∉ content) (hne : content ≠ []) :
    records content = [⟨content, []⟩] := by
  induction content with
  | nil => exact absurd rfl hne
  | cons c content ih =>
      have hc : c ≠ '\n' := fun h => hn (by simp [h])
      have hn' : '\n' ∉ content := fun h => hn (List.mem_cons_of_mem c h)
      have hcr (_ : c = '\r') : content.head? ≠ some '\n' := fun h =>
        hn' (List.mem_of_mem_head? h)
      rw [records_cons hc hcr]
      cases content with
      | nil => rfl
      | cons d content => rw [ih hn' (List.cons_ne_nil d content)]

theorem records_text_of_open {r : Record} (hr : r.Open) : records r.text = [r] := by
  rw [hr.text_eq, records_content hr.notMem hr.content_ne_nil, ← hr.terminator_eq]

theorem exists_line (t : List Char) : t = [] ∨ (∃ r : Record, r.Open ∧ t = r.text) ∨
    ∃ (r : Record) (rest : List Char), r.Closed ∧ t = r.text ++ rest := by
  induction t with
  | nil => exact .inl rfl
  | cons c t ih =>
      right
      by_cases hc : c = '\n'
      · subst hc
        exact .inr ⟨⟨[], ['\n']⟩, t, ⟨by simp, .inl ⟨rfl, by simp⟩⟩, rfl⟩
      rcases ih with rfl | ⟨r, hr, rfl⟩ | ⟨⟨content, terminator⟩, rest, hr, rfl⟩
      · exact .inl ⟨⟨[c], []⟩, ⟨by simpa using Ne.symm hc, rfl, by simp⟩, rfl⟩
      · refine .inl ⟨⟨c :: r.content, []⟩, ⟨?_, rfl, by simp⟩, ?_⟩
        · simpa using ⟨Ne.symm hc, hr.notMem⟩
        · rw [hr.text_eq]; simp [Record.text]
      · -- a `\r` right before the break of the line that follows joins that break
        by_cases hcr : c = '\r' ∧ content = [] ∧ terminator = ['\n']
        · obtain ⟨rfl, rfl, rfl⟩ := hcr
          exact .inr ⟨⟨[], ['\r', '\n']⟩, rest, ⟨by simp, .inr rfl⟩, rfl⟩
        · refine .inr ⟨⟨c :: content, terminator⟩, rest, ⟨?_, ?_⟩, rfl⟩
          · simpa using ⟨Ne.symm hc, hr.notMem⟩
          · rcases hr.terminator_eq with ⟨ht, hl⟩ | ht
            · refine .inl ⟨ht, ?_⟩
              cases content with
              | nil => simpa using fun h => hcr ⟨h, rfl, ht⟩
              | cons d content => simpa only [List.getLast?_cons_cons] using hl
            · exact .inr ht

/-- Induction on a text, line by line. -/
@[elab_as_elim]
theorem lineInduction {P : List Char → Prop} (nil : P []) (last : ∀ r : Record, r.Open → P r.text)
    (line : ∀ (r : Record) (rest : List Char), r.Closed → P rest → P (r.text ++ rest))
    (t : List Char) : P t := by
  induction h : t.length using Nat.strongRecOn generalizing t with
  | ind n ih =>
      rcases exists_line t with rfl | ⟨r, hr, rfl⟩ | ⟨r, rest, hr, rfl⟩
      · exact nil
      · exact last r hr
      · have hpos := List.length_pos_iff.mpr hr.terminator_ne_nil
        refine line r rest hr (ih rest.length ?_ rest rfl)
        rw [← h, Record.text, List.length_append, List.length_append]
        omega

def Terminated (t : List Char) : Prop := t = [] ∨ t.getLast? = some '\n'

instance (t : List Char) : Decidable (Terminated t) :=
  inferInstanceAs (Decidable (t = [] ∨ t.getLast? = some '\n'))

theorem Record.Closed.getLast?_text {r : Record} (hr : r.Closed) : r.text.getLast? = some '\n' := by
  rcases hr.terminator_eq with ⟨h, _⟩ | h <;> simp [Record.text, h]

theorem terminated_text_append {r : Record} (hr : r.Closed) {t : List Char} :
    Terminated (r.text ++ t) ↔ Terminated t := by
  have hne : r.text ≠ [] := fun h => by simpa [h] using hr.getLast?_text
  cases t with
  | nil => simp [Terminated, hr.getLast?_text]
  | cons c t => simp [Terminated, hne, List.getLast?_append]

theorem not_terminated_text {r : Record} (hr : r.Open) : ¬ Terminated r.text := by
  rw [hr.text_eq]
  rintro (h | h)
  · exact hr.content_ne_nil h
  · exact hr.notMem (List.mem_of_getLast? h)

theorem Terminated.append {x y : List Char} (hx : Terminated x) (hy : Terminated y) :
    Terminated (x ++ y) := by
  rcases hy with rfl | hy
  · simpa using hx
  · exact .inr (by simp [List.getLast?_append, hy])

theorem Terminated.flatten {xs : List (List Char)} (hxs : ∀ x ∈ xs, Terminated x) :
    Terminated xs.flatten := by
  induction xs with
  | nil => exact .inl rfl
  | cons x xs ih =>
      rw [List.forall_mem_cons] at hxs
      exact hxs.1.append (ih hxs.2)

theorem exists_terminated_append (t : List Char) : ∃ x y : List Char, t = x ++ y ∧ Terminated x ∧
    (y = [] ∨ ∃ r : Record, r.Open ∧ y = r.text) := by
  induction t using lineInduction with
  | nil => exact ⟨[], [], rfl, .inl rfl, .inl rfl⟩
  | last r hr => exact ⟨[], r.text, rfl, .inl rfl, .inr ⟨r, hr, rfl⟩⟩
  | line r rest hr ih =>
      obtain ⟨x, y, rfl, hx, hy⟩ := ih
      exact ⟨r.text ++ x, y, by simp, (terminated_text_append hr).mpr hx, hy⟩

theorem Terminated.eq_nil_or_append {x : List Char} (hx : Terminated x) : x = [] ∨
    ∃ (y : List Char) (r : Record), x = y ++ r.text ∧ Terminated y ∧ r.Closed := by
  induction x using lineInduction with
  | nil => exact .inl rfl
  | last r hr => exact absurd hx (not_terminated_text hr)
  | line r rest hr ih =>
      right
      rcases ih ((terminated_text_append hr).mp hx) with rfl | ⟨y, q, rfl, hy, hq⟩
      · exact ⟨[], r, by simp, .inl rfl, hr⟩
      · exact ⟨r.text ++ y, q, by simp, (terminated_text_append hr).mpr hy, hq⟩

theorem Terminated.closed_of_mem {x : List Char} (hx : Terminated x) {r : Record}
    (hr : r ∈ records x) : r.Closed := by
  induction x using lineInduction with
  | nil => simp [records] at hr
  | last q hq => exact absurd hx (not_terminated_text hq)
  | line q rest hq ih =>
      rw [records_text_append hq] at hr
      rcases List.mem_cons.mp hr with rfl | hr
      · exact hq
      · exact ih ((terminated_text_append hq).mp hx) hr

theorem records_append {x : List Char} (hx : Terminated x) (y : List Char) :
    records (x ++ y) = records x ++ records y := by
  induction x using lineInduction with
  | nil => rfl
  | last r hr => exact absurd hx (not_terminated_text hr)
  | line r rest hr ih =>
      rw [List.append_assoc, records_text_append hr, records_text_append hr,
        ih ((terminated_text_append hr).mp hx), List.cons_append]

theorem Terminated.eq_append_getLast? {x : List Char} (hx : Terminated x) :
    ∃ y, x = y ++ (records x).getLast?.elim [] Record.text ∧ Terminated y ∧
      (y = [] ∨ (records x).getLast? ≠ none) ∧ ∀ r ∈ (records x).getLast?, r.Closed := by
  rcases hx.eq_nil_or_append with rfl | ⟨y, r, rfl, hy, hr⟩
  · exact ⟨[], rfl, hx, .inl rfl, by simp [records]⟩
  · have hlast : (records (y ++ r.text)).getLast? = some r := by
      rw [records_append hy, records_text_of_closed hr, List.getLast?_concat]
    rw [hlast]
    refine ⟨y, rfl, hy, .inr (Option.some_ne_none r), ?_⟩
    intro q hq
    exact Option.some.inj hq ▸ hr

theorem records_append_text {x : List Char} (hx : Terminated x) {r : Record} (hr : r.Open) :
    records (x ++ r.text) = records x ++ [r] := by
  rw [records_append hx, records_text_of_open hr]

theorem records_append_two {x : List Char} (hx : Terminated x) {b m : Record} (hb : b.Closed)
    (hm : m.Open) : records (x ++ b.text ++ m.text) = records x ++ [b, m] := by
  rw [records_append_text (hx.append (.inr hb.getLast?_text)) hm, records_append hx,
    records_text_of_closed hb]
  simp

theorem append_pair_inj {rs rs' : List Record} {b m b' m' : Record}
    (h : rs ++ [b, m] = rs' ++ [b', m']) : rs = rs' ∧ b = b' ∧ m = m' := by
  obtain ⟨hrs, hbm⟩ := List.append_inj' h rfl
  simp only [List.cons.injEq, and_true] at hbm
  exact ⟨hrs, hbm⟩

end AssetSlots.Text
