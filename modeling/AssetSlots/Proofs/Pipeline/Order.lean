import AssetSlots.Proofs.Lists
import AssetSlots.Proofs.Pipeline.AtOnce
import AssetSlots.Proofs.Slot.Commute

namespace AssetSlots.Pipeline

open Text

structure Independent (passes : List Pass) : Prop where
  notMem : ∀ k ∈ passes, '\n' ∉ k.1.token
  lacks : ∀ k ∈ passes, ∀ j ∈ passes, ∀ l ∈ j.2, Lacks k.1.token l
  nodup : (passes.map Prod.fst).Nodup

/-- The text ends with a marker line left open, right after a marker line of another slot, and the
two agree neither on the break between them nor on the one before them, if that one is no marker
line's. -/
def Contested (passes : List Pass) (t : List Char) : Prop :=
  ∃ rs b m, records t = rs ++ [b, m] ∧ m.terminator = [] ∧ ∃ j ∈ passes, ∃ k ∈ passes,
    j.1 ≠ k.1 ∧ j.1.IsMarker b.content ∧ k.1.IsMarker m.content ∧ ¬ Slot.Agree j.2 k.2 b ∧
      ((∃ r ∈ rs.getLast?, ∃ i ∈ passes, i.1.IsMarker r.content) ∨
        ¬ Slot.AgreeAfter rs.getLast? j.2 k.2 b)

variable {passes : List Pass}

theorem contested_iff {t : List Char} {rs : List Record} {b m : Record}
    (h : records t = rs ++ [b, m]) :
    Contested passes t ↔ m.terminator = [] ∧ ∃ j ∈ passes, ∃ k ∈ passes,
      j.1 ≠ k.1 ∧ j.1.IsMarker b.content ∧ k.1.IsMarker m.content ∧ ¬ Slot.Agree j.2 k.2 b ∧
        ((∃ r ∈ rs.getLast?, ∃ i ∈ passes, i.1.IsMarker r.content) ∨
          ¬ Slot.AgreeAfter rs.getLast? j.2 k.2 b) := by
  constructor
  · rintro ⟨rs', b', m', h', hrest⟩
    obtain ⟨rfl, rfl, rfl⟩ := append_pair_inj (h.symm.trans h')
    exact hrest
  · intro hrest
    exact ⟨rs, b, m, h, hrest⟩

namespace Independent

theorem tail {k : Pass} {ks : List Pass} (h : Independent (k :: ks)) : Independent ks where
  notMem j hj := h.notMem j (List.mem_cons_of_mem k hj)
  lacks j hj i hi := h.lacks j (List.mem_cons_of_mem k hj) i (List.mem_cons_of_mem k hi)
  nodup := (List.nodup_cons.mp h.nodup).2

theorem perm {ks : List Pass} (h : Independent passes) (hperm : ks.Perm passes) :
    Independent ks where
  notMem j hj := h.notMem j (hperm.mem_iff.mp hj)
  lacks j hj i hi := h.lacks j (hperm.mem_iff.mp hj) i (hperm.mem_iff.mp hi)
  nodup := ((hperm.map Prod.fst).nodup_iff).mpr h.nodup

theorem ne_of_mem_tail {k j : Pass} {ks : List Pass} (h : Independent (k :: ks)) (hj : j ∈ ks) :
    j.1 ≠ k.1 := by
  intro heq
  have hnot := (List.nodup_cons.mp h.nodup).1
  exact hnot (heq ▸ List.mem_map_of_mem hj)

theorem absent_fillFrom (h : Independent passes) {k j : Pass} (hk : k ∈ passes) (hj : j ∈ passes)
    {t : List Char} (ht : j.1.Absent t) : j.1.Absent (k.1.fillFrom k.2 true 0 t) :=
  Slot.absent_fillFrom (h.notMem k hk) (h.lacks j hj k hk) fun r hr _ => ht r hr

theorem meet (h : Independent passes) {j k : Pass} (hj : j ∈ passes) (hk : k ∈ passes)
    (hne : j.1 ≠ k.1) {b m : Record} (hb : b.Closed) (hm : m.Open) (hjb : j.1.IsMarker b.content)
    (hkm : k.1.IsMarker m.content) : Slot.Meet j.1 k.1 j.2 k.2 b m where
  first_notMem := h.notMem j hj
  second_notMem := h.notMem k hk
  lines_lack := h.lacks k hk j hj
  more_lack := h.lacks j hj k hk
  first_closed := hb
  second_open := hm
  first := hjb
  second := hkm
  ne := hne

end Independent

theorem fillAll_append_of_absent (hI : Independent passes) {x w : List Char} (hx : Terminated x)
    (hw : ∀ k ∈ passes, k.1.Absent w) : fillAll passes (x ++ w) = fillAll passes x ++ w := by
  induction passes generalizing x with
  | nil => rfl
  | cons k ks ih =>
      have hk := hI.notMem k List.mem_cons_self
      rw [List.forall_mem_cons] at hw
      rw [fillAll_cons, Slot.fillFrom_append hk hx (Slot.not_isMarker_of_absent hk hw.1),
        Slot.fillFrom_of_absent hk hw.1, fillAll_cons]
      exact ih hI.tail (Slot.terminated_fillFrom hk hx) hw.2

theorem fillAll_append_of_one (hI : Independent passes) {k : Pass} (hk : k ∈ passes)
    {x w : List Char} (hx : Terminated x) (hw : ∀ j ∈ passes, j.1 ≠ k.1 → j.1.Absent w)
    (h : x = [] ∨ ¬ k.1.IsMarker w ∨ k.2.length = 1) :
    fillAll passes (x ++ w) = fillAll passes x ++ k.1.fillFrom k.2 true 0 w := by
  induction passes generalizing x with
  | nil => exact absurd hk List.not_mem_nil
  | cons j js ih =>
      have hj := hI.notMem j List.mem_cons_self
      rw [fillAll_cons, fillAll_cons]
      rcases List.mem_cons.mp hk with rfl | hkjs
      · rw [Slot.fillFrom_append_of hj hx h]
        apply fillAll_append_of_absent hI.tail (Slot.terminated_fillFrom hj hx)
        intro i hi
        have hiw := hw i (List.mem_cons_of_mem k hi) (hI.ne_of_mem_tail hi)
        exact hI.absent_fillFrom List.mem_cons_self (List.mem_cons_of_mem k hi) hiw
      · have hjw := hw j List.mem_cons_self (hI.ne_of_mem_tail hkjs).symm
        rw [Slot.fillFrom_append hj hx (Slot.not_isMarker_of_absent hj hjw),
          Slot.fillFrom_of_absent hj hjw]
        apply ih hI.tail hkjs (Slot.terminated_fillFrom hj hx)
        · exact fun i hi => hw i (List.mem_cons_of_mem j hi)
        · exact h.imp (fun h0 => by rw [h0]; rfl) id

theorem fillAll_cons_append_of_two {j k : Pass} {js : List Pass} (hI : Independent (j :: js))
    (hk : k ∈ js) {x w : List Char} (hx : Terminated x)
    (hw : ∀ i ∈ js, i.1 ≠ k.1 → i.1.Absent w) (hj : ¬ j.1.IsMarker w)
    (h : x = [] ∨ ¬ k.1.IsMarker (j.1.fillFrom j.2 true 0 w) ∨ k.2.length = 1) :
    fillAll (j :: js) (x ++ w) =
      fillAll (j :: js) x ++ k.1.fillFrom k.2 true 0 (j.1.fillFrom j.2 true 0 w) := by
  have hs := hI.notMem j List.mem_cons_self
  rw [fillAll_cons, fillAll_cons, Slot.fillFrom_append hs hx hj]
  apply fillAll_append_of_one hI.tail hk (Slot.terminated_fillFrom hs hx)
  · intro i hi hne
    exact hI.absent_fillFrom List.mem_cons_self (List.mem_cons_of_mem j hi) (hw i hi hne)
  · exact h.imp (fun h0 => by rw [h0]; rfl) id

/-- Where two slots have markers in `w`, and it makes no difference which of them comes first, none
of the other passes does. -/
theorem fillAll_append_of_two (hI : Independent passes) {j k : Pass} (hj : j ∈ passes)
    (hk : k ∈ passes) (hjk : j.1 ≠ k.1) {x w u : List Char} (hx : Terminated x)
    (hw : ∀ i ∈ passes, i.1 ≠ j.1 → i.1 ≠ k.1 → i.1.Absent w) (hjw : ¬ j.1.IsMarker w)
    (hkw : ¬ k.1.IsMarker w)
    (hfirst : x = [] ∨ ¬ k.1.IsMarker (j.1.fillFrom j.2 true 0 w) ∨ k.2.length = 1)
    (hsecond : x = [] ∨ ¬ j.1.IsMarker (k.1.fillFrom k.2 true 0 w) ∨ j.2.length = 1)
    (hu : k.1.fillFrom k.2 true 0 (j.1.fillFrom j.2 true 0 w) = u)
    (hu' : j.1.fillFrom j.2 true 0 (k.1.fillFrom k.2 true 0 w) = u) :
    fillAll passes (x ++ w) = fillAll passes x ++ u := by
  induction passes generalizing x with
  | nil => exact absurd hj List.not_mem_nil
  | cons i is ih =>
      rcases List.mem_cons.mp hj with rfl | hjis
      · have hkis : k ∈ is := (List.mem_cons.mp hk).resolve_left fun h => hjk (by rw [h])
        rw [← hu]
        refine fillAll_cons_append_of_two hI hkis hx (fun l hl hne => ?_) hjw hfirst
        exact hw l (List.mem_cons_of_mem j hl) (hI.ne_of_mem_tail hl) hne
      rcases List.mem_cons.mp hk with rfl | hkis
      · rw [← hu']
        refine fillAll_cons_append_of_two hI hjis hx (fun l hl hne => ?_) hkw hsecond
        exact hw l (List.mem_cons_of_mem k hl) hne (hI.ne_of_mem_tail hl)
      · have hs := hI.notMem i List.mem_cons_self
        have hiw := hw i List.mem_cons_self (hI.ne_of_mem_tail hjis).symm
          (hI.ne_of_mem_tail hkis).symm
        rw [fillAll_cons, fillAll_cons,
          Slot.fillFrom_append hs hx (Slot.not_isMarker_of_absent hs hiw),
          Slot.fillFrom_of_absent hs hiw]
        apply ih hI.tail hjis hkis (Slot.terminated_fillFrom hs hx)
        · exact fun l hl => hw l (List.mem_cons_of_mem i hl)
        · exact hfirst.imp (fun h0 => by rw [h0]; rfl) id
        · exact hsecond.imp (fun h0 => by rw [h0]; rfl) id

theorem fillFirst_of_mem (hI : Independent passes) {k : Pass} (hk : k ∈ passes) {r : Record}
    (hm : k.1.IsMarker r.content) : fillFirst passes r = k.1.fillLine k.2 r := by
  induction passes with
  | nil => exact absurd hk List.not_mem_nil
  | cons j js ih =>
      rw [fillFirst_cons]
      rcases List.mem_cons.mp hk with rfl | hkjs
      · rw [if_pos hm]
      · have hj : ¬ j.1.IsMarker r.content := fun hj =>
          hI.ne_of_mem_tail hkjs (Slot.eq_of_isMarker hm hj)
        rw [if_neg hj]
        exact ih hI.tail hkjs

theorem fillFirst_of_forall_not {r : Record} (h : ∀ k ∈ passes, ¬ k.1.IsMarker r.content) :
    fillFirst passes r = r.text := by
  rw [fillFirst, List.find?_eq_none.mpr (by simpa using h)]

theorem fillFirst_perm (hI : Independent passes) {ks : List Pass} (hperm : ks.Perm passes)
    (r : Record) : fillFirst ks r = fillFirst passes r := by
  by_cases h : ∃ k ∈ passes, k.1.IsMarker r.content
  · obtain ⟨k, hk, hm⟩ := h
    rw [fillFirst_of_mem hI hk hm, fillFirst_of_mem (hI.perm hperm) (hperm.mem_iff.mpr hk) hm]
  · have hnone : ∀ k ∈ passes, ¬ k.1.IsMarker r.content := fun k hk hm => h ⟨k, hk, hm⟩
    rw [fillFirst_of_forall_not hnone,
      fillFirst_of_forall_not fun k hk => hnone k (hperm.mem_iff.mp hk)]

theorem fillAll_perm_of_terminated (hI : Independent passes) {ks : List Pass}
    (hperm : ks.Perm passes) {t : List Char} (ht : Terminated t) :
    fillAll ks t = fillAll passes t := by
  have hks := hI.perm hperm
  rw [fillAll_eq_flatMap_records hks.notMem hks.lacks ht,
    fillAll_eq_flatMap_records hI.notMem hI.lacks ht, funext (fillFirst_perm hI hperm)]

theorem absent_of_ne {k j : Pass} {m : Record} (hm : m.Open) (hk : k.1.IsMarker m.content)
    (hne : j.1 ≠ k.1) : j.1.Absent m.text :=
  (Slot.absent_text hm).mpr fun hj => hne (Slot.eq_of_isMarker hj hk)

theorem absent_meeting {i j k : Pass} {b m : Record} (h : Slot.Meet j.1 k.1 j.2 k.2 b m)
    (hij : i.1 ≠ j.1) (hik : i.1 ≠ k.1) : i.1.Absent (b.text ++ m.text) := by
  apply (Slot.absent_text_append h.first_closed).mpr
  constructor
  · intro hib
    exact hij (Slot.eq_of_isMarker hib h.first)
  · exact absent_of_ne h.second_open h.second hik

theorem fillAll_append_of_agree (hI : Independent passes) {j k : Pass} (hj : j ∈ passes)
    (hk : k ∈ passes) {x : List Char} (hx : Terminated x) {b m : Record}
    (hmeet : Slot.Meet j.1 k.1 j.2 k.2 b m) (h : Slot.Agree j.2 k.2 b) :
    fillAll passes (x ++ (b.text ++ m.text)) = fillAll passes x ++
      k.1.fillFrom k.2 true 0 (j.1.fillFrom j.2 true 0 (b.text ++ m.text)) := by
  apply fillAll_append_of_two hI hj hk hmeet.ne hx
  · exact fun i _ hij hik => absent_meeting hmeet hij hik
  · exact Slot.not_isMarker_text_append hmeet.first_notMem hmeet.first_closed m.text
  · exact Slot.not_isMarker_text_append hmeet.second_notMem hmeet.first_closed m.text
  · exact .inr (hmeet.not_isMarker_fillFrom_first h)
  · exact .inr (hmeet.not_isMarker_fillFrom_second h)
  · rfl
  · exact (hmeet.fillFrom_comm h).symm

theorem fillAll_append_of_agreeAfter (hI : Independent passes) {j k : Pass} (hj : j ∈ passes)
    (hk : k ∈ passes) {x : List Char} (hx : Terminated x) {before : Option Record}
    (hpassed : ∀ i ∈ passes, i.1.Passed before) (hsome : x = [] ∨ before ≠ none) {b m : Record}
    (hmeet : Slot.Meet j.1 k.1 j.2 k.2 b m) (h : Slot.AgreeAfter before j.2 k.2 b) :
    fillAll passes (x ++ (before.elim [] Record.text ++ (b.text ++ m.text))) = fillAll passes x ++
      k.1.fillFrom k.2 true 0 (j.1.fillFrom j.2 true 0
        (before.elim [] Record.text ++ (b.text ++ m.text))) := by
  have hmark (i : Pass) (hi : i ∈ passes) (hs : '\n' ∉ i.1.token) :
      ¬ i.1.IsMarker (before.elim [] Record.text ++ (b.text ++ m.text)) :=
    Slot.not_isMarker_before hs (hpassed i hi)
      (.inr (Slot.not_isMarker_text_append hs hmeet.first_closed m.text))
  apply fillAll_append_of_two hI hj hk hmeet.ne hx
  · intro i hi hij hik
    exact Slot.absent_before (hpassed i hi) (absent_meeting hmeet hij hik)
  · exact hmark j hj hmeet.first_notMem
  · exact hmark k hk hmeet.second_notMem
  · refine hsome.imp_right fun hne0 => .inl ?_
    rw [hmeet.fillFrom_before_first (hpassed j hj)]
    exact Slot.not_isMarker_before hmeet.second_notMem (hpassed k hk) (.inl hne0)
  · refine hsome.imp_right fun hne0 => .inl ?_
    rw [hmeet.fillFrom_before_second (hpassed k hk)]
    exact Slot.not_isMarker_before hmeet.first_notMem (hpassed j hj) (.inl hne0)
  · rfl
  · exact (hmeet.fillFrom_comm_after (hpassed j hj) (hpassed k hk) h).symm

theorem exists_fillAll_of_meeting (hI : Independent passes) {j k : Pass} (hj : j ∈ passes)
    (hk : k ∈ passes) {v : List Char} (hv : Terminated v) {b m : Record}
    (hmeet : Slot.Meet j.1 k.1 j.2 k.2 b m) (h : ¬ Contested passes (v ++ b.text ++ m.text)) :
    ∃ x u : List Char, Terminated x ∧ ∀ ks : List Pass, ks.Perm passes →
      fillAll ks (v ++ b.text ++ m.text) = fillAll ks x ++ u := by
  by_cases hagree : Slot.Agree j.2 k.2 b
  · refine ⟨v, k.1.fillFrom k.2 true 0 (j.1.fillFrom j.2 true 0 (b.text ++ m.text)), hv, ?_⟩
    intro ks hperm
    rw [List.append_assoc]
    exact fillAll_append_of_agree (hI.perm hperm) (hperm.mem_iff.mpr hj) (hperm.mem_iff.mpr hk)
      hv hmeet hagree
  · have hrest : ¬ ((∃ r ∈ (records v).getLast?, ∃ i ∈ passes, i.1.IsMarker r.content) ∨
        ¬ Slot.AgreeAfter (records v).getLast? j.2 k.2 b) := by
      intro hrest
      apply h
      exact ⟨records v, b, m, records_append_two hv hmeet.first_closed hmeet.second_open,
        hmeet.second_open.terminator_eq, j, hj, k, hk, hmeet.ne, hmeet.first, hmeet.second,
        hagree, hrest⟩
    rw [not_or, Classical.not_not] at hrest
    obtain ⟨hnone, hafter⟩ := hrest
    obtain ⟨x, hvx, hx, hsome, hclosed⟩ := hv.eq_append_getLast?
    generalize (records v).getLast? = before at *
    subst hvx
    refine ⟨x, k.1.fillFrom k.2 true 0 (j.1.fillFrom j.2 true 0
      (before.elim [] Record.text ++ (b.text ++ m.text))), hx, ?_⟩
    intro ks hperm
    have hpassed : ∀ i ∈ ks, i.1.Passed before := by
      intro i hi r hr
      refine ⟨hclosed r hr, fun hir => ?_⟩
      exact hnone ⟨r, hr, i, hperm.mem_iff.mp hi, hir⟩
    rw [List.append_assoc, List.append_assoc]
    exact fillAll_append_of_agreeAfter (hI.perm hperm) (hperm.mem_iff.mpr hj)
      (hperm.mem_iff.mpr hk) hx hpassed hsome hmeet hafter

/-- What the passes make of the end of a text, from the last line before an open one on, does not
depend on their order. -/
theorem exists_fillAll_eq_append (hI : Independent passes) {t : List Char}
    (h : ¬ Contested passes t) : ∃ x u : List Char, Terminated x ∧
      ∀ ks : List Pass, ks.Perm passes → fillAll ks t = fillAll ks x ++ u := by
  obtain ⟨x, y, rfl, hx, rfl | ⟨m, hm, rfl⟩⟩ := exists_terminated_append t
  · exact ⟨x, [], hx, fun ks _ => by rw [List.append_nil, List.append_nil]⟩
  by_cases hmark : ∀ k ∈ passes, ¬ k.1.IsMarker m.content
  · -- the open line is left as it is
    refine ⟨x, m.text, hx, fun ks hperm => fillAll_append_of_absent (hI.perm hperm) hx ?_⟩
    exact fun i hi => (Slot.absent_text hm).mpr (hmark i (hperm.mem_iff.mp hi))
  simp only [Classical.not_forall, Classical.not_not] at hmark
  obtain ⟨k, hk, hkm⟩ := hmark
  rcases hx.eq_nil_or_append with rfl | ⟨v, b, rfl, hv, hb⟩
  · -- the open line is the whole text
    refine ⟨[], k.1.fillFrom k.2 true 0 m.text, .inl rfl, fun ks hperm => ?_⟩
    apply fillAll_append_of_one (hI.perm hperm) (hperm.mem_iff.mpr hk) (.inl rfl)
    · exact fun i _ hne => absent_of_ne hm hkm hne
    · exact .inl rfl
  by_cases hbm : ∃ j ∈ passes, j.1 ≠ k.1 ∧ j.1.IsMarker b.content
  · obtain ⟨j, hj, hne, hjb⟩ := hbm
    exact exists_fillAll_of_meeting hI hj hk hv (hI.meet hj hk hne hb hm hjb hkm) h
  · refine ⟨v, k.1.fillFrom k.2 true 0 (b.text ++ m.text), hv, fun ks hperm => ?_⟩
    rw [List.append_assoc]
    apply fillAll_append_of_one (hI.perm hperm) (hperm.mem_iff.mpr hk) hv
    · intro i hi hne
      exact (Slot.absent_text_append hb).mpr
        ⟨fun hib => hbm ⟨i, hperm.mem_iff.mp hi, hne, hib⟩, absent_of_ne hm hkm hne⟩
    · exact .inr (.inl (Slot.not_isMarker_text_append (hI.notMem k hk) hb m.text))

theorem fillAll_perm (hI : Independent passes) {ks : List Pass} (hperm : ks.Perm passes)
    {t : List Char} (h : ¬ Contested passes t) : fillAll ks t = fillAll passes t := by
  obtain ⟨x, u, hx, hfill⟩ := exists_fillAll_eq_append hI h
  rw [hfill ks hperm, hfill passes (.refl passes), fillAll_perm_of_terminated hI hperm hx]

variable {p : Pipeline} {discovered : List (List String)}

theorem independent_passes (hp : p.SingleLine) (hd : p.Inert discovered)
    (hdistinct : (p.injectors.map fun i => i.slot.token).Nodup) :
    Independent (p.passes discovered) where
  notMem := hp.notMem
  lacks := hd.lacks_passes
  nodup := by
    have hslots : (p.injectors.map Injector.slot).Nodup :=
      List.pairwise_map.mpr ((List.pairwise_map.mp hdistinct).imp fun hne heq =>
        hne (congrArg Slot.token heq))
    have hsub := (Lists.map_fst_zip_sublist p.injectors discovered).map Injector.slot
    rw [List.map_map] at hsub
    rw [passes, List.map_map]
    exact hslots.sublist hsub

/-- Each slot takes its own markers only: the order of the slots, each with its references, does not
show in a text where no two markers contest the break between them. -/
theorem substitute_perm (hp : p.SingleLine) (hd : p.Inert discovered)
    (hdistinct : (p.injectors.map fun i => i.slot.token).Nodup) {q : Pipeline}
    {rearranged : List (List String)}
    (hperm : (q.injectors.zip rearranged).Perm (p.injectors.zip discovered)) {chunk : String}
    (h : ¬ Contested (p.passes discovered) chunk.toList) :
    q.substitute rearranged chunk = p.substitute discovered chunk := by
  have hpasses : (q.passes rearranged).Perm (p.passes discovered) := hperm.map _
  rw [substitute_eq, substitute_eq, fillAll_perm (independent_passes hp hd hdistinct) hpasses h]

theorem substitute_perm_meeting :
    (ofSlots [jSlot, cSlot]).SingleLine ∧
      (ofSlots [jSlot, cSlot]).Inert [["<j>"], ["<c>", "<d>"]] ∧
      ((ofSlots [jSlot, cSlot]).injectors.map fun i => i.slot.token).Nodup ∧
      ((ofSlots [cSlot, jSlot]).injectors.zip [["<c>", "<d>"], ["<j>"]]).Perm
        ((ofSlots [jSlot, cSlot]).injectors.zip [["<j>"], ["<c>", "<d>"]]) ∧
      ¬ Contested ((ofSlots [jSlot, cSlot]).passes [["<j>"], ["<c>", "<d>"]])
        "C\na\n J\r\n\tC".toList ∧
      (ofSlots [jSlot, cSlot]).substitute [["<j>"], ["<c>", "<d>"]] "C\na\n J\r\n\tC" =
        "<c>\n<d>\na\n <j>\r\n\t<c>\r\n\t<d>" ∧
      (ofSlots [cSlot, jSlot]).substitute [["<c>", "<d>"], ["<j>"]] "C\na\n J\r\n\tC" =
        "<c>\n<d>\na\n <j>\r\n\t<c>\r\n\t<d>" := by
  have hp : (ofSlots [jSlot, cSlot]).SingleLine := by decide
  have hd : (ofSlots [jSlot, cSlot]).Inert [["<j>"], ["<c>", "<d>"]] := by decide
  have hdistinct : ((ofSlots [jSlot, cSlot]).injectors.map fun i => i.slot.token).Nodup := by
    decide
  have hperm : ((ofSlots [cSlot, jSlot]).injectors.zip [["<c>", "<d>"], ["<j>"]]).Perm
      ((ofSlots [jSlot, cSlot]).injectors.zip [["<j>"], ["<c>", "<d>"]]) := .swap _ _ _
  have hrec : records "C\na\n J\r\n\tC".toList =
      [⟨['C'], ['\n']⟩, ⟨['a'], ['\n']⟩] ++ [⟨[' ', 'J'], ['\r', '\n']⟩, ⟨['\t', 'C'], []⟩] := rfl
  have hnot : ¬ Contested ((ofSlots [jSlot, cSlot]).passes [["<j>"], ["<c>", "<d>"]])
      "C\na\n J\r\n\tC".toList := by
    rw [contested_iff hrec]
    decide
  have hout : (ofSlots [jSlot, cSlot]).substitute [["<j>"], ["<c>", "<d>"]]
      "C\na\n J\r\n\tC" = "<c>\n<d>\na\n <j>\r\n\t<c>\r\n\t<d>" := rfl
  exact ⟨hp, hd, hdistinct, hperm, hnot, hout, (substitute_perm hp hd hdistinct hperm hnot).trans hout⟩

/-- The marker of `C` takes the break of the marker of `J` before it. If it goes first, the lines for
`J` are joined with another break. -/
theorem substitute_order_shows :
    (ofSlots [jSlot, cSlot]).SingleLine ∧
      (ofSlots [jSlot, cSlot]).Inert [["<i>", "<j>"], []] ∧
      ((ofSlots [jSlot, cSlot]).injectors.map fun i => i.slot.token).Nodup ∧
      ((ofSlots [cSlot, jSlot]).injectors.zip [[], ["<i>", "<j>"]]).Perm
        ((ofSlots [jSlot, cSlot]).injectors.zip [["<i>", "<j>"], []]) ∧
      (ofSlots [jSlot, cSlot]).substitute [["<i>", "<j>"], []] "J\r\nC" = "<i>\r\n<j>" ∧
      (ofSlots [cSlot, jSlot]).substitute [[], ["<i>", "<j>"]] "J\r\nC" = "<i>\n<j>" :=
  ⟨by decide, by decide, by decide, .swap _ _ _, rfl, rfl⟩

end AssetSlots.Pipeline
