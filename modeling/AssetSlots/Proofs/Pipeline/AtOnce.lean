import AssetSlots.Proofs.Pipeline.Passes

namespace AssetSlots.Pipeline

open Text

/-- What stands in place of a line with a break of its own: the lines of the first pass whose slot
it is a marker line of, each indented as it was and ended as it was. -/
def fillFirst (passes : List Pass) (r : Record) : List Char :=
  match passes.find? fun k => k.1.IsMarker r.content with
  | some k => k.2.flatMap fun l => r.indent ++ l ++ r.terminator
  | none => r.text

variable {passes : List Pass}

theorem fillFirst_cons (k : Pass) (ks : List Pass) (r : Record) :
    fillFirst (k :: ks) r =
      if k.1.IsMarker r.content then k.1.fillLine k.2 r else fillFirst ks r := by
  by_cases hm : k.1.IsMarker r.content <;> simp [fillFirst, Slot.fillLine, hm]

/-- Later passes leave the lines in place of a marker as they are. -/
theorem fillAll_text (hs : ∀ k ∈ passes, '\n' ∉ k.1.token)
    (hfree : ∀ k ∈ passes, ∀ j ∈ passes, ∀ l ∈ j.2, Lacks k.1.token l) {r : Record}
    (hr : r.Closed) : fillAll passes r.text = fillFirst passes r := by
  induction passes with
  | nil => rfl
  | cons k ks ih =>
      rw [List.forall_mem_cons] at hs
      have hks : ∀ j ∈ ks, ∀ i ∈ ks, ∀ l ∈ i.2, Lacks j.1.token l := fun j hj i hi =>
        hfree j (List.mem_cons_of_mem k hj) i (List.mem_cons_of_mem k hi)
      rw [fillAll_cons, Slot.fillFrom_text hs.1 hr, fillFirst_cons]
      by_cases hm : k.1.IsMarker r.content
      · rw [if_pos hm, Slot.fillLine, if_pos hm]
        apply fillAll_of_absent hs.2
        intro j hj
        have hlines := hfree j (List.mem_cons_of_mem k hj) k List.mem_cons_self
        exact .of_lacks (Slot.lacks_fillLine j.1.ne_nil hlines hr)
      · rw [if_neg hm, Slot.fillLine, if_neg hm]
        exact ih hs.2 hks

theorem fillAll_eq_flatMap_records (hs : ∀ k ∈ passes, '\n' ∉ k.1.token)
    (hfree : ∀ k ∈ passes, ∀ j ∈ passes, ∀ l ∈ j.2, Lacks k.1.token l) {t : List Char}
    (ht : Terminated t) : fillAll passes t = (records t).flatMap (fillFirst passes) := by
  induction t using lineInduction with
  | nil =>
      apply fillAll_of_absent hs
      intro k _
      exact Slot.absent_nil
  | last r hr => exact absurd ht (not_terminated_text hr)
  | line r rest hr ih =>
      have hrest := (terminated_text_append hr).mp ht
      rw [fillAll_append hs (.inr hr.getLast?_text) hrest, fillAll_text hs hfree hr, ih hrest,
        records_text_append hr, List.flatMap_cons]

theorem Inert.lacks_passes {p : Pipeline} {discovered : List (List String)}
    (hd : p.Inert discovered) : ∀ k ∈ p.passes discovered, ∀ j ∈ p.passes discovered,
      ∀ l ∈ j.2, Lacks k.1.token l := by
  intro k hk
  obtain ⟨i, hi, _, _, rfl⟩ := exists_of_mem_passes hk
  exact hd.lacks hi

/-- Substituting the kinds one after another is replacing all marker lines at once. -/
theorem substitute_eq_flatMap_records {p : Pipeline} (hp : p.SingleLine)
    {discovered : List (List String)} (hd : p.Inert discovered) {chunk : String}
    (hchunk : Terminated chunk.toList) :
    p.substitute discovered chunk =
      String.ofList ((records chunk.toList).flatMap (fillFirst (p.passes discovered))) := by
  rw [substitute_eq, fillAll_eq_flatMap_records hp.notMem hd.lacks_passes hchunk]

theorem substitute_eq_flatMap_records_adjacent :
    (ofSlots [jSlot, cSlot, jSlot]).SingleLine ∧
      (ofSlots [jSlot, cSlot, jSlot]).Inert [["<j>", "<C\n J>"], [], ["<k>"]] ∧
      Terminated "a\r\n\tJ \r\nC\nC\n J\n J b\n".toList ∧
      (ofSlots [jSlot, cSlot, jSlot]).substitute [["<j>", "<C\n J>"], [], ["<k>"]]
        "a\r\n\tJ \r\nC\nC\n J\n J b\n" =
      "a\r\n\t<j>\r\n\t<C\n J>\r\n <j>\n <C\n J>\n J b\n" := by
  have hp : (ofSlots [jSlot, cSlot, jSlot]).SingleLine := by decide
  have hd : (ofSlots [jSlot, cSlot, jSlot]).Inert [["<j>", "<C\n J>"], [], ["<k>"]] := by decide
  have hchunk : Terminated "a\r\n\tJ \r\nC\nC\n J\n J b\n".toList := by decide
  exact ⟨hp, hd, hchunk, (substitute_eq_flatMap_records hp hd hchunk).trans rfl⟩

end AssetSlots.Pipeline
