import AssetSlots.Proofs.Pipeline.AtOnce

namespace AssetSlots.Pipeline

open Text

variable {p : Pipeline} {discovered : List (List String)}

theorem absent_passes {t : List Char} (h : ∀ i ∈ p.injectors, i.slot.Absent t) :
    ∀ k ∈ p.passes discovered, k.1.Absent t := by
  intro k hk
  obtain ⟨i, hi, _, _, rfl⟩ := exists_of_mem_passes hk
  exact h i hi

theorem substitute_of_absent (hp : p.SingleLine) {chunk : String}
    (h : ∀ i ∈ p.injectors, i.slot.Absent chunk.toList) :
    p.substitute discovered chunk = chunk := by
  rw [substitute_eq, fillAll_of_absent hp.notMem (absent_passes h), String.ofList_toList]

theorem absent_substitute (hp : p.SingleLine) (hlen : discovered.length = p.injectors.length)
    (hd : p.Inert discovered) (chunk : String) :
    ∀ i ∈ p.injectors, i.slot.Absent (p.substitute discovered chunk).toList := by
  intro i hi
  obtain ⟨lines, hmem⟩ := exists_mem_passes hlen hi
  rw [substitute_eq, String.toList_ofList]
  exact absent_fillAll hp.notMem (hd.lacks hi) hmem chunk.toList

/-- After a run no line is a marker line of any slot, and a second run changes nothing; nor does a
first one where there is no marker line. -/
theorem substitute_leaves_no_marker (hp : p.SingleLine)
    (hlen : discovered.length = p.injectors.length) (hd : p.Inert discovered) (chunk : String) :
    (∀ i ∈ p.injectors, ∀ r ∈ records (p.substitute discovered chunk).toList,
        ¬ i.slot.IsMarker r.content) ∧
      p.substitute discovered (p.substitute discovered chunk) = p.substitute discovered chunk ∧
      ((∀ i ∈ p.injectors, ∀ r ∈ records chunk.toList, ¬ i.slot.IsMarker r.content) →
        p.substitute discovered chunk = chunk) := by
  have habsent := absent_substitute hp hlen hd chunk
  exact ⟨habsent, substitute_of_absent hp habsent, substitute_of_absent hp⟩

theorem substitute_leaves_no_marker_open :
    (ofSlots [jSlot, cSlot]).SingleLine ∧
      [["<j>"], []].length = (ofSlots [jSlot, cSlot]).injectors.length ∧
      (ofSlots [jSlot, cSlot]).Inert [["<j>"], []] ∧
      (ofSlots [jSlot, cSlot]).substitute [["<j>"], []] "J\n\rC\r\n C" = "<j>\n\rC" ∧
      (∀ i ∈ (ofSlots [jSlot, cSlot]).injectors, ∀ r ∈ records "<j>\n\rC".toList,
        ¬ i.slot.IsMarker r.content) ∧
      (ofSlots [jSlot, cSlot]).substitute [["<j>"], []] "<j>\n\rC" = "<j>\n\rC" := by
  have hp : (ofSlots [jSlot, cSlot]).SingleLine := by decide
  have hd : (ofSlots [jSlot, cSlot]).Inert [["<j>"], []] := by decide
  have hout : (ofSlots [jSlot, cSlot]).substitute [["<j>"], []] "J\n\rC\r\n C" = "<j>\n\rC" := rfl
  obtain ⟨hnone, hagain, _⟩ := substitute_leaves_no_marker hp rfl hd "J\n\rC\r\n C"
  rw [hout] at hnone hagain
  exact ⟨hp, rfl, hd, hout, hnone, hagain⟩

end AssetSlots.Pipeline
