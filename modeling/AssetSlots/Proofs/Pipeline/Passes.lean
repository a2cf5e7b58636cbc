import AssetSlots.Pipeline
import AssetSlots.Proofs.Slot.Absence

namespace AssetSlots.Pipeline

open Text

abbrev Pass := Slot × List (List Char)

def fillAll (passes : List Pass) (t : List Char) : List Char :=
  passes.foldl (fun t k => k.1.fillFrom k.2 true 0 t) t

def passes (p : Pipeline) (discovered : List (List String)) : List Pass :=
  (p.injectors.zip discovered).map fun k => (k.1.slot, k.2.map String.toList)

def SingleLine (p : Pipeline) : Prop := ∀ i ∈ p.injectors, '\n' ∉ i.slot.token

instance (p : Pipeline) : Decidable p.SingleLine :=
  inferInstanceAs (Decidable (∀ i ∈ p.injectors, '\n' ∉ i.slot.token))

/-- No line of a reference, without the white space around it, is the token of a slot. -/
def Inert (p : Pipeline) (discovered : List (List String)) : Prop :=
  ∀ i ∈ p.injectors, ∀ references ∈ discovered, ∀ reference ∈ references,
    Lacks i.slot.token reference.toList

instance (p : Pipeline) (discovered : List (List String)) : Decidable (p.Inert discovered) :=
  inferInstanceAs (Decidable (∀ i ∈ p.injectors, ∀ references ∈ discovered,
    ∀ reference ∈ references, Lacks i.slot.token reference.toList))

def ofSlots (slots : List Slot) : Pipeline := ⟨slots.map fun s => ⟨"", ⟨"", ""⟩, ⟨[]⟩, s⟩⟩

def jSlot : Slot := ⟨['J'], by decide, by rintro c ⟨⟩; rfl, by rintro c ⟨⟩; rfl⟩

def cSlot : Slot := ⟨['C'], by decide, by rintro c ⟨⟩; rfl, by rintro c ⟨⟩; rfl⟩

theorem substitute_eq (p : Pipeline) (discovered : List (List String)) (chunk : String) :
    p.substitute discovered chunk = String.ofList (fillAll (p.passes discovered) chunk.toList) := by
  rw [substitute, passes]
  induction p.injectors.zip discovered generalizing chunk with
  | nil => exact String.ofList_toList.symm
  | cons k ks ih =>
      rw [List.foldl_cons, ih]
      simp only [Slot.fill, String.toList_ofList]
      rfl

theorem exists_of_mem_passes {p : Pipeline} {discovered : List (List String)} {k : Pass}
    (hk : k ∈ p.passes discovered) : ∃ i ∈ p.injectors, ∃ references ∈ discovered,
      k = (i.slot, references.map String.toList) := by
  obtain ⟨⟨i, references⟩, hmem, rfl⟩ := List.mem_map.mp hk
  exact ⟨i, (List.of_mem_zip hmem).1, references, (List.of_mem_zip hmem).2, rfl⟩

theorem SingleLine.notMem {p : Pipeline} (hp : p.SingleLine) {discovered : List (List String)} :
    ∀ k ∈ p.passes discovered, '\n' ∉ k.1.token := by
  intro k hk
  obtain ⟨i, hi, _, _, rfl⟩ := exists_of_mem_passes hk
  exact hp i hi

theorem Inert.lacks {p : Pipeline} {discovered : List (List String)} (hd : p.Inert discovered)
    {i : Injector} (hi : i ∈ p.injectors) :
    ∀ k ∈ p.passes discovered, ∀ l ∈ k.2, Lacks i.slot.token l := by
  intro k hk l hl
  obtain ⟨_, _, references, href, rfl⟩ := exists_of_mem_passes hk
  obtain ⟨reference, hmem, rfl⟩ := List.mem_map.mp hl
  exact hd i hi references href reference hmem

theorem exists_mem_passes {p : Pipeline} {discovered : List (List String)}
    (hlen : discovered.length = p.injectors.length) {i : Injector} (hi : i ∈ p.injectors) :
    ∃ lines, (i.slot, lines) ∈ p.passes discovered := by
  obtain ⟨n, hn, rfl⟩ := List.mem_iff_getElem.mp hi
  have hn' : n < discovered.length := by omega
  have hzip : n < (p.injectors.zip discovered).length := by
    rw [List.length_zip]
    omega
  refine ⟨discovered[n].map String.toList, ?_⟩
  apply List.mem_map.mpr
  refine ⟨(p.injectors[n], discovered[n]), ?_, rfl⟩
  rw [← List.getElem_zip (h := hzip)]
  exact List.getElem_mem hzip

variable {passes : List Pass}

theorem fillAll_cons (k : Pass) (ks : List Pass) (t : List Char) :
    fillAll (k :: ks) t = fillAll ks (k.1.fillFrom k.2 true 0 t) := rfl

theorem fillAll_of_absent (hs : ∀ k ∈ passes, '\n' ∉ k.1.token) {t : List Char}
    (h : ∀ k ∈ passes, k.1.Absent t) : fillAll passes t = t := by
  induction passes with
  | nil => rfl
  | cons k ks ih =>
      rw [List.forall_mem_cons] at hs h
      rw [fillAll_cons, Slot.fillFrom_of_absent hs.1 h.1]
      exact ih hs.2 h.2

theorem absent_fillAll_of_absent (hs : ∀ k ∈ passes, '\n' ∉ k.1.token) {q : Slot}
    (hq : ∀ k ∈ passes, ∀ l ∈ k.2, Lacks q.token l) {t : List Char} (h : q.Absent t) :
    q.Absent (fillAll passes t) := by
  induction passes generalizing t with
  | nil => exact h
  | cons k ks ih =>
      rw [List.forall_mem_cons] at hs hq
      rw [fillAll_cons]
      apply ih hs.2 hq.2
      exact Slot.absent_fillFrom hs.1 hq.1 fun r hr _ => h r hr

/-- The pass of a slot takes its markers away, and no later pass brings one back. -/
theorem absent_fillAll (hs : ∀ k ∈ passes, '\n' ∉ k.1.token) {q : Slot}
    (hq : ∀ k ∈ passes, ∀ l ∈ k.2, Lacks q.token l) {lines : List (List Char)}
    (hmem : (q, lines) ∈ passes) (t : List Char) : q.Absent (fillAll passes t) := by
  induction passes generalizing t with
  | nil => exact absurd hmem List.not_mem_nil
  | cons k ks ih =>
      rw [List.forall_mem_cons] at hs hq
      rw [fillAll_cons]
      rcases List.mem_cons.mp hmem with rfl | hmem
      · apply absent_fillAll_of_absent hs.2 hq.2
        exact Slot.absent_fillFrom hs.1 hq.1 fun _ _ hm => hm
      · exact ih hs.2 hq.2 hmem _

theorem fillAll_append (hs : ∀ k ∈ passes, '\n' ∉ k.1.token) {x y : List Char}
    (hx : Terminated x) (hy : Terminated y) :
    fillAll passes (x ++ y) = fillAll passes x ++ fillAll passes y := by
  induction passes generalizing x y with
  | nil => rfl
  | cons k ks ih =>
      rw [List.forall_mem_cons] at hs
      have hm := Slot.not_isMarker_of_terminated hs.1 hy
      rw [fillAll_cons, Slot.fillFrom_append hs.1 hx hm, fillAll_cons, fillAll_cons]
      exact ih hs.2 (Slot.terminated_fillFrom hs.1 hx) (Slot.terminated_fillFrom hs.1 hy)

end AssetSlots.Pipeline
