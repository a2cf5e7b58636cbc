import AssetSlots.KeyMap
import Mathlib.Data.List.Nodup
import Mathlib.Data.String.Basic
import Mathlib.Order.Bounds.Defs

namespace AssetSlots.KeyMap

variable {α : Type} {rows : List (String × α)}

theorem lookup_eq_some_iff (h : (rows.map Prod.fst).Nodup) {k : String} {v : α} :
    rows.lookup k = some v ↔ (k, v) ∈ rows := by
  induction rows with
  | nil => simp
  | cons row rows ih =>
      obtain ⟨hrow, hrows⟩ := List.nodup_cons.mp h
      rw [lookup_cons, List.mem_cons]
      by_cases hk : k = row.1
      · have hnot : (k, v) ∉ rows := fun hmem => hrow (hk ▸ List.mem_map_of_mem hmem)
        simp [hk, hk ▸ hnot, Prod.ext_iff, eq_comm]
      · simp [hk, ih hrows, Prod.ext_iff]

theorem lookup_eq_none_iff {k : String} : rows.lookup k = none ↔ k ∉ rows.map Prod.fst := by
  induction rows with
  | nil => simp
  | cons row rows ih =>
      rw [lookup_cons, List.map_cons, List.mem_cons]
      by_cases hk : k = row.1 <;> simp [hk, ih]

theorem find?_foldl_insert (h : (rows.map Prod.fst).Nodup) (m : KeyMap α) (k : String) :
    (rows.foldl (fun m row => m.insert row.1 row.2) m).find? k =
      (rows.lookup k).or (m.find? k) := by
  induction rows generalizing m with
  | nil => rfl
  | cons row rows ih =>
      obtain ⟨hrow, hrows⟩ := List.nodup_cons.mp h
      rw [List.foldl_cons, ih hrows, find?_insert, lookup_cons]
      by_cases hk : k = row.1
      · rw [hk, lookup_eq_none_iff.mpr hrow, if_pos rfl, if_pos rfl]
        rfl
      · rw [if_neg hk, if_neg hk]

theorem find?_ofList_eq_some_iff (h : (rows.map Prod.fst).Nodup) {k : String} {v : α} :
    (ofList rows).find? k = some v ↔ (k, v) ∈ rows := by
  rw [ofList, find?_foldl_insert h, find?_empty, Option.or_none, lookup_eq_some_iff h]

theorem isLeast_of_find? {keys : List String} (hkeys : keys.Pairwise (· < ·)) {p : String → Bool}
    {k : String} (h : keys.find? p = some k) : IsLeast {j | j ∈ keys ∧ p j = true} k := by
  obtain ⟨hk, before, after, rfl, hbefore⟩ := List.find?_eq_some_iff_append.mp h
  refine ⟨⟨by simp, hk⟩, fun j ⟨hj, hpj⟩ => ?_⟩
  rcases List.mem_append.mp hj with hj | hj
  · have hnot : p j = false := by simpa using hbefore j hj
    rw [hnot] at hpj
    cases hpj
  · rcases List.mem_cons.mp hj with rfl | hj
    · exact le_refl j
    · have hafter := (List.pairwise_append.mp hkeys).2.1
      exact le_of_lt ((List.pairwise_cons.mp hafter).1 j hj)

theorem nodup_keys (m : KeyMap α) : m.keys.Nodup := m.sorted_keys.imp fun hlt => ne_of_lt hlt

theorem exists_isLeast (m : KeyMap α) {P : String → Prop} (hP : ∀ k, P k → k ∈ m.keys) {k : String}
    (hk : P k) : ∃ j, IsLeast {j | P j} j := by
  classical
  cases hfind : m.keys.find? fun j => decide (P j) with
  | none =>
      have hnot : ¬P k := by simpa using List.find?_eq_none.mp hfind k (hP k hk)
      exact absurd hk hnot
  | some j =>
      obtain ⟨⟨_, hj⟩, hleast⟩ := isLeast_of_find? m.sorted_keys hfind
      exact ⟨j, of_decide_eq_true hj, fun i hi => hleast ⟨hP i hi, decide_eq_true hi⟩⟩

/-- The first row of some sort is the one with the least key. -/
theorem isLeast_iff {m : KeyMap α} {P : String → α → Prop} {k : String} :
    IsLeast {j | ∃ v, m.find? j = some v ∧ P j v} k ↔ ∃ before v rest,
      m.entries = before ++ (k, v) :: rest ∧ (∀ row ∈ before, ¬P row.1 row.2) ∧ P k v := by
  constructor
  · rintro ⟨⟨v, hv, hP⟩, hleast⟩
    obtain ⟨before, rest, hrows⟩ := List.append_of_mem (m.mem_entries_iff.mpr hv)
    refine ⟨before, v, rest, hrows, fun row hrow hbad => ?_, hP⟩
    have hsorted := m.sorted
    rw [hrows, List.pairwise_append] at hsorted
    have hlt : row.1 < k := hsorted.2.2 row hrow (k, v) List.mem_cons_self
    have hmem : row ∈ m.entries := hrows ▸ List.mem_append_left _ hrow
    exact absurd (hleast ⟨row.2, m.mem_entries_iff.mp hmem, hbad⟩) (not_le_of_gt hlt)
  · rintro ⟨before, v, rest, hrows, hbefore, hP⟩
    have hsorted := m.sorted
    rw [hrows, List.pairwise_append] at hsorted
    have hmem : (k, v) ∈ m.entries := hrows ▸ by simp
    refine ⟨⟨v, m.mem_entries_iff.mp hmem, hP⟩, fun j ⟨w, hw, hbad⟩ => ?_⟩
    have hj : (j, w) ∈ before ++ (k, v) :: rest := hrows ▸ m.mem_entries_iff.mpr hw
    rcases List.mem_append.mp hj with hj | hj
    · exact absurd hbad (hbefore _ hj)
    · rcases List.mem_cons.mp hj with heq | hj
      · exact le_of_eq (Prod.mk.inj heq).1.symm
      · exact le_of_lt ((List.pairwise_cons.mp hsorted.2.1).1 _ hj)

end AssetSlots.KeyMap
