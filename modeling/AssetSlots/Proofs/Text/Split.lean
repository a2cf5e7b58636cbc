import AssetSlots.Text.Pieces

namespace AssetSlots.Text

variable {sep : Char}

theorem split_cons_of_ne {c : Char} (h : c ≠ sep) {t p : List Char} {ps : List (List Char)}
    (ht : split sep t = p :: ps) : split sep (c :: t) = (c :: p) :: ps := by
  rw [split, if_neg h, ht]

/-- A separator parts what is before it from what is after it. -/
theorem split_append (s t : List Char) :
    split sep (s ++ sep :: t) = split sep s ++ split sep t := by
  induction s with
  | nil => simp [split]
  | cons c s ih =>
      by_cases hc : c = sep
      · rw [List.cons_append, split, if_pos hc, ih, split, if_pos hc, List.cons_append]
      · obtain ⟨p, ps, hs⟩ := List.exists_cons_of_ne_nil (split_ne_nil sep s)
        rw [hs, List.cons_append] at ih
        rw [List.cons_append, split_cons_of_ne hc ih, split_cons_of_ne hc hs, List.cons_append]

theorem notMem_of_mem_split {t p : List Char} (hp : p ∈ split sep t) : sep ∉ p := by
  induction t generalizing p with
  | nil =>
      obtain rfl := List.mem_singleton.mp hp
      exact List.not_mem_nil
  | cons c t ih =>
      by_cases hc : c = sep
      · rw [split, if_pos hc] at hp
        rcases List.mem_cons.mp hp with rfl | hp
        · exact List.not_mem_nil
        · exact ih hp
      · obtain ⟨q, qs, ht⟩ := List.exists_cons_of_ne_nil (split_ne_nil sep t)
        rw [split_cons_of_ne hc ht] at hp
        rw [ht] at ih
        rcases List.mem_cons.mp hp with rfl | hp
        · rw [List.mem_cons, not_or]
          exact ⟨Ne.symm hc, ih List.mem_cons_self⟩
        · exact ih (List.mem_cons_of_mem q hp)

theorem split_of_notMem {t : List Char} (h : sep ∉ t) : split sep t = [t] := by
  induction t with
  | nil => rfl
  | cons c t ih =>
      rw [List.mem_cons, not_or] at h
      exact split_cons_of_ne (Ne.symm h.1) (ih h.2)

theorem split_intercalate {ps : List (List Char)} (hne : ps ≠ []) (h : ∀ p ∈ ps, sep ∉ p) :
    split sep ([sep].intercalate ps) = ps := by
  induction ps with
  | nil => exact absurd rfl hne
  | cons p ps ih =>
      rw [List.forall_mem_cons] at h
      cases ps with
      | nil => rw [List.intercalate_singleton, split_of_notMem h.1]
      | cons q ps =>
          rw [List.intercalate_cons_cons, List.append_assoc, List.singleton_append, split_append,
            split_of_notMem h.1, ih (List.cons_ne_nil q ps) h.2, List.singleton_append]

end AssetSlots.Text
