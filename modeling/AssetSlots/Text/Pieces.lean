namespace AssetSlots.Text

def split (sep : Char) : List Char → List (List Char)
  | [] => [[]]
  | c :: t =>
    if c = sep then [] :: split sep t
    else
      match split sep t with
      | [] => [[c]]
      | p :: ps => (c :: p) :: ps

theorem split_ne_nil (sep : Char) (t : List Char) : split sep t ≠ [] := by
  cases t with
  | nil => simp [split]
  | cons c t =>
      rw [split]
      split
      · simp
      · split <;> simp

theorem intercalate_split (sep : Char) (t : List Char) : [sep].intercalate (split sep t) = t := by
  induction t with
  | nil => rfl
  | cons c t ih =>
      obtain ⟨p, ps, h⟩ := List.exists_cons_of_ne_nil (split_ne_nil sep t)
      rw [h] at ih
      by_cases hc : c = sep
      · rw [split, if_pos hc, h, List.intercalate_cons_cons, ih, hc]; rfl
      · rw [split, if_neg hc, h]
        cases ps with
        | nil => simp_all [List.intercalate]
        | cons q qs =>
            rw [List.intercalate_cons_cons] at ih ⊢
            rw [← ih]
            simp

end AssetSlots.Text
