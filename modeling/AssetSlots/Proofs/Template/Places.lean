import AssetSlots.Template
import Mathlib.Data.List.Infix

namespace AssetSlots.Template

variable {text : String}

/-- The number of positions at which `%s` stands. Its two characters differ, so that no two of them
overlap. -/
def places (t : List Char) : Nat := t.tails.countP fun u => ['%', 's'].isPrefixOf u

theorem places_nil : places [] = 0 := rfl

theorem places_cons (c : Char) (t : List Char) :
    places (c :: t) = (if ['%', 's'].isPrefixOf (c :: t) then 1 else 0) + places t := by
  rw [places, List.tails_cons, List.countP_cons, Nat.add_comm]
  rfl

theorem places_place (t : List Char) : places ('%' :: 's' :: t) = places t + 1 := by
  rw [places_cons, places_cons]
  simp [Nat.add_comm]

/-- A character that begins no place can be left out of the count. -/
theorem places_cons_of_ne {c : Char} {t : List Char} (h : ∀ u, c = '%' → t = 's' :: u → False) :
    places (c :: t) = places t := by
  have hno : ['%', 's'].isPrefixOf (c :: t) = false := by
    rw [Bool.eq_false_iff]
    intro hyes
    obtain ⟨u, hu⟩ := List.isPrefixOf_iff_prefix.mp hyes
    obtain ⟨rfl, rfl⟩ := List.cons.inj hu
    exact h u rfl rfl
  rw [places_cons, hno]
  simp

theorem length_pieces (t : List Char) : (pieces t).length = places t + 1 := by
  fun_induction pieces t with
  | case1 => rfl
  | case2 t ih => rw [places_place, List.length_cons, ih]
  | case3 c t _ h => exact absurd h (pieces_ne_nil t)
  | case4 c t hnot p ps h ih =>
      rw [places_cons_of_ne hnot, List.length_cons, ← List.length_cons (a := p), ← h, ih]

theorem exists_parse_iff : (∃ t, parse text = .ok t) ↔ places text.toList = 1 := by
  have hlength := length_pieces text.toList
  constructor
  · rintro ⟨t, ht⟩
    rw [parse] at ht
    split at ht
    · next before after hpieces =>
      rw [hpieces] at hlength
      exact (Nat.succ.inj hlength).symm
    · cases ht
  · intro h
    rw [h] at hlength
    obtain ⟨before, after, hpieces⟩ := List.length_eq_two.mp hlength
    rw [parse, hpieces]
    exact ⟨_, rfl⟩

theorem text_of_parse {t : Template} (h : parse text = .ok t) :
    text = t.before ++ "%s" ++ t.after := by
  rw [parse] at h
  split at h
  · next before after hpieces =>
    obtain rfl := Except.ok.inj h
    have htext := intercalate_pieces text.toList
    rw [hpieces, List.intercalate_cons_cons, List.intercalate_singleton] at htext
    rw [← String.toList_inj, ← htext]
    simp
  · cases h

theorem parse_eq_error_iff {e : Error} : parse text = .error e ↔
    places text.toList ≠ 1 ∧ e = .template text (places text.toList) := by
  rw [Ne, ← exists_parse_iff, parse]
  split
  · simp
  · simp [length_pieces, eq_comm]

end AssetSlots.Template
