import AssetSlots.Proofs.Template.Places

namespace AssetSlots.Template

variable {text : String} {c : Char} {s t : List Char}

def found : List Char → Nat
  | '%' :: 's' :: t => found t + 1
  | _ :: t => found t
  | [] => 0

def cut? : List Char → Option (List Char × List Char)
  | '%' :: 's' :: t => some ([], t)
  | c :: t => (cut? t).map fun (before, after) => (c :: before, after)
  | [] => none

/-- Counts the places, and then cuts at the first. To find none where one was counted is a mistake
of its own. -/
def parseInPasses (text : String) : Except Error Template :=
  if found text.toList = 1 then
    match cut? text.toList with
    | some (before, after) => .ok ⟨String.ofList before, String.ofList after⟩
    | none => .error (.template text 0)
  else .error (.template text (found text.toList))

theorem found_eq_places (t : List Char) : found t = places t := by
  fun_induction found t with
  | case1 t ih => rw [places_place, ih]
  | case2 c t hnot ih => rw [places_cons_of_ne hnot, ih]
  | case3 => rfl

/-- No place reaches over into what begins with a place: it would end with a `%`. -/
theorem not_place_append (h : ∀ u, c = '%' → s = 's' :: u → False) :
    ∀ u, c = '%' → s ++ '%' :: 's' :: t = 's' :: u → False := by
  intro u hc hu
  cases s with
  | nil => exact absurd (List.cons.inj hu).1 (by decide)
  | cons d s =>
      obtain ⟨rfl, -⟩ := List.cons.inj hu
      exact h s hc rfl

theorem places_append_place (s t : List Char) :
    places (s ++ '%' :: 's' :: t) = places s + places t + 1 := by
  fun_induction found s with
  | case1 s ih =>
      rw [List.cons_append, List.cons_append, places_place, places_place, ih]
      omega
  | case2 c s hnot ih =>
      rw [List.cons_append, places_cons_of_ne (not_place_append hnot), places_cons_of_ne hnot, ih]
  | case3 => rw [List.nil_append, places_place, places_nil, Nat.zero_add]

theorem cut?_cons_of_ne (h : ∀ u, c = '%' → t = 's' :: u → False) :
    cut? (c :: t) = (cut? t).map fun (before, after) => (c :: before, after) := by
  rw [cut?]
  exact h

theorem cut?_append_place (h : places s = 0) : cut? (s ++ '%' :: 's' :: t) = some (s, t) := by
  fun_induction found s with
  | case1 s ih =>
      rw [places_place] at h
      cases h
  | case2 c s hnot ih =>
      rw [places_cons_of_ne hnot] at h
      rw [List.cons_append, cut?_cons_of_ne (not_place_append hnot), ih h]
      rfl
  | case3 => rfl

/-- A place is found to cut at exactly if one is found to count. -/
theorem exists_cut?_iff : (∃ parts, cut? t = some parts) ↔ found t ≠ 0 := by
  rw [← Option.isSome_iff_exists]
  fun_induction found t with
  | case1 t ih => simp [cut?]
  | case2 c t hnot ih => rw [cut?_cons_of_ne hnot, Option.isSome_map, ih]
  | case3 => simp [cut?]

theorem toList_render (t : Template) (url : String) :
    (t.render url).toList = t.before.toList ++ url.toList ++ t.after.toList := by
  rw [render, String.toList_append, String.toList_append]

theorem toList_render_place (t : Template) :
    (t.render "%s").toList = t.before.toList ++ '%' :: 's' :: t.after.toList := by
  rw [toList_render, List.append_assoc]
  rfl

theorem places_render_place (t : Template) :
    places (t.render "%s").toList = places t.before.toList + places t.after.toList + 1 := by
  rw [toList_render_place, places_append_place]

theorem render_place_of_parse {t : Template} (h : parse text = .ok t) : t.render "%s" = text :=
  (text_of_parse h).symm

theorem cut?_of_parse {t : Template} (h : parse text = .ok t) :
    cut? text.toList = some (t.before.toList, t.after.toList) := by
  have hone : places text.toList = 1 := exists_parse_iff.mp ⟨t, h⟩
  rw [← render_place_of_parse h, places_render_place] at hone
  rw [← render_place_of_parse h, toList_render_place]
  exact cut?_append_place (by omega)

theorem parse_eq_parseInPasses (text : String) : parse text = parseInPasses text := by
  rw [parseInPasses, found_eq_places]
  cases h : parse text with
  | ok t =>
      rw [if_pos (exists_parse_iff.mp ⟨t, h⟩), cut?_of_parse h]
      simp
  | error e =>
      obtain ⟨hplaces, rfl⟩ := parse_eq_error_iff.mp h
      rw [if_neg hplaces]

end AssetSlots.Template
