import AssetSlots.Error

namespace AssetSlots

structure Template where
  before : String
  after : String
  deriving DecidableEq, Repr

namespace Template

def pieces : List Char → List (List Char)
  | [] => [[]]
  | '%' :: 's' :: t => [] :: pieces t
  | c :: t =>
    match pieces t with
    | [] => [[c]]
    | p :: ps => (c :: p) :: ps

def parse (text : String) : Except Error Template :=
  match pieces text.toList with
  | [before, after] => .ok ⟨String.ofList before, String.ofList after⟩
  | ps => .error (.template text (ps.length - 1))

/-- The URL is put in as it is: a `%s` in it stands for nothing. -/
def render (t : Template) (url : String) : String := t.before ++ url ++ t.after

theorem pieces_ne_nil (t : List Char) : pieces t ≠ [] := by
  fun_induction pieces t <;> simp

theorem intercalate_pieces (t : List Char) : ['%', 's'].intercalate (pieces t) = t := by
  fun_induction pieces t with
  | case1 => rfl
  | case2 t ih =>
      obtain ⟨p, ps, h⟩ := List.exists_cons_of_ne_nil (pieces_ne_nil t)
      rw [h] at ih ⊢
      rw [List.intercalate_cons_cons, ih]
      rfl
  | case3 c t _ h ih => exact absurd h (pieces_ne_nil t)
  | case4 c t _ p ps h ih =>
      rw [h] at ih
      cases ps with
      | nil => simp_all [List.intercalate]
      | cons q qs =>
          rw [List.intercalate_cons_cons] at ih ⊢
          rw [← ih]
          simp

end Template

end AssetSlots
