import AssetSlots.Mount
import Mathlib.Data.String.Basic

namespace AssetSlots

variable {path : String} {m : Mount}

theorem serveForm_of_source (h : sourceForm path = path) :
    serveForm path = if path.toList.head? = some '/' then path else "/" ++ path := by
  have hend : path.toList.getLast? = some '/' := h ▸ getLast?_sourceForm path
  rw [serveForm]
  split
  · exact h
  · apply sourceForm_eq_self
    rw [String.toList_append, List.getLast?_append, hend]
    rfl

/-- A `/` that the source form adds at the end, the serve form would add as well. -/
theorem serveForm_sourceForm (path : String) : serveForm (sourceForm path) = serveForm path := by
  rw [serveForm_of_source (sourceForm_sourceForm path), serveForm]
  by_cases hstart : path.toList.head? = some '/'
  · rw [if_pos (head?_sourceForm hstart), if_pos hstart]
  rw [if_neg hstart]
  by_cases hempty : path = ""
  · subst hempty
    rfl
  have hne : path.toList ≠ [] := by simpa using hempty
  by_cases hend : path.toList.getLast? = some '/'
  · have hend' : ("/" ++ path).toList.getLast? = some '/' := by
      rw [String.toList_append, List.getLast?_append, hend]
      rfl
    rw [sourceForm_eq_self hend, sourceForm_eq_self hend', if_neg hstart]
  · have hend' : ("/" ++ path).toList.getLast? ≠ some '/' := by
      rw [String.toList_append, List.getLast?_append_of_ne_nil _ hne]
      exact hend
    have hstart' : (path ++ "/").toList.head? ≠ some '/' := by
      rw [String.toList_append, List.head?_append_of_ne_nil _ hne]
      exact hstart
    rw [sourceForm, if_neg hend, sourceForm, if_neg hend', if_neg hstart', String.append_assoc]

namespace Mount

theorem head?_serve (m : Mount) : m.serve.toList.head? = some '/' :=
  m.serve_normal ▸ head?_serveForm m.serve

theorem getLast?_serve (m : Mount) : m.serve.toList.getLast? = some '/' :=
  m.serve_normal ▸ getLast?_sourceForm _

theorem isIdentical_shared (path : String) : (shared path).isIdentical = true := by
  rw [isIdentical, beq_iff_eq]
  exact serveForm_sourceForm path

theorem isIdentical_iff : m.isIdentical = true ↔
    m.source = m.serve ∨ "/" ++ m.source = m.serve ∧ m.source.toList.head? ≠ some '/' := by
  rw [isIdentical, beq_iff_eq, serveForm_of_source m.source_normal]
  split
  · next hstart => simp [hstart]
  · next hstart =>
    have hne : m.source ≠ m.serve := fun h => hstart (h ▸ m.head?_serve)
    simp [hstart, hne]

/-- With a `/` more at the start, a path that has one itself becomes another path. -/
theorem isIdentical_ofPaths_doubled :
    "/" ++ (ofPaths "/a" "//a").source = (ofPaths "/a" "//a").serve ∧
      (ofPaths "/a" "//a").isIdentical = false := by
  decide

end Mount

end AssetSlots
