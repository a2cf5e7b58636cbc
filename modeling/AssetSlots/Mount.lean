namespace AssetSlots

def sourceForm (path : String) : String :=
  if path.toList.getLast? = some '/' then path else path ++ "/"

/-- The path with a `/` at its start and at its end; a single `/` may be both. -/
def serveForm (path : String) : String :=
  sourceForm (if path.toList.head? = some '/' then path else "/" ++ path)

theorem getLast?_sourceForm (path : String) : (sourceForm path).toList.getLast? = some '/' := by
  rw [sourceForm]
  split
  · assumption
  · simp

theorem sourceForm_eq_self {path : String} (h : path.toList.getLast? = some '/') :
    sourceForm path = path := if_pos h

theorem sourceForm_sourceForm (path : String) : sourceForm (sourceForm path) = sourceForm path :=
  sourceForm_eq_self (getLast?_sourceForm path)

theorem sourceForm_serveForm (path : String) : sourceForm (serveForm path) = serveForm path :=
  sourceForm_sourceForm _

theorem head?_sourceForm {path : String} (h : path.toList.head? = some '/') :
    (sourceForm path).toList.head? = some '/' := by
  rw [sourceForm]
  split
  · exact h
  · rw [String.toList_append, List.head?_append, h]
    rfl

theorem head?_serveForm (path : String) : (serveForm path).toList.head? = some '/' := by
  rw [serveForm]
  apply head?_sourceForm
  split
  · assumption
  · simp

theorem serveForm_serveForm (path : String) : serveForm (serveForm path) = serveForm path := by
  conv => lhs; rw [serveForm, if_pos (head?_serveForm path)]
  exact sourceForm_serveForm path

structure Mount where
  source : String
  serve : String
  source_normal : sourceForm source = source
  serve_normal : serveForm serve = serve
  deriving DecidableEq

namespace Mount

def ofPaths (source serve : String) : Mount :=
  ⟨sourceForm source, serveForm serve, sourceForm_sourceForm source, serveForm_serveForm serve⟩

def shared (path : String) : Mount := ofPaths path path

def isIdentical (m : Mount) : Bool := serveForm m.source == m.serve

end Mount

end AssetSlots
