import AssetSlots.Text.Pieces

namespace AssetSlots.PathText

open Text

def join (dir name : String) : String :=
  if dir.isEmpty ∨ dir.toList.getLast? = some '/' then dir ++ name else dir ++ "/" ++ name

/-- What a path is relative to: the root, the directory `.` if it is named at the start, or
whatever the path is used from. -/
def anchor : List Char → List Char
  | '/' :: _ => ['/']
  | ['.'] => ['.']
  | '.' :: '/' :: _ => ['.']
  | _ => []

def pieces (path : List Char) : List (List Char) := split '/' (path.drop (anchor path).length)

def isIdle (piece : List Char) : Bool := piece == [] || piece == ['.']

/-- The paths of the directories above, nearest first, from the pieces in reverse order. Each is
the text up to where its last piece ends. -/
def above (anchor : List Char) : List (List Char) → List String
  | [] => if anchor = ['.'] then [""] else []
  | p :: rest =>
    if isIdle p then above anchor rest
    else
      String.ofList (anchor ++ ['/'].intercalate (rest.dropWhile isIdle).reverse) ::
        above anchor rest

def ancestors (path : String) : List String :=
  path :: above (anchor path.toList) (pieces path.toList).reverse

/-- Whether the path is a lone `-`, which names no file but an input stream. -/
def isDash (path : String) : Bool :=
  anchor path.toList == [] && (pieces path.toList).filter (fun p => !isIdle p) == [['-']]

end AssetSlots.PathText
