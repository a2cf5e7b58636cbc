import AssetSlots.Glob.Pattern

namespace AssetSlots.Glob

namespace Token

def admits (start : Bool) (c : Char) : Token → Bool
  | char d => c == d
  | anyChar => !(start && c == '.')
  | within set => !(start && c == '.') && set.any (·.admits c)
  | without set => !(start && c == '.') && !set.any (·.admits c)
  | anyRun => false
  | anyFolders => false

end Token

/-- The row of a token that takes one character, from the row `after` of the tokens after it. Rows
have one entry for each suffix of the name, from the whole name to the empty one. -/
def oneRow (token : Token) (start : Bool) : List Char → List Bool → List Bool
  | c :: t, _ :: after =>
    (token.admits start c && after.headD false) :: oneRow token (c == '/') t after
  | _, _ => [false]

def runRow (start : Bool) : List Char → List Bool → List Bool
  | c :: t, b :: after =>
    let row := runRow (c == '/') t after
    (b || !(start && c == '.') && row.headD false) :: row
  | _, after => after

def foldersRow (start : Bool) : List Char → List Bool → List Bool
  | c :: t, _ :: after =>
    let row := foldersRow (c == '/') t after
    (!(start && c == '.') && (c == '/' && after.headD false || row.headD false)) :: row
  | _, after => after

namespace Token

def row (name : List Char) : Token → List Bool → List Bool
  | anyRun, after => runRow true name after
  | anyFolders, after => after.zipWith (· || ·) (foldersRow true name after)
  | token, after => oneRow token true name after

end Token

def lastRow : List Char → List Bool
  | [] => [true]
  | _ :: t => false :: lastRow t

namespace Pattern

def accepts (p : Pattern) (name : String) : Bool :=
  (p.tokens.foldr (Token.row name.toList) (lastRow name.toList)).headD false

end Pattern

end AssetSlots.Glob
