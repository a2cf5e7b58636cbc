import AssetSlots.Toml.Number
import AssetSlots.Toml.Quoted
import AssetSlots.Toml.Table

namespace AssetSlots.Toml

inductive Statement where
  | assign (path : List String) (v : Value)
  | header (path : List String)
  | listHeader (path : List String)

def skipSpaces (t : List Char) : List Char := t.dropWhile isSpace

/-- Passes over spaces, line breaks and, while `comment` or after a `#`, the text of a comment. -/
def skipGap (comment : Bool) : List Char → Option (List Char)
  | [] => some []
  | '\n' :: t => skipGap false t
  | '\r' :: '\n' :: t => skipGap false t
  | c :: t =>
    if comment then if isPlain c then skipGap true t else none
    else if c = '#' then skipGap true t
    else if isSpace c then skipGap false t
    else some (c :: t)

def skipLineEnd (comment : Bool) : List Char → Option (List Char)
  | [] => some []
  | '\n' :: t => some t
  | '\r' :: '\n' :: t => some t
  | c :: t =>
    if comment then if isPlain c then skipLineEnd true t else none
    else if c = '#' then skipLineEnd true t
    else if isSpace c then skipLineEnd false t
    else none

def isBareKeyChar (c : Char) : Bool := c.isAlphanum || c == '_' || c == '-'

def readKeyPart (t : List Char) : Option (String × List Char) :=
  let bare := t.takeWhile isBareKeyChar
  if bare ≠ [] then some (String.ofList bare, t.dropWhile isBareKeyChar)
  else (readLineString t).map fun (s, t) => (String.ofList s, t)

def readKey (n : Nat) (t : List Char) : Option (List String × List Char) :=
  match n with
  | 0 => none
  | n + 1 => do
    let (k, t) ← readKeyPart (skipSpaces t)
    match skipSpaces t with
    | '.' :: t =>
      let (path, t) ← readKey n t
      return (k :: path, t)
    | t => return ([k], t)

def keyLimit : Nat := 80

def readAssign (skip : List Char → Option (List Char))
    (value : List Char → Option (Value × List Char)) (t : List Char) :
    Option ((List String × Value) × List Char) := do
  let (path, t) ← readKey keyLimit t
  let t ← skip? '=' (← skip t)
  let (v, t) ← value (← skip t)
  return ((path, v), t)

def readItems {α : Type} (item : List Char → Option (α × List Char)) (close : Char) (n : Nat)
    (t : List Char) : Option (List α × List Char) :=
  match n with
  | 0 => none
  | n + 1 => do
    let t ← skipGap false t
    match skip? close t with
    | some t => return ([], t)
    | none =>
      let (a, t) ← item t
      let t ← skipGap false t
      match t with
      | ',' :: t =>
        let (items, t) ← readItems item close n t
        return (a :: items, t)
      | t =>
        let t ← skip? close t
        return ([a], t)

def readValue : (depth : Nat) → List Char → Option (Value × List Char)
  | depth + 1, '[' :: t =>
    (readItems (readValue depth) ']' (t.length + 1) t).map fun (items, t) => (.array items, t)
  | depth + 1, '\x7b' :: t => do
    let entry := readAssign (skipGap false) (readValue depth)
    let (body, t) ← readItems entry '\x7d' (t.length + 1) t
    let nodes ← Nodes.fill body []
    return (.table (Node.values nodes), t)
  | _, t =>
    match t with
    | '"' :: _ | '\'' :: _ => (readString t).map fun (s, t) => (.text (String.ofList s), t)
    | _ => readWord t

def nestingLimit : Nat := 80

def readHeader (t : List Char) : Option (Statement × List Char) :=
  match t with
  | '[' :: t => do
    let (path, t) ← readKey keyLimit t
    let t ← skip? ']' t
    let t ← skip? ']' t
    return (.listHeader path, t)
  | t => do
    let (path, t) ← readKey keyLimit t
    let t ← skip? ']' t
    return (.header path, t)

def readStatement : List Char → Option (Statement × List Char)
  | '[' :: t => readHeader t
  | t => do
    let ((path, v), t) ← readAssign (fun t => some (skipSpaces t)) (readValue nestingLimit) t
    return (.assign path v, t)

def readStatements (n : Nat) (t : List Char) : Option (List Statement) := do
  match ← skipGap false t with
  | [] => return []
  | t =>
    match n with
    | 0 => none
    | n + 1 =>
      let (s, t) ← readStatement t
      let t ← skipLineEnd false t
      let rest ← readStatements n t
      return s :: rest

end AssetSlots.Toml
