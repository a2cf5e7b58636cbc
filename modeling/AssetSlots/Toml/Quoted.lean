namespace AssetSlots.Toml

def isPlain (c : Char) : Bool := c == '\t' || ' ' ≤ c && c != '\x7f'

def hexValue? (digits : List Char) : Option Nat :=
  digits.foldlM (fun n c =>
    if c.isDigit then some (16 * n + (c.toNat - '0'.toNat))
    else if 'a' ≤ c ∧ c ≤ 'f' then some (16 * n + (c.toNat - 'a'.toNat + 10))
    else if 'A' ≤ c ∧ c ≤ 'F' then some (16 * n + (c.toNat - 'A'.toNat + 10))
    else none) 0

def scalar? (digits : List Char) : Option Char := do
  let n ← hexValue? digits
  if n.isValidChar then some (Char.ofNat n) else none

def escaped? : Char → Option Char
  | 'b' => some '\x08'
  | 't' => some '\t'
  | 'n' => some '\n'
  | 'f' => some '\x0c'
  | 'r' => some '\r'
  | 'e' => some '\x1b'
  | '"' => some '"'
  | '\\' => some '\\'
  | _ => none

def push? (c : Option Char) (r : Option (List Char × List Char)) :
    Option (List Char × List Char) := do
  let c ← c
  let (s, rest) ← r
  return (c :: s, rest)

def readBasic : List Char → Option (List Char × List Char)
  | '"' :: t => some ([], t)
  | '\\' :: 'U' :: a :: b :: c :: d :: e :: f :: g :: h :: t =>
    push? (scalar? [a, b, c, d, e, f, g, h]) (readBasic t)
  | '\\' :: 'u' :: a :: b :: c :: d :: t => push? (scalar? [a, b, c, d]) (readBasic t)
  | '\\' :: 'x' :: a :: b :: t => push? (scalar? [a, b]) (readBasic t)
  | '\\' :: c :: t => push? (escaped? c) (readBasic t)
  | c :: t => if isPlain c then push? (some c) (readBasic t) else none
  | [] => none

def readLiteral : List Char → Option (List Char × List Char)
  | '\'' :: t => some ([], t)
  | c :: t => if isPlain c then push? (some c) (readLiteral t) else none
  | [] => none

def breaksLine (t : List Char) : Bool :=
  match t.dropWhile fun c => c == ' ' || c == '\t' with
  | '\n' :: _ => true
  | '\r' :: '\n' :: _ => true
  | _ => false

/-- Reads a basic string on several lines. While `joining`, white space is passed over. One or two
quotes may stand right before the three that close the string. -/
def readBasicLines (joining : Bool) : List Char → Option (List Char × List Char)
  | '"' :: '"' :: '"' :: '"' :: '"' :: t => some (['"', '"'], t)
  | '"' :: '"' :: '"' :: '"' :: t => some (['"'], t)
  | '"' :: '"' :: '"' :: t => some ([], t)
  | '\\' :: 'U' :: a :: b :: c :: d :: e :: f :: g :: h :: t =>
    push? (scalar? [a, b, c, d, e, f, g, h]) (readBasicLines false t)
  | '\\' :: 'u' :: a :: b :: c :: d :: t => push? (scalar? [a, b, c, d]) (readBasicLines false t)
  | '\\' :: 'x' :: a :: b :: t => push? (scalar? [a, b]) (readBasicLines false t)
  | '\\' :: c :: t =>
    if breaksLine (c :: t) then readBasicLines true t
    else push? (escaped? c) (readBasicLines false t)
  | '\r' :: '\n' :: t =>
    if joining then readBasicLines true t
    else push? (some '\r') (push? (some '\n') (readBasicLines false t))
  | c :: t =>
    if joining ∧ (c = ' ' ∨ c = '\t' ∨ c = '\n') then readBasicLines true t
    else if c = '\n' ∨ isPlain c then push? (some c) (readBasicLines false t)
    else none
  | [] => none

def readLiteralLines : List Char → Option (List Char × List Char)
  | '\'' :: '\'' :: '\'' :: '\'' :: '\'' :: t => some (['\'', '\''], t)
  | '\'' :: '\'' :: '\'' :: '\'' :: t => some (['\''], t)
  | '\'' :: '\'' :: '\'' :: t => some ([], t)
  | '\r' :: '\n' :: t => push? (some '\r') (push? (some '\n') (readLiteralLines t))
  | c :: t => if c = '\n' ∨ isPlain c then push? (some c) (readLiteralLines t) else none
  | [] => none

def afterOpening : List Char → List Char
  | '\n' :: t => t
  | '\r' :: '\n' :: t => t
  | t => t

def readLineString : List Char → Option (List Char × List Char)
  | '"' :: t => readBasic t
  | '\'' :: t => readLiteral t
  | _ => none

def readString : List Char → Option (List Char × List Char)
  | '"' :: '"' :: '"' :: t => readBasicLines false (afterOpening t)
  | '\'' :: '\'' :: '\'' :: t => readLiteralLines (afterOpening t)
  | t => readLineString t

end AssetSlots.Toml
