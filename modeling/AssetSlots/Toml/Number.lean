import AssetSlots.Toml.Value

namespace AssetSlots.Toml

def isSpace (c : Char) : Bool := c == ' ' || c == '\t'

def isHexDigit (c : Char) : Bool :=
  c.isDigit || ('a' ≤ c && c ≤ 'f') || ('A' ≤ c && c ≤ 'F')

def isOctalDigit (c : Char) : Bool := '0' ≤ c && c ≤ '7'

def isBinaryDigit (c : Char) : Bool := c == '0' || c == '1'

def isExponentMark (c : Char) : Bool := c == 'e' || c == 'E'

def underscoresJoin (isDigit : Char → Bool) : List Char → Bool
  | [] => true
  | '_' :: _ => false
  | c :: '_' :: t => isDigit c && t.head?.any isDigit && underscoresJoin isDigit t
  | _ :: t => underscoresJoin isDigit t

def isGrouped (isDigit : Char → Bool) (t : List Char) : Bool :=
  t != [] && t.all (fun c => isDigit c || c == '_') && underscoresJoin isDigit t

def hasLeadingZero : List Char → Bool
  | '0' :: _ :: _ => true
  | _ => false

def unsigned : List Char → List Char
  | '-' :: t => t
  | '+' :: t => t
  | t => t

/-- Decimal digits. From the first underscore on, only the underscores are looked at: each joins
two digits, up to hexadecimal ones. What has a point, an exponent or a space is no integer. -/
def isDecimal (t : List Char) : Bool :=
  let rest := t.dropWhile Char.isDigit
  t.head?.any Char.isDigit && !hasLeadingZero t && rest.head?.all (· == '_') &&
    underscoresJoin isHexDigit t && !rest.any fun c => c == ' ' || c == '.' || isExponentMark c

def isInteger : List Char → Bool
  | '0' :: 'x' :: t => t == [] || isGrouped isHexDigit t
  | '0' :: 'o' :: t => t == [] || isGrouped isOctalDigit t
  | '0' :: 'b' :: t => t == [] || isGrouped isBinaryDigit t
  | t => isDecimal (unsigned t)

def isFloat (t : List Char) : Bool :=
  let t := unsigned t
  let mantissa := t.takeWhile fun c => !isExponentMark c
  let exponent := t.dropWhile fun c => !isExponentMark c
  let whole := mantissa.takeWhile (· != '.')
  let fraction := mantissa.dropWhile (· != '.')
  t == ['i', 'n', 'f'] || t == ['n', 'a', 'n'] ||
    (fraction != [] || exponent != []) &&
    isGrouped Char.isDigit whole && !hasLeadingZero whole &&
    (fraction == [] || isGrouped Char.isDigit fraction.tail) &&
    (exponent == [] || isGrouped Char.isDigit (unsigned exponent.tail))

def word? (t : List Char) : Option Value :=
  if t = ['t', 'r', 'u', 'e'] then some (.boolean true)
  else if t = ['f', 'a', 'l', 's', 'e'] then some (.boolean false)
  else
    match Moment.read? t with
    | some m => some (.moment m)
    | none => if isInteger t || isFloat t then some (.number (String.ofList t)) else none

def endsWord (c : Char) : Bool :=
  [',', '=', '#', '[', ']', '\x7b', '\x7d', '\n', '\r'].contains c

def goesOn (t : List Char) : Bool :=
  match t.dropWhile isSpace with
  | [] => false
  | c :: _ => !(endsWord c || c == '.' || c == '"' || c == '\'')

/-- Splits off the word that a text begins with. It may hold spaces, but does not end with one. -/
def splitWord : List Char → List Char × List Char
  | [] => ([], [])
  | c :: t =>
    if endsWord c || isSpace c && !goesOn t then ([], c :: t)
    else
      let (word, rest) := splitWord t
      (c :: word, rest)

def readWord (t : List Char) : Option (Value × List Char) :=
  let (word, rest) := splitWord t
  (word? word).map fun v => (v, rest)

end AssetSlots.Toml
