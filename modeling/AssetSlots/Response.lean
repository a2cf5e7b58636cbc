import AssetSlots.Text.Blank

namespace AssetSlots

structure Response where
  status : Nat
  headers : List (String × String)
  body : List String
  deriving DecidableEq, Repr

namespace Response

def header? (r : Response) (name : String) : Option String :=
  (r.headers.find? fun h => Text.sameLetters h.1 name).map Prod.snd

def mediaType (contentType : String) : String :=
  String.ofList (Text.trim (contentType.toList.takeWhile (· ≠ ';')))

def isHtml (r : Response) : Bool :=
  match r.header? "content-type" with
  | some value => Text.sameLetters (mediaType value) "text/html"
  | none => false

end Response

end AssetSlots
