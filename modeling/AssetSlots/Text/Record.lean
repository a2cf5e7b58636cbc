namespace AssetSlots.Text

structure Record where
  content : List Char
  terminator : List Char
  deriving DecidableEq, Repr

namespace Record

def text (r : Record) : List Char := r.content ++ r.terminator

end Record

/-- A line ends with `\n`, or with `\r\n` where a `\r` stands before it. Only a last line that the
text leaves open has an empty terminator, and it is never empty itself. -/
def records : List Char → List Record
  | [] => []
  | '\n' :: t => ⟨[], ['\n']⟩ :: records t
  | '\r' :: '\n' :: t => ⟨[], ['\r', '\n']⟩ :: records t
  | c :: t =>
    match records t with
    | [] => [⟨[c], []⟩]
    | r :: rs => ⟨c :: r.content, r.terminator⟩ :: rs

end AssetSlots.Text
