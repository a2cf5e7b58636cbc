import AssetSlots.Glob.Pattern

namespace AssetSlots.Glob

/-- Whether a character that follows the text `t` begins a component, given that this is so of the
character that `t` begins with iff `start`. -/
def startsAfter (start : Bool) (t : List Char) : Bool :=
  match t.getLast? with
  | none => start
  | some c => c == '/'

def Visible (start : Bool) (piece : List Char) : Prop :=
  ∀ a b, piece = a ++ '.' :: b → startsAfter start a = false

/-- The token takes `piece`, where `rest` is what follows it. -/
inductive Takes (start : Bool) : Token → List Char → List Char → Prop
  | char {c rest} : Takes start (.char c) [c] rest
  | anyChar {c rest} : Visible start [c] → Takes start .anyChar [c] rest
  | within {set : List Specifier} {c rest} : Visible start [c] →
      (∃ s ∈ set, s.admits c = true) → Takes start (.within set) [c] rest
  | without {set : List Specifier} {c rest} : Visible start [c] →
      (∀ s ∈ set, s.admits c = false) → Takes start (.without set) [c] rest
  | anyRun {piece rest} : Visible start piece → Takes start .anyRun piece rest
  | noFolders {rest} : Takes start .anyFolders [] rest
  | anyFolders {piece rest} : Visible start piece → piece.getLast? = some '/' →
      Takes start .anyFolders piece rest
  | allFolders {piece} : Visible start piece → Takes start .anyFolders piece []

inductive Describes : Bool → List Token → List Char → Prop
  | nil {start} : Describes start [] []
  | cons {start token tokens piece rest} : Takes start token piece rest →
      Describes (startsAfter start piece) tokens rest →
      Describes start (token :: tokens) (piece ++ rest)

namespace Pattern

def Names (p : Pattern) (name : String) : Prop := Describes true p.tokens name.toList

end Pattern

end AssetSlots.Glob
