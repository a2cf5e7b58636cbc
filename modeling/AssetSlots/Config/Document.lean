import AssetSlots.Config
import AssetSlots.Toml.Document

namespace AssetSlots

namespace Toml.Value

def text? : Value → Option String
  | text s => some s
  | _ => none

end Toml.Value

namespace Config

open Toml

def readTable {α : Type} (read : Value → Option α) : Value → Option (KeyMap α)
  | .table entries => KeyMap.ofList <$> entries.mapM fun (k, v) => (read v).map fun a => (k, a)
  | _ => none

def field (entries : Entries) (name : String) : Option (Option String) :=
  match entries.lookup name with
  | some v => some <$> v.text?
  | none => some none

def rule : Value → Option Rule.Partial
  | .table entries => do
    guard (entries.all fun e => e.1 == "template" || e.1 == "glob" || e.1 == "slot")
    return ⟨← field entries "template", ← field entries "glob", ← field entries "slot"⟩
  | .array (.text template :: .text glob :: .text slot :: _) =>
    some ⟨some template, some glob, some slot⟩
  | _ => none

/-- The key under which a date or time stands in the mapping that it is read as. -/
def momentKey : String := "$__toml_private_datetime"

def declaration : Value → Option Declaration
  | .text s => some (.shared s)
  | .moment m => some (.mapping (KeyMap.empty.insert momentKey m.text))
  | v => .mapping <$> readTable Value.text? v

def declarations : Value → Option (List Declaration)
  | .array items => items.mapM declaration
  | _ => none

def section? {α : Type} (read : Value → Option α) (entries : Entries) (name : String) :
    Option (KeyMap α) :=
  match entries.lookup name with
  | some v => readTable read v
  | none => some .empty

def ofDocument (entries : Entries) : Option Config := do
  guard (entries.all fun e => e.1 == "stackers" || e.1 == "paths")
  return ⟨← section? rule entries "stackers", ← section? declarations entries "paths"⟩

def parse (path text : String) : Except Error Config :=
  match (Toml.parse text).bind ofDocument with
  | none => .error (.configMalformed path)
  | some c => do
    c.validate
    return c

end Config

end AssetSlots
