import AssetSlots.Config.Document
import AssetSlots.PathText
import AssetSlots.View

namespace AssetSlots

namespace Config

def fileName : String := ".scriptstacker.toml"

def ofFile (view : View) (path : String) : Except Error Config :=
  match (view path).text with
  | .ok text => parse path text
  | .error .notFound => .error (.configNotFound path)
  | .error cause => .error (.configUnreadable path cause)

def candidates (start : String) : List String :=
  (PathText.ancestors start).map fun dir => PathText.join dir fileName

/-- The nearest configuration file, which has to be a regular file. One that turns out to be bad is
an error: those further up do not stand in for it. -/
def discover (view : View) (start : String) : Except Error (Option (String × Config)) :=
  match (candidates start).find? fun path => (view path).isFile with
  | none => .ok none
  | some path => do
    let c ← ofFile view path
    return some (path, c)

end Config

namespace Settings

def load (view : View) (start : String) (explicit : Option String) : Except Error Settings :=
  match explicit with
  | some path => do
    let c ← Config.ofFile view path
    c.resolve (some path)
  | none => do
    match ← Config.discover view start with
    | some (path, c) => c.resolve (some path)
    | none => return builtin

end Settings

end AssetSlots
