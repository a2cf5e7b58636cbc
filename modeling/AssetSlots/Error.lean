import AssetSlots.Glob.Pattern
import AssetSlots.Text.Quoted
import AssetSlots.View

namespace AssetSlots

inductive Field where
  | template
  | glob
  | slot
  deriving DecidableEq, Repr

namespace Field

def name : Field → String
  | template => "template"
  | glob => "glob"
  | slot => "slot"

end Field

inductive Error where
  | configNotFound (path : String)
  | configUnreadable (path : String) (cause : Fault)
  | configMalformed (path : String)
  /-- A declaration of `count` paths. -/
  | declaration (kind : String) (count : Nat)
  /-- A template with `count` places for the URL. -/
  | template (text : String) (count : Nat)
  | glob (text : String) (flaw : Glob.Flaw)
  | blankSlot (token : String)
  | incompleteRule (kind : String) (field : Field)
  | unknownKind (kind : String)
  deriving DecidableEq, Repr

namespace Error

def message : Error → String
  | configNotFound path => "Config file not found: " ++ path
  | configUnreadable path _ => "Failed to read config file: " ++ path
  | configMalformed path => "Failed to parse config file: " ++ path
  | declaration kind count =>
    "Invalid path declaration for '" ++ kind ++ "': expected exactly one path, got " ++ toString count
  | template text count =>
    "Invalid template '" ++ text ++ "': expected exactly one %s, found " ++ toString count
  | glob text _ => "Invalid glob pattern: " ++ text
  | blankSlot token => "Slot marker must not be blank: " ++ Text.Quoted.encode token
  | incompleteRule kind field =>
    "Stacker '" ++ kind ++ "' is missing required field '" ++ field.name ++ "'"
  | unknownKind kind => "No stacker configured for asset kind '" ++ kind ++ "'"

def cause : Error → Option String
  | configUnreadable _ cause => some cause.message
  | configMalformed _ => some "TOML parse error"
  | glob _ flaw => some flaw.message
  | _ => none

end Error

end AssetSlots
