import AssetSlots.Error

namespace AssetSlots

structure Rule where
  /-- Markup with one `%s`, where the URL goes. -/
  template : String
  /-- The pattern for names of files. -/
  glob : String
  /-- The text of a marker line. -/
  slot : String
  deriving DecidableEq, Repr

namespace Rule

structure Partial where
  template : Option String
  glob : Option String
  slot : Option String
  deriving DecidableEq, Repr

def overlaid (r : Rule) (p : Partial) : Rule :=
  ⟨p.template.getD r.template, p.glob.getD r.glob, p.slot.getD r.slot⟩

namespace Partial

def require (kind : String) (field : Field) : Option String → Except Error String
  | some "" => .error (.incompleteRule kind field)
  | some v => .ok v
  | none => .error (.incompleteRule kind field)

def complete (kind : String) (p : Partial) : Except Error Rule := do
  let template ← require kind .template p.template
  let glob ← require kind .glob p.glob
  let slot ← require kind .slot p.slot
  return ⟨template, glob, slot⟩

end Partial

end Rule

end AssetSlots
