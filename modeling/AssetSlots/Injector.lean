import AssetSlots.Glob.Match
import AssetSlots.Rule
import AssetSlots.Slot
import AssetSlots.Template

namespace AssetSlots

structure Injector where
  kind : String
  template : Template
  pattern : Glob.Pattern
  slot : Slot
  deriving DecidableEq

namespace Injector

def compileGlob (text : String) : Except Error Glob.Pattern :=
  (Glob.Pattern.parse text).mapError (.glob text)

/-- Of several mistakes in a rule, one in the template is reported first, then one in the glob. -/
def ofRule (kind : String) (rule : Rule) : Except Error Injector := do
  let template ← Template.parse rule.template
  let pattern ← compileGlob rule.glob
  let slot ← Slot.ofText rule.slot
  return ⟨kind, template, pattern, slot⟩

end Injector

/-- The names of the regular files in a directory that the pattern accepts, ascending. A directory
that is missing or cannot be read has none. -/
def matchingFiles (view : View) (dir : String) (pattern : Glob.Pattern) : List String :=
  (view dir).fileNames.filter pattern.accepts

namespace Injector

def references (i : Injector) (view : View) (source serve : String) : List String :=
  (matchingFiles view source i.pattern).map fun name => i.template.render (serve ++ name)

end Injector

end AssetSlots
