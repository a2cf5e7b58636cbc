import AssetSlots.MountTable
import AssetSlots.RuleSet

namespace AssetSlots

structure Config where
  overrides : KeyMap Rule.Partial
  paths : KeyMap (List Declaration)
  deriving DecidableEq

structure Settings where
  rules : RuleSet
  table : MountTable
  source : Option String
  deriving DecidableEq

namespace Settings

def builtin : Settings := ⟨.builtin, .empty, none⟩

end Settings

namespace Config

/-- Mistakes in rules are reported before mistakes in declarations. -/
def resolve (c : Config) (source : Option String) : Except Error Settings := do
  let rules ← RuleSet.builtin.overlay c.overrides
  let table ← MountTable.ofDeclarations c.paths
  return ⟨rules, table, source⟩

def validate (c : Config) : Except Error Unit := do
  let _ ← c.resolve none

end Config

end AssetSlots
