import AssetSlots.Injector
import AssetSlots.MountTable
import AssetSlots.RuleSet

namespace AssetSlots

structure Pipeline where
  injectors : List Injector
  deriving DecidableEq

namespace Pipeline

def ofRules (rules : RuleSet) : Except Error Pipeline :=
  Pipeline.mk <$> rules.entries.mapM fun (kind, rule) => Injector.ofRule kind rule

def kinds (p : Pipeline) : List String := p.injectors.map Injector.kind

def check (p : Pipeline) (table : MountTable) : Except Error Unit :=
  match table.kinds.find? fun kind => decide (kind ∉ p.kinds) with
  | some kind => .error (.unknownKind kind)
  | none => .ok ()

def discover (p : Pipeline) (view : View) (table : MountTable) : List (List String) :=
  p.injectors.map fun i =>
    (table.get i.kind).flatMap fun m => i.references view m.source m.serve

def substitute (p : Pipeline) (discovered : List (List String)) (chunk : String) : String :=
  (p.injectors.zip discovered).foldl (fun chunk (i, references) => i.slot.fill chunk references)
    chunk

/-- Looks for files once, and fills the slots of each chunk on its own. -/
def run (p : Pipeline) (view : View) (table : MountTable) (body : List String) : List String :=
  body.map (p.substitute (p.discover view table))

end Pipeline

end AssetSlots
