import AssetSlots.Pipeline
import AssetSlots.Response

namespace AssetSlots

structure Site where
  pipeline : Pipeline
  table : MountTable
  deriving DecidableEq

namespace Site

/-- Mistakes in rules are reported before kinds without a rule. -/
def build (rules : RuleSet) (table : MountTable) : Except Error Site := do
  let pipeline ← Pipeline.ofRules rules
  pipeline.check table
  return ⟨pipeline, table⟩

def render (s : Site) (view : View) (page : String) : String :=
  s.pipeline.substitute (s.pipeline.discover view s.table) page

def process (s : Site) (view : View) (response : Response) : Response :=
  if response.isHtml then { response with body := s.pipeline.run view s.table response.body }
  else response

def staticPrefixes (s : Site) : List String := s.table.staticPrefixes

end Site

end AssetSlots
