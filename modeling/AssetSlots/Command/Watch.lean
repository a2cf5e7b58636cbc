import AssetSlots.Command.Plan

namespace AssetSlots.Command

namespace Action

def pageFile? : Action → Option String
  | render path _ => if PathText.isDash path then none else some path
  | _ => none

def readsInput : Action → Bool
  | render path _ => PathText.isDash path
  | _ => false

def fillsSlots : Action → Bool
  | render _ _ => true
  | _ => false

end Action

namespace Request

/-- The action that is carried out: making the file to start from comes in its place. -/
def action? (r : Request) : Option Action := if r.init then none else r.action

def readsInput (r : Request) : Bool := r.action?.any Action.readsInput

def configPaths (r : Request) (cwd : String) : List String :=
  match r.config with
  | some path => [path]
  | none => Config.candidates cwd

def paths (r : Request) (cwd : String) : List String :=
  match r.action? with
  | some a => r.configPaths cwd ++ a.pageFile?.toList
  | none => [Config.fileName]

def sources (r : Request) (env : Setting) : List String :=
  if r.action?.any Action.fillsSlots then
    match Settings.load env.view env.cwd r.config with
    | .ok s => s.table.mounts.map Mount.source
    | .error _ => []
  else []

end Request

def viewOf (seen : List (String × Sight)) : View :=
  fun path => (seen.lookup path).getD (.fault .notFound)

def lookAt {m : Type → Type} [Monad m] (look : String → m Sight) (paths : List String) :
    m (List (String × Sight)) :=
  paths.mapM fun path => return (path, ← look path)

/-- Looks at all that a plan may depend on. Only what the settings say leads to the directories. -/
def Request.watch {m : Type → Type} [Monad m] (look : String → m Sight) (r : Request)
    (cwd : String) (stdin : ByteArray) : m Setting := do
  let first ← lookAt look (r.paths cwd)
  let rest ← lookAt look (r.sources ⟨viewOf first, cwd, stdin⟩)
  return ⟨viewOf (first ++ rest), cwd, stdin⟩

end AssetSlots.Command
