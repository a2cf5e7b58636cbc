import AssetSlots.Command.Outcome
import AssetSlots.Command.Request
import AssetSlots.Config.Lookup
import AssetSlots.Config.Starter
import AssetSlots.Site

namespace AssetSlots.Command

inductive Plan where
  | finish (outcome : Outcome)
  /-- Write a file; then tell `done`, or what `failed` says about the fault. -/
  | write (path text : String) (done : Outcome) (failed : Fault → Outcome)

structure Setting where
  view : View
  cwd : String
  stdin : ByteArray

namespace Setting

def settings (env : Setting) (config : Option String) : Except Failure Settings :=
  (Settings.load env.view env.cwd config).mapError (Failure.ofError "Failed to load configuration")

def site (env : Setting) (config : Option String) : Except Failure Site := do
  let s ← env.settings config
  (Site.build s.rules s.table).mapError (Failure.ofError "Invalid stacker configuration")

def page (env : Setting) (path : String) : Except Failure String :=
  if PathText.isDash path then
    (decode env.stdin).mapError (Failure.ofFault "Failed to read stdin")
  else
    (env.view path).text.mapError (Failure.ofFault ("Failed to read " ++ path))

end Setting

def lines (ls : List String) : String := String.join (ls.map (· ++ "\n"))

def writeFailed (path : String) (cause : Fault) : Outcome :=
  (Failure.ofFault ("Failed to write " ++ path) cause).outcome

namespace Plan

def ofResult (r : Except Failure Plan) : Plan :=
  match r with
  | .ok p => p
  | .error f => finish f.outcome

def init (env : Setting) (force : Bool) : Plan :=
  if (env.view Config.fileName).exists? && !force then
    finish (Failure.outcome
      ⟨Config.fileName ++ " already exists. Use --force to overwrite.", []⟩)
  else
    write Config.fileName Config.starter
      (.success (lines ["Created " ++ Config.fileName])) (writeFailed Config.fileName)

def render (env : Setting) (config : Option String) (path : String) (output : Option String) :
    Plan :=
  ofResult do
    let site ← env.site config
    let page ← env.page path
    let text := site.render env.view page
    match output with
    | some out => return write out text (.success "") (writeFailed out)
    | none => return finish (.success text)

def staticPaths (env : Setting) (config : Option String) : Plan :=
  ofResult do
    let site ← env.site config
    return finish (.success (lines site.staticPrefixes))

def mountLine (m : Mount) : String :=
  "    " ++ m.source ++ " -> " ++ m.serve ++ if m.isIdentical then " (static)" else ""

def settingsLines (s : Settings) : List String :=
  ["# Source: " ++ s.source.getD "built-in defaults", "", "Stackers (in substitution order):", ""] ++
  s.rules.entries.flatMap (fun (kind, rule) =>
    ["  " ++ kind ++ ":", "    template: " ++ rule.template, "    glob: " ++ rule.glob,
      "    slot: " ++ rule.slot, ""]) ++
  if s.table.isEmpty then ["No paths declared."]
  else
    ["Paths:", ""] ++ s.table.byKind.entries.flatMap fun (kind, mounts) =>
      ["  " ++ kind ++ ":"] ++ mounts.map mountLine ++ [""]

def showConfig (env : Setting) (config : Option String) : Plan :=
  ofResult do
    let s ← env.settings config
    return finish (.success (lines (settingsLines s)))

def validLine (s : Settings) : String :=
  match s.source with
  | some path =>
    "Configuration is valid: " ++ path ++ " (" ++ toString s.rules.size ++ " stackers, " ++
      toString s.table.mounts.length ++ " paths)"
  | none => "No configuration files found. Using defaults."

def validateConfig (env : Setting) (config : Option String) : Plan :=
  let checked : Except Error Settings := do
    let s ← Settings.load env.view env.cwd config
    let _ ← Site.build s.rules s.table
    return s
  match checked with
  | .ok s => finish (.success (lines [validLine s]))
  | .error e => finish ⟨1, "", lines ["Configuration error: " ++ e.message]⟩

def ofAction (env : Setting) (config : Option String) : Action → Plan
  | .render path output => render env config path output
  | .staticPaths => staticPaths env config
  | .showConfig => showConfig env config
  | .validateConfig => validateConfig env config

def ofRequest (env : Setting) (r : Request) : Plan :=
  if r.init then init env r.force
  else
    match r.action with
    | some a => ofAction env r.config a
    | none => finish (.success "")

/-- The wording is free, and no result is about it. -/
def usage : String :=
  lines ["Usage: scriptstacker [--config PATH] [--verbose] [--init [--force]] [COMMAND]", "",
    "Commands:",
    "  render FILE [--output PATH]  Replace slot markers in a page; - reads standard input",
    "  static-paths                 List the prefixes that are served from their own path",
    "  config show                  Show the settings in effect",
    "  config validate              Check the configuration"]

def ofStop : Stop → Plan
  | .version => finish (.success (lines ["scriptstacker 0.1.0"]))
  | .help => finish (.success usage)
  | .refused => finish ⟨2, "", usage⟩

def ofArguments (env : Setting) (args : List String) : Plan :=
  match Request.ofArguments args with
  | .ok r => ofRequest env r
  | .error stop => ofStop stop

end Plan

end AssetSlots.Command
