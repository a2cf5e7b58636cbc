namespace AssetSlots.Command

inductive Action where
  | render (page : String) (output : Option String)
  | staticPaths
  | showConfig
  | validateConfig
  deriving DecidableEq, Repr

structure Request where
  config : Option String
  init : Bool
  force : Bool
  action : Option Action
  deriving DecidableEq, Repr

inductive Stop where
  | version
  | help
  | refused
  deriving DecidableEq, Repr

inductive Level where
  | top
  | render
  | staticPaths
  | config
  | showConfig
  | validateConfig
  deriving DecidableEq, Repr

namespace Level

def subcommand? : Level → String → Option Level
  | top, "render" => some render
  | top, "static-paths" => some staticPaths
  | top, "config" => some config
  | config, "show" => some showConfig
  | config, "validate" => some validateConfig
  | _, _ => none

def offersHelp : Level → Bool
  | top => true
  | config => true
  | _ => false

def help (level : Level) : List String → Stop
  | [] => .help
  | ["help"] => if level.offersHelp then .help else .refused
  | name :: path =>
    match level.subcommand? name with
    | some level => level.help path
    | none => .refused

end Level

inductive Opt where
  | config
  | verbose
  | init
  | force
  | output
  | version
  | help
  deriving DecidableEq, Repr

namespace Opt

def takesValue : Opt → Bool
  | config => true
  | output => true
  | _ => false

def ofName? (level : Level) (name : String) : Option Opt :=
  match name, level with
  | "config", _ => some config
  | "verbose", _ => some verbose
  | "help", _ => some help
  | "init", .top => some init
  | "force", .top => some force
  | "version", .top => some version
  | "output", .render => some output
  | _, _ => none

def ofLetter? (level : Level) (letter : Char) : Option Opt :=
  match letter, level with
  | 'v', _ => some verbose
  | 'h', _ => some help
  | 'V', .top => some version
  | 'o', .render => some output
  | _, _ => none

end Opt

/-- What has been read so far. Values from the levels above are kept apart: on one level, nothing
may be given twice. -/
structure Scan where
  level : Level
  outerConfig : Option String
  config : Option String
  verbose : Bool
  init : Bool
  force : Bool
  page : Option String
  output : Option String
  deriving DecidableEq, Repr

namespace Scan

def start : Scan := ⟨.top, none, none, false, false, false, none, none⟩

def enter (s : Scan) (level : Level) : Scan :=
  { s with
    level := level
    outerConfig := s.config <|> s.outerConfig
    config := none
    verbose := false }

def flag (s : Scan) : Opt → Except Stop Scan
  | .version => .error .version
  | .help => .error .help
  | .verbose => if s.verbose then .error .refused else .ok { s with verbose := true }
  | .init => if s.init then .error .refused else .ok { s with init := true }
  | .force => if s.force then .error .refused else .ok { s with force := true }
  | _ => .error .refused

def value (s : Scan) (o : Opt) (v : String) : Except Stop Scan :=
  if v = "" then .error .refused
  else
    match o with
    | .config => if s.config.isSome then .error .refused else .ok { s with config := some v }
    | .output => if s.output.isSome then .error .refused else .ok { s with output := some v }
    | _ => .error .refused

def positional (s : Scan) (arg : String) : Except Stop Scan :=
  if s.level = .render ∧ s.page = none ∧ arg ≠ "" then .ok { s with page := some arg }
  else .error .refused

def word (s : Scan) (arg : String) : Except Stop Scan :=
  match s.level.subcommand? arg with
  | some level => .ok (s.enter level)
  | none => s.positional arg

def named (s : Scan) (arg : List Char) : Except Stop (Scan × Option Opt) :=
  let rest := arg.dropWhile (· ≠ '=')
  match Opt.ofName? s.level (String.ofList (arg.takeWhile (· ≠ '='))) with
  | none => .error .refused
  | some o =>
    match o.takesValue, rest with
    | true, [] => .ok (s, some o)
    | true, _ :: v => (s.value o (String.ofList v)).map fun s => (s, none)
    | false, [] => (s.flag o).map fun s => (s, none)
    | false, _ => .error .refused

/-- Options by their letters. The letters after one that takes a value are the value. -/
def lettered (s : Scan) : List Char → Except Stop (Scan × Option Opt)
  | [] => .ok (s, none)
  | c :: t =>
    match Opt.ofLetter? s.level c with
    | none => .error .refused
    | some o =>
      if o.takesValue then
        match t with
        | [] => .ok (s, some o)
        | '=' :: v => (s.value o (String.ofList v)).map fun s => (s, none)
        | v => (s.value o (String.ofList v)).map fun s => (s, none)
      else
        match s.flag o with
        | .ok s => lettered s t
        | .error stop => .error stop

def argument (s : Scan) (arg : String) : Except Stop (Scan × Option Opt) :=
  match arg.toList with
  | '-' :: '-' :: name => s.named name
  | '-' :: c :: letters => s.lettered (c :: letters)
  | _ => (s.word arg).map fun s => (s, none)

/-- Reads all arguments. What begins with a dash is no value of an option, a lone dash apart. After
`--` come positional arguments only. -/
def arguments (s : Scan) : List String → Except Stop Scan
  | [] => .ok s
  | arg :: rest =>
    if arg = "--" then rest.foldlM positional s
    else if arg = "help" ∧ s.level.offersHelp then .error (s.level.help rest)
    else
      match s.argument arg with
      | .error stop => .error stop
      | .ok (s, none) => arguments s rest
      | .ok (s, some o) =>
        match rest with
        | [] => .error .refused
        | v :: rest =>
          if v ≠ "-" ∧ v.toList.head? = some '-' then .error .refused
          else
            match s.value o v with
            | .ok s => arguments s rest
            | .error stop => .error stop

def action (s : Scan) : Except Stop (Option Action) :=
  match s.level with
  | .top =>
    if s.config.isSome || s.verbose || s.init || s.force then .ok none else .error .refused
  | .render =>
    match s.page with
    | some page => .ok (some (.render page s.output))
    | none => .error .refused
  | .staticPaths => .ok (some .staticPaths)
  | .config => .error .refused
  | .showConfig => .ok (some .showConfig)
  | .validateConfig => .ok (some .validateConfig)

end Scan

namespace Request

/-- To force is to force the making of a file, and is refused without that. -/
def ofArguments (args : List String) : Except Stop Request := do
  let s ← Scan.start.arguments args
  let action ← s.action
  if s.force ∧ ¬s.init then .error .refused
  else return ⟨s.config <|> s.outerConfig, s.init, s.force, action⟩

end Request

end AssetSlots.Command
