import AssetSlots.Command.Watch

namespace AssetSlots.Command

def systemError : IO.Error → Option (UInt32 × String)
  | .alreadyExists _ code text => some (code, text)
  | .otherError code text => some (code, text)
  | .resourceBusy code text => some (code, text)
  | .resourceVanished code text => some (code, text)
  | .unsupportedOperation code text => some (code, text)
  | .hardwareFault code text => some (code, text)
  | .unsatisfiedConstraints code text => some (code, text)
  | .illegalOperation code text => some (code, text)
  | .protocolError code text => some (code, text)
  | .timeExpired code text => some (code, text)
  | .interrupted _ code text => some (code, text)
  | .noFileOrDirectory _ code text => some (code, text)
  | .invalidArgument _ code text => some (code, text)
  | .permissionDenied _ code text => some (code, text)
  | .resourceExhausted _ code text => some (code, text)
  | .inappropriateType _ code text => some (code, text)
  | .noSuchThing _ code text => some (code, text)
  | .unexpectedEof => none
  | .userError _ => none

def faultOf (e : IO.Error) : Fault :=
  match systemError e with
  | some (2, _) => .notFound
  | some (13, _) => .denied
  | some (20, _) => .notDirectory
  | some (21, _) => .isDirectory
  | some (36, _) => .nameTooLong
  | some (40, _) => .linkLoop
  | some (code, text) => .other (text ++ " (os error " ++ toString code ++ ")")
  | none => .other (toString e)

def attempt {α : Type} (act : IO α) : IO (Except Fault α) := do
  try return .ok (← act)
  catch e => return .error (faultOf e)

/-- Links are followed. A folder that cannot be read shows no entries. -/
def look (path : String) : IO Sight := do
  if path.toList.contains '\x00' then return .fault .nulInName
  if path.isEmpty then return .fault .notFound
  let path := (← IO.currentDir) / path
  match ← attempt path.metadata with
  | .error cause => return .fault cause
  | .ok data =>
    if data.type == .dir then
      let found ← attempt path.readDir
      let entries ← (found.toOption.getD #[]).toList.mapM fun e => do
        let data ← attempt e.path.metadata
        return Entry.mk e.fileName ((data.map fun data => data.type == .file).toOption.getD false)
      return .folder (.ofEntries entries)
    else return .file (← attempt (IO.FS.withFile path .read fun h => h.readBinToEnd))

partial def readAll (input : IO.FS.Stream) (done : ByteArray) : IO ByteArray := do
  let more ← input.read 65536
  if more.isEmpty then return done else readAll input (done ++ more)

def tell (o : Outcome) : IO UInt32 := do
  IO.print o.stdout
  IO.eprint o.stderr
  return o.exit.toUInt32

def carryOut : Plan → IO UInt32
  | .finish o => tell o
  | .write path text done failed => do
    match ← attempt (IO.FS.writeFile path text) with
    | .ok () => tell done
    | .error cause => tell (failed cause)

def serve (r : Request) : IO UInt32 := do
  let cwd := toString (← IO.currentDir)
  let stdin ← if r.readsInput then readAll (← IO.getStdin) .empty else pure .empty
  carryOut (.ofRequest (← r.watch look cwd stdin) r)

end AssetSlots.Command

def main (args : List String) : IO UInt32 :=
  match AssetSlots.Command.Request.ofArguments args with
  | .ok r => AssetSlots.Command.serve r
  | .error stop => AssetSlots.Command.carryOut (.ofStop stop)
