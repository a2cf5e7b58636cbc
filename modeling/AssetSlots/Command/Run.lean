import AssetSlots.Command.Plan
import AssetSlots.Disk

namespace AssetSlots

namespace Disk

def absolute (loc : Location) : String := "/" ++ "/".intercalate loc

end Disk

namespace Command

namespace Plan

def perform (p : Plan) (d : Disk) (cwd : Location) : Outcome × Disk :=
  match p with
  | finish o => (o, d)
  | write path text done failed =>
    match d.write cwd path text.toUTF8 with
    | .ok d => (done, d)
    | .error cause => (failed cause, d)

end Plan

def run (d : Disk) (cwd : Location) (args : List String) (stdin : ByteArray) : Outcome × Disk :=
  (Plan.ofArguments ⟨d.view cwd, Disk.absolute cwd, stdin⟩ args).perform d cwd

end Command

end AssetSlots
