import AssetSlots.Error

namespace AssetSlots.Command

structure Outcome where
  exit : Nat
  stdout : String
  stderr : String
  deriving DecidableEq, Repr

namespace Outcome

def success (stdout : String) : Outcome := ⟨0, stdout, ""⟩

end Outcome

structure Failure where
  context : String
  causes : List String
  deriving DecidableEq, Repr

namespace Failure

def ofError (context : String) (e : Error) : Failure := ⟨context, e.message :: e.cause.toList⟩

def ofFault (context : String) (cause : Fault) : Failure := ⟨context, [cause.message]⟩

def hang (first : String) (s : String) : String :=
  let blanks := '\n' :: List.replicate first.length ' '
  first ++ String.ofList (s.toList.flatMap fun c => if c = '\n' then blanks else [c])

def causeLines : List String → List String
  | [cause] => [hang "    " cause]
  | causes => causes.mapIdx fun i cause =>
    let number := toString i
    hang (String.ofList (List.replicate (5 - number.length) ' ') ++ number ++ ": ") cause

def report (f : Failure) : String :=
  "error: " ++ f.context ++ (if f.causes.isEmpty then "" else
    "\n\nCaused by:\n" ++ "\n".intercalate (causeLines f.causes)) ++ "\n"

def outcome (f : Failure) : Outcome := ⟨1, "", f.report⟩

end Failure

end AssetSlots.Command
