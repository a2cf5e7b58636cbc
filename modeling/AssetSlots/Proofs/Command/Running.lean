import AssetSlots.Command.Run
import AssetSlots.Proofs.Command.Spelling

namespace AssetSlots.Command

def Setting.here (d : Disk) (cwd : Location) (stdin : ByteArray) : Setting :=
  ⟨d.view cwd, Disk.absolute cwd, stdin⟩

def Asks (args : List String) (config : Option String) (a : Action) : Prop :=
  Request.ofArguments args = .ok ⟨config, false, false, some a⟩

variable {d : Disk} {cwd : Location} {args : List String} {stdin : ByteArray}

theorem run_of_request {r : Request} (h : Request.ofArguments args = .ok r) :
    run d cwd args stdin = (Plan.ofRequest (.here d cwd stdin) r).perform d cwd := by
  rw [run, Plan.ofArguments, h]
  rfl

theorem run_of_stop {stop : Stop} (h : Request.ofArguments args = .error stop) :
    (run d cwd args stdin).2 = d := by
  rw [run, Plan.ofArguments, h]
  cases stop <;> rfl

theorem run_of_asks {config : Option String} {a : Action} (h : Asks args config a) :
    run d cwd args stdin = (Plan.ofAction (.here d cwd stdin) config a).perform d cwd :=
  run_of_request h

end AssetSlots.Command
