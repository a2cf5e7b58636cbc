import AssetSlots.Proofs.Command.Effects
import AssetSlots.Proofs.Disk.Naming
import AssetSlots.Proofs.Injector.Origin
import Mathlib.Logic.Relation

namespace AssetSlots

/-- What happens to a disk, by the program or by others. Whoever works on it does so in a folder
that is there. -/
inductive Event : Disk → Disk → Prop
  | run {d : Disk} {cwd : Location} (hcwd : d.at? cwd = some .folder) (args : List String)
      (stdin : ByteArray) : Event d (Command.run d cwd args stdin).2
  | write {d d' : Disk} {cwd : Location} (hcwd : d.at? cwd = some .folder) {path : String}
      {bytes : ByteArray} (h : d.write cwd path bytes = .ok d') : Event d d'
  | makeFolders {d : Disk} {cwd : Location} (hcwd : d.at? cwd = some .folder) (path : String) :
      Event d (d.makeFolders cwd path)
  | link {d : Disk} {cwd : Location} (hcwd : d.at? cwd = some .folder) (path target : String) :
      Event d (d.link cwd path target)
  | remove {d : Disk} {cwd : Location} (hcwd : d.at? cwd = some .folder) (path : String) :
      Event d (d.remove cwd path)

def Disk.Reachable (d : Disk) : Prop := Relation.ReflTransGen Event .empty d

variable {d d' : Disk}

theorem Event.proper (h : Event d d') (hd : d.Proper) : d'.Proper := by
  cases h with
  | @run cwd hcwd args stdin =>
      rcases Command.run_writes d cwd args stdin with hsame | ⟨path, bytes, hwrite⟩
      · rwa [hsame]
      · exact hd.write (hd.slashless_of_at? hcwd) hwrite
  | write hcwd hwrite => exact hd.write (hd.slashless_of_at? hcwd) hwrite
  | makeFolders hcwd path => exact hd.makeFolders (hd.slashless_of_at? hcwd) path
  | link hcwd path target => exact hd.link (hd.slashless_of_at? hcwd) path target
  | remove _ path => exact hd.remove _ path

theorem Disk.Reachable.proper (h : d.Reachable) : d.Proper := by
  induction h with
  | refl => exact List.forall_mem_nil _
  | tail _ hlast ih => exact hlast.proper ih

/-- On every disk that can come about, a reference tells which file it is for. -/
theorem Disk.Reachable.origin?_render (hd : d.Reachable) {kind name : String} {rule : Rule}
    {i : Injector} (hi : Injector.ofRule kind rule = .ok i) (m : Mount) {cwd : Location}
    (hname : name ∈ matchingFiles (d.view cwd) m.source i.pattern) :
    origin? rule.template (i.template.render (m.serve ++ name)) = some (m.serve, name) := by
  obtain ⟨-, htemplate, -, -⟩ := Injector.ofRule_eq_ok_iff.mp hi
  exact AssetSlots.origin?_render htemplate m (hd.proper.notMem_of_mem_matchingFiles hname)

end AssetSlots
