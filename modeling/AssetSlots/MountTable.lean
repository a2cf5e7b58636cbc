import AssetSlots.Error
import AssetSlots.KeyMap
import AssetSlots.Mount

namespace AssetSlots

inductive Declaration where
  | shared (path : String)
  | mapping (pairs : KeyMap String)
  deriving DecidableEq

namespace Declaration

def mount : Declaration → Except Nat Mount
  | shared path => .ok (.shared path)
  | mapping pairs =>
    match pairs.entries with
    | [(source, serve)] => .ok (.ofPaths source serve)
    | _ => .error pairs.size

end Declaration

structure MountTable where
  byKind : KeyMap (List Mount)
  deriving DecidableEq

namespace MountTable

def empty : MountTable := ⟨.empty⟩

def get (t : MountTable) (kind : String) : List Mount := (t.byKind.find? kind).getD []

def kinds (t : MountTable) : List String := t.byKind.keys

def mounts (t : MountTable) : List Mount := t.byKind.values.flatten

def isEmpty (t : MountTable) : Bool := t.byKind.values.all List.isEmpty

def staticPrefixes (t : MountTable) : List String :=
  ((t.mounts.filter Mount.isIdentical).map Mount.serve).foldl
    (fun seen p => if p ∈ seen then seen else seen ++ [p]) []

def register (t : MountTable) (kind : String) : MountTable := ⟨t.byKind.insert kind (t.get kind)⟩

def add (t : MountTable) (kind : String) (m : Mount) : MountTable :=
  ⟨t.byKind.insert kind (t.get kind ++ [m])⟩

theorem get_register (t : MountTable) (kind k : String) : (t.register kind).get k = t.get k := by
  by_cases h : k = kind <;> simp [get, register, KeyMap.find?_insert, h]

theorem get_add (t : MountTable) (kind : String) (m : Mount) (k : String) :
    (t.add kind m).get k = if k = kind then t.get kind ++ [m] else t.get k := by
  by_cases h : k = kind <;> simp [get, add, KeyMap.find?_insert, h]

/-- Work on a table, which is left as far as it has got if the work fails. -/
abbrev Step (α : Type) : Type := ExceptT Error (StateM MountTable) α

namespace Step

def register (kind : String) : Step Unit := modify (·.register kind)

def add (kind : String) (m : Mount) : Step Unit := modify (·.add kind m)

def declare (kind : String) (d : Declaration) : Step Unit :=
  match d.mount with
  | .ok m => add kind m
  | .error count => throw (.declaration kind count)

def declareAll (kind : String) (list : List Declaration) : Step Unit := do
  register kind
  list.forM (declare kind)

def result (s : Step Unit) (t : MountTable) : Except Error MountTable :=
  match s.run.run t with
  | (.ok (), t') => .ok t'
  | (.error e, _) => .error e

def left (s : Step Unit) (t : MountTable) : MountTable := (s.run.run t).2

end Step

def declare (t : MountTable) (kind : String) (d : Declaration) : Except Error MountTable :=
  (Step.declare kind d).result t

def ofDeclarations (ds : KeyMap (List Declaration)) : Except Error MountTable :=
  (ds.entries.forM fun (kind, list) => Step.declareAll kind list).result empty

end MountTable

end AssetSlots
