import AssetSlots.Toml.Statement

namespace AssetSlots.Toml

abbrev Body := List (List String × Value)

structure Part where
  path : List String
  isList : Bool
  body : Body

def parts : List Statement → Body × List Part
  | [] => ([], [])
  | s :: rest =>
    let (body, headed) := parts rest
    match s with
    | .assign path v => ((path, v) :: body, headed)
    | .header path => ([], ⟨path, false, body⟩ :: headed)
    | .listHeader path => ([], ⟨path, true, body⟩ :: headed)

namespace Part

def addTo (nodes : Nodes) (p : Part) : Option Nodes :=
  Nodes.descend (if p.isList then Nodes.addTable p.body else Nodes.openTable p.body) p.path nodes

end Part

def assemble (statements : List Statement) : Option Entries := do
  let (root, rest) := parts statements
  let nodes ← Nodes.fill root []
  let nodes ← rest.foldlM Part.addTo nodes
  return Node.values nodes

def withoutMark : List Char → List Char
  | '\uFEFF' :: t => t
  | t => t

def parse (text : String) : Option Entries := do
  let t := withoutMark text.toList
  assemble (← readStatements (t.length + 1) t)

end AssetSlots.Toml
