import AssetSlots.Toml.Value

namespace AssetSlots.Toml

/-- How a table came to be: by its own header, by the header of a table inside it, or by a dotted
key. -/
inductive Origin where
  | header
  | inner
  | dotted
  deriving DecidableEq, Repr

/-- What stands under a key. Values that are written out, arrays and inline tables among them, are
closed: nothing can be added to them. -/
inductive Node where
  | closed (v : Value)
  | table (origin : Origin) (entries : List (String × Node))
  /-- The tables of one double-bracketed header, in order. -/
  | tables (items : List (List (String × Node)))

abbrev Nodes := List (String × Node)

namespace Node

mutual

def value : Node → Value
  | closed v => v
  | table _ entries => .table (values entries)
  | tables items => .array (rows items)

def values : Nodes → Entries
  | [] => []
  | (k, n) :: entries => (k, n.value) :: values entries

def rows : List Nodes → List Value
  | [] => []
  | r :: items => .table (values r) :: rows items

end

end Node

namespace Nodes

def modify (k : String) (f : Option Node → Option Node) : Nodes → Option Nodes
  | [] => (f none).map fun n => [(k, n)]
  | (j, n) :: entries =>
    if j = k then (f (some n)).map fun n => (j, n) :: entries
    else (modify k f entries).map fun entries => (j, n) :: entries

def modifyLast (f : Nodes → Option Nodes) : List Nodes → Option (List Nodes)
  | [] => none
  | [t] => (f t).map fun t => [t]
  | t :: items => (modifyLast f items).map (t :: ·)

/-- Puts a value under a dotted key. `own` holds of a table that may be added to here: the one
whose body this is, and those that dotted keys in this body have made. Tables on the way may also
be ones that headers have only passed through, but then the key has to go deeper. -/
def put (own : Bool) (v : Value) : List String → Nodes → Option Nodes
  | [], _ => none
  | [k], entries =>
    if own then
      modify k (fun
        | none => some (.closed v)
        | some _ => none) entries
    else none
  | k :: path, entries =>
    modify k (fun
      | none => (put true v path []).map (.table .dotted)
      | some (.table .header _) => none
      | some (.table origin inner) => (put (origin = .dotted) v path inner).map (.table origin)
      | some (.tables items) => (modifyLast (put false v path) items).map .tables
      | some (.closed _) => none) entries

def fill (body : List (List String × Value)) (entries : Nodes) : Option Nodes :=
  body.foldlM (fun entries (path, v) => put true v path entries) entries

/-- Goes down the path of a header and changes what stands under its last key. Tables on the way
are made if need be; of a list of tables, the last is entered. -/
def descend (f : Option Node → Option Node) : List String → Nodes → Option Nodes
  | [], _ => none
  | [k], entries => modify k f entries
  | k :: path, entries =>
    modify k (fun
      | none => (descend f path []).map (.table .inner)
      | some (.table origin inner) => (descend f path inner).map (.table origin)
      | some (.tables items) => (modifyLast (descend f path) items).map .tables
      | some (.closed _) => none) entries

def openTable (body : List (List String × Value)) : Option Node → Option Node
  | none => (fill body []).map (.table .header)
  | some (.table .inner entries) => (fill body entries).map (.table .header)
  | some _ => none

def addTable (body : List (List String × Value)) : Option Node → Option Node
  | none => (fill body []).map fun t => .tables [t]
  | some (.tables items) => (fill body []).map fun t => .tables (items ++ [t])
  | some _ => none

end Nodes

end AssetSlots.Toml
