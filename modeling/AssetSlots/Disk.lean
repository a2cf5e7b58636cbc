import AssetSlots.PathText
import AssetSlots.View

namespace AssetSlots

abbrev Location := List String

/-- The system may keep the program from reading a file, or from writing over it. -/
structure File where
  bytes : ByteArray
  readable : Bool
  writable : Bool

namespace File

def plain (bytes : ByteArray) : File := ⟨bytes, true, true⟩

def read (f : File) : Except Fault ByteArray := if f.readable then .ok f.bytes else .error .denied

end File

inductive Item where
  | file (file : File)
  | folder
  | link (target : String)

structure Disk where
  items : List (Location × Item)

inductive Place where
  | file (loc : Location) (file : File)
  | folder (loc : Location)
  | vacant (loc : Location)

def Place.written (place : Place) (bytes : ByteArray) : Except Fault (Location × File) :=
  match place with
  | file loc f => if f.writable then .ok (loc, { f with bytes := bytes }) else .error .denied
  | vacant loc => .ok (loc, .plain bytes)
  | folder _ => .error .isDirectory

/-- What a path is followed for. To create a file under a free name is only possible if the path
does not end in a slash. -/
inductive Purpose where
  | look
  | create
  deriving DecidableEq, Repr

namespace Disk

def empty : Disk := ⟨[]⟩

def at? (d : Disk) (loc : Location) : Option Item :=
  if loc = [] then some .folder else d.items.lookup loc

def pieces (path : String) : List String := (Text.split '/' path.toList).map String.ofList

def nameLimit : Nat := 255

def pathLimit : Nat := 4096

def linkLimit : Nat := 40

/-- Walks from the folder `loc`. A link hands over to `follow`, with the folder it is relative to
and all pieces that are left. -/
def walkFrom (d : Disk) (purpose : Purpose)
    (follow : Location → List String → Except Fault Place) (loc : Location) :
    List String → Except Fault Place
  | [] => .ok (.folder loc)
  | name :: rest =>
    if name = "" ∨ name = "." then walkFrom d purpose follow loc rest
    else if name = ".." then walkFrom d purpose follow loc.dropLast rest
    else if purpose = .create ∧ rest ≠ [] ∧ rest.all String.isEmpty then .error .isDirectory
    else if nameLimit < name.utf8ByteSize then .error .nameTooLong
    else
      match d.at? (loc ++ [name]) with
      | some .folder => walkFrom d purpose follow (loc ++ [name]) rest
      | some (.file f) =>
        if rest = [] then .ok (.file (loc ++ [name]) f) else .error .notDirectory
      | some (.link target) =>
        follow (if target.toList.head? = some '/' then [] else loc) (pieces target ++ rest)
      | none => if rest.all String.isEmpty then .ok (.vacant (loc ++ [name])) else .error .notFound

def walk (d : Disk) (purpose : Purpose) : (links : Nat) → Location → List String →
    Except Fault Place
  | 0 => walkFrom d purpose fun _ _ => .error .linkLoop
  | links + 1 => walkFrom d purpose (walk d purpose links)

def resolve (d : Disk) (purpose : Purpose) (cwd : Location) (path : String) :
    Except Fault Place :=
  if path.toList.contains '\x00' then .error .nulInName
  else if path = "" then .error .notFound
  else if pathLimit ≤ path.utf8ByteSize then .error .nameTooLong
  else walk d purpose linkLimit (if path.toList.head? = some '/' then [] else cwd) (pieces path)

def isFile (d : Disk) (cwd : Location) (path : String) : Bool :=
  match d.resolve .look cwd path with
  | .ok (.file _ _) => true
  | _ => false

def names (d : Disk) (loc : Location) : List String :=
  d.items.filterMap fun e => if e.1.dropLast = loc then e.1.getLast? else none

def view (d : Disk) (cwd : Location) : View := fun path =>
  match d.resolve .look cwd path with
  | .ok (.file _ f) => .file f.read
  | .ok (.folder loc) =>
    .folder (.ofEntries ((d.names loc).map fun name =>
      ⟨name, d.isFile cwd (PathText.join path name)⟩))
  | .ok (.vacant _) => .fault .notFound
  | .error cause => .fault cause

def put (d : Disk) (loc : Location) (item : Item) : Disk :=
  ⟨(loc, item) :: d.items.filter fun e => e.1 ≠ loc⟩

theorem at?_put (d : Disk) {loc : Location} (hloc : loc ≠ []) (item : Item) (l : Location) :
    (d.put loc item).at? l = if l = loc then some item else d.at? l := by
  have skip (es : List (Location × Item)) (h : l ≠ loc) :
      (es.filter fun e => decide (e.1 ≠ loc)).lookup l = es.lookup l := by
    induction es with
    | nil => rfl
    | cons e es ih =>
        by_cases he : e.1 = loc
        · have hl : (l == e.1) = false := beq_eq_false_iff_ne.2 (he ▸ h)
          rw [List.filter_cons_of_neg (by simpa using he), ih, List.lookup_cons, hl]
        · rw [List.filter_cons_of_pos (by simpa using he), List.lookup_cons, List.lookup_cons, ih]
  by_cases h : l = loc
  · subst h
    simp [at?, put, hloc]
  · have hl : (l == loc) = false := beq_eq_false_iff_ne.2 h
    rw [if_neg h]
    simp only [at?, put, List.lookup_cons, hl, skip d.items h]

def write (d : Disk) (cwd : Location) (path : String) (bytes : ByteArray) : Except Fault Disk :=
  match d.resolve .create cwd path with
  | .ok place => (place.written bytes).map fun (loc, f) => d.put loc (.file f)
  | .error cause => .error cause

def makeFolders (d : Disk) (cwd : Location) (path : String) : Disk :=
  (PathText.ancestors path).foldr (fun p d =>
    match d.resolve .look cwd p with
    | .ok (.vacant loc) => d.put loc .folder
    | _ => d) d

def entry? (d : Disk) (cwd : Location) (path : String) : Option Location := do
  let name ← ((pieces path).filter fun p => p ≠ "" ∧ p ≠ ".").getLast?
  let dir ← (PathText.ancestors path)[1]?
  match d.resolve .look cwd (if dir = "" then "." else dir) with
  | .ok (.folder loc) => some (loc ++ [name])
  | _ => none

def link (d : Disk) (cwd : Location) (path target : String) : Disk :=
  match d.entry? cwd path with
  | some loc => d.put loc (.link target)
  | none => d

def remove (d : Disk) (cwd : Location) (path : String) : Disk :=
  match d.entry? cwd path with
  | some loc => ⟨d.items.filter fun e => !loc.isPrefixOf e.1⟩
  | none => d

end Disk

end AssetSlots
