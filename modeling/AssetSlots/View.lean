namespace AssetSlots

inductive Fault where
  | notFound
  | denied
  | isDirectory
  | notDirectory
  | linkLoop
  | nameTooLong
  | nulInName
  | notUtf8
  | other (text : String)
  deriving DecidableEq, Repr

namespace Fault

def message : Fault → String
  | notFound => "No such file or directory (os error 2)"
  | denied => "Permission denied (os error 13)"
  | isDirectory => "Is a directory (os error 21)"
  | notDirectory => "Not a directory (os error 20)"
  | linkLoop => "Too many levels of symbolic links (os error 40)"
  | nameTooLong => "File name too long (os error 36)"
  | nulInName => "file name contained an unexpected NUL byte"
  | notUtf8 => "stream did not contain valid UTF-8"
  | other text => text

end Fault

structure Entry where
  name : String
  isFile : Bool
  deriving DecidableEq, Repr

/-- The entries of a folder, in whatever order they were read; no name occurs twice. -/
structure Listing where
  entries : List Entry
  nodup : (entries.map Entry.name).Nodup

namespace Listing

def ofEntries : List Entry → Listing
  | [] => ⟨[], by simp⟩
  | e :: es =>
    let l := ofEntries es
    if h : e.name ∈ l.entries.map Entry.name then l
    else ⟨e :: l.entries, by simpa using ⟨by simpa using h, l.nodup⟩⟩

def fileNames (l : Listing) : List String := (l.entries.filter Entry.isFile).map Entry.name

theorem nodup_fileNames (l : Listing) : l.fileNames.Nodup :=
  l.nodup.sublist (List.filter_sublist.map _)

end Listing

/-- A regular file is seen also where it cannot be read. -/
inductive Sight where
  | file (content : Except Fault ByteArray)
  | folder (listing : Listing)
  | fault (cause : Fault)

def decode (bytes : ByteArray) : Except Fault String :=
  match String.fromUTF8? bytes with
  | some s => .ok s
  | none => .error .notUtf8

namespace Sight

def isFile : Sight → Bool
  | file _ => true
  | _ => false

def exists? : Sight → Bool
  | fault _ => false
  | _ => true

def content : Sight → Except Fault ByteArray
  | file content => content
  | folder _ => .error .isDirectory
  | fault cause => .error cause

def text (s : Sight) : Except Fault String := s.content >>= decode

def fileNames : Sight → List String
  | folder l => l.fileNames.mergeSort fun a b => decide (a ≤ b)
  | _ => []

end Sight

abbrev View := String → Sight

end AssetSlots
