import AssetSlots.Proofs.Disk.Walking
import AssetSlots.Proofs.Text.Split

namespace AssetSlots

theorem fromUTF8?_toUTF8 (s : String) : String.fromUTF8? s.toUTF8 = some s :=
  dif_pos s.isValidUTF8

theorem decode_eq_ok_iff {bytes : ByteArray} {s : String} :
    decode bytes = .ok s ↔ bytes = s.toUTF8 := by
  constructor
  · intro h
    by_cases hbytes : bytes.IsValidUTF8
    · rw [decode, String.fromUTF8?, dif_pos hbytes] at h
      obtain rfl := Except.ok.inj h
      rfl
    · rw [decode, String.fromUTF8?, dif_neg hbytes] at h
      cases h
  · rintro rfl
    rw [decode, fromUTF8?_toUTF8]

theorem File.read_eq_ok_iff {f : File} {bytes : ByteArray} :
    f.read = .ok bytes ↔ f.readable ∧ f.bytes = bytes := by
  cases h : f.readable <;> simp [read, h]

theorem File.read_ne_notFound (f : File) : f.read ≠ .error .notFound := by
  cases h : f.readable <;> simp [read, h]

namespace Disk

def file? (d : Disk) (cwd : Location) (path : String) : Option File :=
  match d.resolve .look cwd path with
  | .ok (.file _ f) => some f
  | _ => none

def read (d : Disk) (cwd : Location) (path : String) : Except Fault ByteArray :=
  match d.resolve .look cwd path with
  | .ok (.file _ f) => f.read
  | .ok (.folder _) => .error .isDirectory
  | .ok (.vacant _) => .error .notFound
  | .error cause => .error cause

variable {d : Disk} {cwd : Location} {path : String} {bytes : ByteArray} {f : File}

theorem file?_eq_some_iff :
    d.file? cwd path = some f ↔ ∃ loc, d.resolve .look cwd path = .ok (.file loc f) := by
  rcases hpath : d.resolve .look cwd path with cause | loc | loc | loc <;> simp [file?, hpath]

theorem read_of_file? (h : d.file? cwd path = some f) : d.read cwd path = f.read := by
  obtain ⟨loc, hpath⟩ := file?_eq_some_iff.mp h
  rw [read, hpath]

theorem isFile_view (d : Disk) (cwd : Location) (path : String) :
    (d.view cwd path).isFile = (d.file? cwd path).isSome := by
  rcases hpath : d.resolve .look cwd path with cause | loc | loc | loc <;>
    simp [view, file?, hpath, Sight.isFile]

theorem content_view (d : Disk) (cwd : Location) (path : String) :
    (d.view cwd path).content = d.read cwd path := by
  rcases hpath : d.resolve .look cwd path with cause | loc | loc | loc <;>
    simp only [view, read, hpath] <;> rfl

theorem text_view (d : Disk) (cwd : Location) (path : String) :
    (d.view cwd path).text = d.read cwd path >>= decode := by
  rw [Sight.text, content_view]

theorem pieces_append_slash (path name : String) :
    pieces (path ++ "/" ++ name) = pieces path ++ pieces name := by
  have htext : (path ++ "/" ++ name).toList = path.toList ++ '/' :: name.toList := by simp
  rw [pieces, htext, Text.split_append, List.map_append]
  rfl

theorem origin_append {path : String} (hpath : path ≠ "") (rest : String) (cwd : Location) :
    origin cwd (path ++ rest) = origin cwd path := by
  have hne : path.toList ≠ [] := by simpa using hpath
  rw [origin, origin, String.toList_append, List.head?_append, Option.or_of_isSome]
  exact List.isSome_head?.mpr hne

/-- A file is no folder, whatever is looked for in it: that is a fault of its own, and not that
nothing is found. -/
theorem read_below_file (h : d.file? cwd path = some f) (name : String) :
    ∃ cause, d.read cwd (path ++ "/" ++ name) = .error cause ∧ cause ≠ .notFound := by
  obtain ⟨loc, hpath⟩ := file?_eq_some_iff.mp h
  obtain ⟨husable, hwalk⟩ := resolve_eq_ok_iff.mp hpath
  have hmore : pieces name ≠ [] := by
    rw [pieces, ne_eq, List.map_eq_nil_iff]
    exact Text.split_ne_nil '/' name.toList
  have hbelow := hwalk.append_of_file rfl hmore
  have hne : path ++ "/" ++ name ≠ "" := by
    intro hempty
    have hlength := congrArg String.length hempty
    simp at hlength
  rw [← pieces_append_slash, ← origin_append husable.ne_empty ("/" ++ name) cwd,
    ← String.append_assoc, origin] at hbelow
  have hresolve : ∃ cause, d.resolve .look cwd (path ++ "/" ++ name) = .error cause ∧
      cause ≠ .notFound := by
    rw [resolve, if_neg hne]
    split
    · exact ⟨_, rfl, by decide⟩
    · split
      · exact ⟨_, rfl, by decide⟩
      · exact ⟨_, hbelow, by decide⟩
  obtain ⟨cause, hcause, hfound⟩ := hresolve
  exact ⟨cause, by simp only [read, hcause], hfound⟩

end Disk

end AssetSlots
