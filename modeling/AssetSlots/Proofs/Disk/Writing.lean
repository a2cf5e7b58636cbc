import AssetSlots.Proofs.Disk.Reading
import AssetSlots.Proofs.Fallible

namespace AssetSlots.Disk

def Refers (d : Disk) (cwd : Location) (path : String) (loc : Location) : Prop :=
  ∃ place, d.resolve .look cwd path = .ok place ∧ place.target? = some loc

/-- What the path refers to holds `bytes`, and all else is as it was. Whether a file can be read and
written is not changed by writing it. -/
structure Rewrites (d : Disk) (cwd : Location) (path : String) (bytes : ByteArray)
    (d' : Disk) : Prop where
  at_target : ∃ loc f, d.Refers cwd path loc ∧ d'.at? loc = some (.file f) ∧ f.bytes = bytes ∧
    ∀ other, other ≠ loc → d'.at? other = d.at? other
  rewritten : ∀ f, d.file? cwd path = some f →
    f.writable ∧ d'.file? cwd path = some { f with bytes := bytes }
  fresh : d.file? cwd path = none → d'.file? cwd path = some (.plain bytes)
  read_eq : (∀ f, d.file? cwd path = some f → f.readable) → d'.read cwd path = .ok bytes

variable {d d' : Disk} {cwd loc : Location} {path : String} {bytes : ByteArray} {f : File}
  {place : Place}

theorem written_eq_ok_iff : place.written bytes = .ok (loc, f) ↔
    (∃ old, place = .file loc old ∧ old.writable ∧ f = { old with bytes := bytes }) ∨
      place = .vacant loc ∧ f = .plain bytes := by
  cases place with
  | file loc' old => grind [Place.written]
  | folder loc' => simp [Place.written]
  | vacant loc' => grind [Place.written]

theorem target?_of_written (h : place.written bytes = .ok (loc, f)) :
    place.target? = some loc ∧ f.bytes = bytes := by
  rcases written_eq_ok_iff.mp h with ⟨old, rfl, -, rfl⟩ | ⟨rfl, rfl⟩
  · exact ⟨rfl, rfl⟩
  · exact ⟨rfl, rfl⟩

theorem write_eq_ok_iff : d.write cwd path bytes = .ok d' ↔
    ∃ place loc f, d.resolve .create cwd path = .ok place ∧ place.written bytes = .ok (loc, f) ∧
      d' = d.put loc (.file f) := by
  constructor
  · intro h
    rw [write] at h
    cases hpath : d.resolve .create cwd path with
    | error cause =>
        rw [hpath] at h
        cases h
    | ok place =>
        rw [hpath] at h
        obtain ⟨⟨loc, f⟩, hplace, rfl⟩ := Fallible.of_map h
        exact ⟨place, loc, f, rfl, hplace, rfl⟩
  · rintro ⟨place, loc, f, hpath, hplace, rfl⟩
    simp only [write, hpath, hplace]
    rfl

theorem rewrites_of_write (h : d.write cwd path bytes = .ok d') : Rewrites d cwd path bytes d' := by
  obtain ⟨place, loc, f, hpath, hplace, rfl⟩ := write_eq_ok_iff.mp h
  obtain ⟨hloc, hbytes⟩ := target?_of_written hplace
  have hat := at?_put d (at?_of_resolve hpath hloc).1 (.file f)
  have hlook := resolve_look hpath
  have hfile : (d.put loc (.file f)).file? cwd path = some f :=
    file?_eq_some_iff.mpr ⟨loc, resolve_put hpath hloc f⟩
  have hover (old : File) (hold : d.file? cwd path = some old) :
      old.writable ∧ f = { old with bytes := bytes } := by
    obtain ⟨loc', hold⟩ := file?_eq_some_iff.mp hold
    obtain rfl := Except.ok.inj (hlook.symm.trans hold)
    rcases written_eq_ok_iff.mp hplace with ⟨old', heq, hwritable, rfl⟩ | ⟨heq, -⟩
    · obtain ⟨-, rfl⟩ := Place.file.inj heq
      exact ⟨hwritable, rfl⟩
    · cases heq
  have hfresh (hnone : d.file? cwd path = none) : f = .plain bytes := by
    rcases written_eq_ok_iff.mp hplace with ⟨old, rfl, -, -⟩ | ⟨-, hplain⟩
    · rw [file?_eq_some_iff.mpr ⟨loc, hlook⟩] at hnone
      cases hnone
    · exact hplain
  refine ⟨⟨loc, f, ⟨place, hlook, hloc⟩, ?_, hbytes, ?_⟩, ?_, ?_, ?_⟩
  · rw [hat, if_pos rfl]
  · intro other hother
    rw [hat, if_neg hother]
  · intro old hold
    obtain ⟨hwritable, rfl⟩ := hover old hold
    exact ⟨hwritable, hfile⟩
  · intro hnone
    rw [hfile, hfresh hnone]
  · intro hreadable
    rw [read_of_file? hfile, File.read_eq_ok_iff]
    refine ⟨?_, hbytes⟩
    cases hold : d.file? cwd path with
    | none => rw [hfresh hold]; rfl
    | some old =>
        rw [(hover old hold).2]
        exact hreadable old hold

/-- A file that is made where there was none takes no other one's place. -/
theorem write_keeps (hnew : (d.view cwd path).exists? = false)
    (h : d.write cwd path bytes = .ok d') {item : Item} (hitem : d.at? loc = some item) :
    d'.at? loc = some item := by
  obtain ⟨place, target, f, hpath, hplace, rfl⟩ := write_eq_ok_iff.mp h
  obtain ⟨htarget, -⟩ := target?_of_written hplace
  obtain ⟨hne, _, hvacant⟩ := at?_of_resolve hpath htarget
  have hfree : d.at? target = none := by
    have hlook := resolve_look hpath
    cases place with
    | file _ _ => simp [view, hlook, Sight.exists?] at hnew
    | folder _ => cases htarget
    | vacant free =>
        obtain rfl := Option.some.inj htarget
        exact hvacant rfl
  rw [at?_put d hne, if_neg, hitem]
  rintro rfl
  cases hfree.symm.trans hitem

end AssetSlots.Disk
