import AssetSlots.Proofs.Disk.Entries
import AssetSlots.Proofs.Disk.Writing
import AssetSlots.Proofs.Text.Split

namespace AssetSlots

def Place.location : Place → Location
  | .file loc _ => loc
  | .folder loc => loc
  | .vacant loc => loc

theorem Place.location_of_target? {place : Place} {loc : Location} (h : place.target? = some loc) :
    place.location = loc := by
  cases place with
  | folder _ => cases h
  | file _ _ | vacant _ => exact Option.some.inj h

namespace Disk

def Slashless (names : List String) : Prop := ∀ name ∈ names, '/' ∉ name.toList

/-- No name on the disk holds a `/`, which is what parts the names of a path. -/
def Proper (d : Disk) : Prop := ∀ e ∈ d.items, ∀ name ∈ e.1, '/' ∉ name.toList

variable {d d' : Disk} {purpose : Purpose} {cwd loc : Location} {path name : String} {place : Place}

section Slashless

variable {ps qs : List String}

theorem slashless_nil : Slashless [] := List.forall_mem_nil _

theorem Slashless.append (hps : Slashless ps) (hqs : Slashless qs) : Slashless (ps ++ qs) :=
  List.forall_mem_append.mpr ⟨hps, hqs⟩

theorem Slashless.concat (hloc : Slashless loc) (hps : Slashless (name :: ps)) :
    Slashless (loc ++ [name]) :=
  hloc.append (List.forall_mem_singleton.mpr (hps name List.mem_cons_self))

theorem Slashless.tail (hps : Slashless (name :: ps)) : Slashless ps :=
  (List.forall_mem_cons.mp hps).2

theorem slashless_pieces (path : String) : Slashless (pieces path) := by
  intro name hname
  obtain ⟨piece, hpiece, rfl⟩ := List.mem_map.mp hname
  rw [String.toList_ofList]
  exact Text.notMem_of_mem_split hpiece

/-- All names on a way come from the path and from the targets of links. -/
theorem Walks.slashless {n : Nat} (h : Walks d purpose n loc ps place) (hloc : Slashless loc)
    (hps : Slashless ps) : Slashless place.location := by
  induction h with
  | here => exact hloc
  | stay _ _ ih => exact ih hloc hps.tail
  | up _ ih => exact ih (fun name hname => hloc name (List.dropLast_subset _ hname)) hps.tail
  | down _ _ _ ih => exact ih (hloc.concat hps) hps.tail
  | file | vacant => exact hloc.concat hps
  | link _ _ _ ih =>
      apply ih
      · split
        · exact slashless_nil
        · exact hloc
      · exact (slashless_pieces _).append hps.tail

theorem slashless_of_resolve (hcwd : Slashless cwd) (h : d.resolve purpose cwd path = .ok place) :
    Slashless place.location := by
  apply (resolve_eq_ok_iff.mp h).2.slashless
  · rw [origin]
    split
    · exact slashless_nil
    · exact hcwd
  · exact slashless_pieces path

theorem slashless_of_entry (hcwd : Slashless cwd) (h : d.entry? cwd path = some loc) :
    Slashless loc := by
  obtain ⟨name, hname, h⟩ := Option.bind_eq_some_iff.mp h
  obtain ⟨dir, -, h⟩ := Option.bind_eq_some_iff.mp h
  split at h
  · next folder hfolder =>
    obtain rfl := Option.some.inj h
    have hpiece := (List.mem_filter.mp (List.mem_of_getLast? hname)).1
    exact (slashless_of_resolve hcwd hfolder).append
      (List.forall_mem_singleton.mpr (slashless_pieces path name hpiece))
  · cases h

end Slashless

namespace Proper

theorem slashless_of_at? (hd : d.Proper) {item : Item} (h : d.at? loc = some item) :
    Slashless loc := by
  rw [at?] at h
  split at h
  · next hroot =>
    subst hroot
    exact slashless_nil
  · obtain ⟨before, after, hitems, -⟩ := List.lookup_eq_some_iff.mp h
    exact hd (loc, item) (hitems ▸ List.mem_append_right _ List.mem_cons_self)

theorem notMem_of_mem_names (hd : d.Proper) (h : name ∈ d.names loc) : '/' ∉ name.toList := by
  obtain ⟨item, hat⟩ := mem_names_iff.mp h
  exact hd.slashless_of_at? hat name (by simp)

theorem put (hd : d.Proper) (hloc : Slashless loc) (item : Item) : (d.put loc item).Proper := by
  intro e he
  rcases List.mem_cons.mp he with rfl | he
  · exact hloc
  · exact hd e (List.mem_filter.mp he).1

theorem write {bytes : ByteArray} (hd : d.Proper) (hcwd : Slashless cwd)
    (h : d.write cwd path bytes = .ok d') : d'.Proper := by
  obtain ⟨place, loc, f, hplace, hwritten, rfl⟩ := write_eq_ok_iff.mp h
  obtain ⟨htarget, -⟩ := target?_of_written hwritten
  have hloc : Slashless place.location := slashless_of_resolve hcwd hplace
  rw [Place.location_of_target? htarget] at hloc
  exact hd.put hloc (.file f)

theorem makeFolders (hd : d.Proper) (hcwd : Slashless cwd) (path : String) :
    (d.makeFolders cwd path).Proper := by
  rw [Disk.makeFolders]
  -- From the lowest folder upwards: the fold makes the one nearest to the root first.
  induction PathText.ancestors path with
  | nil => exact hd
  | cons p ps ih =>
      rw [List.foldr_cons]
      split
      · next loc hp => exact ih.put (slashless_of_resolve hcwd hp) _
      · exact ih

theorem link (hd : d.Proper) (hcwd : Slashless cwd) (path target : String) :
    (d.link cwd path target).Proper := by
  rw [Disk.link]
  split
  · next loc hloc => exact hd.put (slashless_of_entry hcwd hloc) _
  · exact hd

theorem remove (hd : d.Proper) (cwd : Location) (path : String) : (d.remove cwd path).Proper := by
  rw [Disk.remove]
  split
  · intro e he
    exact hd e (List.mem_filter.mp he).1
  · exact hd

end Proper

end Disk

end AssetSlots
