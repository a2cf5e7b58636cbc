import AssetSlots.Proofs.Disk.Reading

namespace AssetSlots.Disk

variable {d : Disk} {purpose : Purpose} {cwd loc mid : Location} {path dir name : String}
  {place : Place} {ps qs : List String} {i j n m : Nat}

structure Leads (d : Disk) (cwd : Location) (path : String) (place : Place) : Prop where
  usable : Usable path
  walks : Walks d .look linkLimit (origin cwd path) (pieces path) place

theorem resolve_look_eq_ok_iff : d.resolve .look cwd path = .ok place ↔ d.Leads cwd path place :=
  resolve_eq_ok_iff.trans ⟨fun h => ⟨h.1, h.2⟩, fun h => ⟨h.usable, h.walks⟩⟩

theorem Leads.unique {place' : Place} (h : d.Leads cwd path place)
    (h' : d.Leads cwd path place') : place = place' := by
  rw [← resolve_look_eq_ok_iff] at h h'
  exact Except.ok.inj (h.symm.trans h')

theorem isFile_iff :
    d.isFile cwd path = true ↔ ∃ loc f, d.Leads cwd path (.file loc f) := by
  simp only [← resolve_look_eq_ok_iff]
  rcases hpath : d.resolve .look cwd path with cause | loc | loc | loc <;> simp [isFile, hpath]

theorem mem_names_iff : name ∈ d.names loc ↔ ∃ item, d.at? (loc ++ [name]) = some item := by
  have hkey (l : Location) :
      (if l.dropLast = loc then l.getLast? else none) = some name ↔ loc ++ [name] = l := by
    constructor
    · intro h
      split at h
      · next hloc =>
        obtain ⟨l', rfl⟩ := List.getLast?_eq_some_iff.mp h
        rw [← hloc, List.dropLast_concat]
      · cases h
    · rintro rfl
      rw [if_pos List.dropLast_concat, List.getLast?_concat]
  have hne : loc ++ [name] ≠ [] := by simp
  rw [names, List.mem_filterMap, at?, if_neg hne, ← Option.isSome_iff_exists,
    List.lookup_isSome_iff]
  simp only [hkey, beq_iff_eq]

section Ways

theorem Named.look {rest rest' : List String} (h : Named .look name rest) :
    Named .look name rest' :=
  ⟨h.ne_idle, h.ne_up, by simp, h.short⟩

theorem Walks.mono (h : Walks d purpose n loc ps place) (hn : n ≤ m) :
    Walks d purpose m loc ps place := by
  induction h generalizing m with
  | here => exact .here
  | stay hname _ ih => exact .stay hname (ih hn)
  | up _ ih => exact .up (ih hn)
  | down hname hat _ ih => exact .down hname hat (ih hn)
  | file hname hat => exact .file hname hat
  | link hname hat _ ih =>
      obtain ⟨m, rfl⟩ : ∃ k, m = k + 1 := ⟨m - 1, by omega⟩
      exact .link hname hat (ih (Nat.le_of_succ_le_succ hn))
  | vacant hname hat hrest => exact .vacant hname hat hrest

theorem Walks.append (h : Walks d .look i loc ps place) (hplace : place = .folder mid)
    {place' : Place} (h' : Walks d .look j mid qs place') :
    Walks d .look (i + j) loc (ps ++ qs) place' := by
  induction h with
  | here =>
      obtain rfl := Place.folder.inj hplace
      exact h'.mono (Nat.le_add_left _ _)
  | stay hname _ ih => exact .stay hname (ih hplace)
  | up _ ih => exact .up (ih hplace)
  | down hname hat _ ih => exact .down hname.look hat (ih hplace)
  | file => cases hplace
  | link hname hat _ ih =>
      have hnext := ih hplace
      rw [List.append_assoc] at hnext
      rw [Nat.add_right_comm]
      exact .link hname.look hat hnext
  | vacant => cases hplace

/-- The last step of a way is made from a folder. -/
theorem Walks.of_concat (h : Walks d .look n loc (ps ++ [name]) place)
    (hlast : name = "" → ∀ l, place ≠ .vacant l) :
    ∃ i j mid, i + j = n ∧ Walks d .look i loc ps (.folder mid) ∧
      Walks d .look j mid [name] place := by
  -- Before the first piece is passed, the way is the last step itself.
  have hstart {n : Nat} {loc : Location} {place : Place} {name' : String} {rest : List String}
      (hqs : [] ++ [name] = name' :: rest) (hway : Walks d .look n loc (name' :: rest) place) :
      ∃ i j mid, i + j = n ∧ Walks d .look i loc [] (.folder mid) ∧
        Walks d .look j mid [name] place := by
    obtain ⟨rfl, rfl⟩ := List.cons.inj hqs
    exact ⟨0, n, loc, Nat.zero_add n, .here, hway⟩
  generalize hqs : ps ++ [name] = qs at h
  induction h generalizing ps with
  | here => simp at hqs
  | stay hidle next ih =>
      cases ps with
      | nil => exact hstart hqs (.stay hidle next)
      | cons p ps =>
          obtain ⟨rfl, rfl⟩ := List.cons.inj hqs
          obtain ⟨i, j, mid, hij, hps, hname⟩ := ih hlast rfl
          exact ⟨i, j, mid, hij, .stay hidle hps, hname⟩
  | up next ih =>
      cases ps with
      | nil => exact hstart hqs (.up next)
      | cons p ps =>
          obtain ⟨rfl, rfl⟩ := List.cons.inj hqs
          obtain ⟨i, j, mid, hij, hps, hname⟩ := ih hlast rfl
          exact ⟨i, j, mid, hij, .up hps, hname⟩
  | down hnamed hat next ih =>
      cases ps with
      | nil => exact hstart hqs (.down hnamed hat next)
      | cons p ps =>
          obtain ⟨rfl, rfl⟩ := List.cons.inj hqs
          obtain ⟨i, j, mid, hij, hps, hname⟩ := ih hlast rfl
          exact ⟨i, j, mid, hij, .down hnamed.look hat hps, hname⟩
  | file hnamed hat =>
      cases ps with
      | nil => exact hstart hqs (.file hnamed hat)
      | cons p ps => simp at hqs
  | @link n loc x target rest place hnamed hat next ih =>
      cases ps with
      | nil => exact hstart hqs (.link hnamed hat next)
      | cons p ps =>
          obtain ⟨rfl, rfl⟩ := List.cons.inj hqs
          obtain ⟨i, j, mid, hij, hps, hname⟩ := ih hlast (List.append_assoc ..)
          exact ⟨i + 1, j, mid, by omega, .link hnamed.look hat hps, hname⟩
  | vacant hnamed hat hrest =>
      cases ps with
      | nil => exact hstart hqs (.vacant hnamed hat hrest)
      | cons p ps =>
          obtain ⟨rfl, rfl⟩ := List.cons.inj hqs
          have hempty : name = "" := by simpa using List.all_eq_true.mp hrest name (by simp)
          exact absurd rfl (hlast hempty _)

theorem walks_slash_iff :
    Walks d .look n loc (ps ++ [""]) (.folder mid) ↔ Walks d .look n loc ps (.folder mid) := by
  constructor
  · intro h
    obtain ⟨i, j, mid', hij, hps, hlast⟩ := h.of_concat nofun
    have hstay := hlast.walk_eq_ok
    rw [walk_eq, walkFrom_idle (.inl rfl), walkFrom] at hstay
    obtain rfl := Place.folder.inj (Except.ok.inj hstay)
    exact hps.mono (by omega)
  · exact fun h => h.append rfl (.stay (.inl rfl) (.here (n := 0)))

end Ways

section Joining

variable (hslash : '/' ∉ name.toList)
include hslash

theorem pieces_name : pieces name = [name] := by
  rw [pieces, Text.split_of_notMem hslash, List.map_singleton, String.ofList_toList]

/-- The pieces of a folder's path go before the name, but for the slash that may end them. -/
theorem pieces_join (hdir : dir ≠ "") : ∃ ps, pieces (PathText.join dir name) = ps ++ [name] ∧
    (pieces dir = ps ∨ pieces dir = ps ++ [""]) := by
  by_cases hend : dir.toList.getLast? = some '/'
  · obtain ⟨t, ht⟩ := List.getLast?_eq_some_iff.mp hend
    obtain rfl : dir = String.ofList t ++ "/" := by
      rw [← String.toList_inj, ht]
      simp
    refine ⟨pieces (String.ofList t), ?_, .inr ?_⟩
    · rw [PathText.join, if_pos (.inr hend), pieces_append_slash, pieces_name hslash]
    · have hempty : pieces "" = [""] := pieces_name (by simp)
      rw [← hempty, ← pieces_append_slash, String.append_empty]
  · refine ⟨pieces dir, ?_, .inl rfl⟩
    have hneither : ¬(dir.isEmpty = true ∨ dir.toList.getLast? = some '/') := by simp [hdir, hend]
    rw [PathText.join, if_neg hneither, pieces_append_slash, pieces_name hslash]

theorem leads_join_iff (hdir : Usable dir) (hne : name ≠ "") :
    d.Leads cwd (PathText.join dir name) place ↔ Usable (PathText.join dir name) ∧
      ∃ i j mid, i + j = linkLimit ∧
        Walks d .look i (origin cwd dir) (pieces dir) (.folder mid) ∧
        Walks d .look j mid [name] place := by
  obtain ⟨ps, hjoin, hps⟩ := pieces_join hslash hdir.ne_empty
  have horigin : origin cwd (PathText.join dir name) = origin cwd dir := by
    rw [PathText.join]
    split
    · exact origin_append hdir.ne_empty name cwd
    · rw [String.append_assoc]
      exact origin_append hdir.ne_empty _ cwd
  have hway {i : Nat} {mid : Location} : Walks d .look i (origin cwd dir) (pieces dir)
      (.folder mid) ↔ Walks d .look i (origin cwd dir) ps (.folder mid) := by
    rcases hps with hps | hps
    · rw [hps]
    · rw [hps, walks_slash_iff]
  constructor
  · rintro ⟨husable, hwalks⟩
    rw [hjoin, horigin] at hwalks
    obtain ⟨i, j, mid, hij, hfolder, hlast⟩ := hwalks.of_concat fun h => absurd h hne
    exact ⟨husable, i, j, mid, hij, hway.mpr hfolder, hlast⟩
  · rintro ⟨husable, i, j, mid, hij, hfolder, hlast⟩
    refine ⟨husable, ?_⟩
    rw [hjoin, horigin, ← hij]
    exact (hway.mp hfolder).append rfl hlast

end Joining

structure EntryName (name : String) : Prop where
  no_slash : '/' ∉ name.toList
  named : Named .look name []

theorem EntryName.ne_empty (h : EntryName name) : name ≠ "" := fun hempty =>
  h.named.ne_idle (.inl hempty)

inductive RefersToFile (d : Disk) (loc : Location) (name : String) : Prop
  | file {f : File} (hat : d.at? (loc ++ [name]) = some (.file f)) :
      RefersToFile d loc name
  | link {target : String} {n : Nat} {l : Location} {f : File}
      (hat : d.at? (loc ++ [name]) = some (.link target))
      (hway : Walks d .look n (origin loc target) (pieces target) (.file l f)) :
      RefersToFile d loc name

theorem refersToFile_of_walks {l : Location} {f : File} (hname : Named .look name [])
    (h : Walks d .look n loc [name] (.file l f)) : d.RefersToFile loc name := by
  generalize hps : [name] = ps at h
  cases h with
  | stay hidle =>
      obtain ⟨rfl, -⟩ := List.cons.inj hps
      exact absurd hidle hname.ne_idle
  | up => exact absurd (List.cons.inj hps).1 hname.ne_up
  | down _ _ next =>
      obtain ⟨rfl, rfl⟩ := List.cons.inj hps
      cases next
  | file _ hat =>
      obtain ⟨rfl, -⟩ := List.cons.inj hps
      exact .file hat
  | link _ hat next =>
      obtain ⟨rfl, rfl⟩ := List.cons.inj hps
      rw [List.append_nil] at next
      exact .link hat next

theorem RefersToFile.exists_at? (h : d.RefersToFile loc name) :
    ∃ item, d.at? (loc ++ [name]) = some item := by
  cases h with
  | file hat => exact ⟨_, hat⟩
  | link hat _ => exact ⟨_, hat⟩

/-- Under the name there is an entry in the folder that `dir` leads to, and its path leads on to a
regular file. -/
structure HasFile (d : Disk) (cwd : Location) (dir name : String) : Prop where
  entry : ∃ loc item, d.Leads cwd dir (.folder loc) ∧ d.at? (loc ++ [name]) = some item
  file : ∃ loc f, d.Leads cwd (PathText.join dir name) (.file loc f)

section Folders

variable (hdir : d.Leads cwd dir (.folder loc)) (hname : EntryName name)
include hdir hname

/-- The way to the folder and the step from it share the links that may be followed. -/
theorem hasFile_iff : d.HasFile cwd dir name ↔ Usable (PathText.join dir name) ∧
    ∃ i j l f, i + j = linkLimit ∧
      Walks d .look i (origin cwd dir) (pieces dir) (.folder loc) ∧
      Walks d .look j loc [name] (.file l f) := by
  constructor
  · rintro ⟨-, l, f, hfile⟩
    obtain ⟨husable, i, j, mid, hij, hfolder, hlast⟩ :=
      (leads_join_iff hname.no_slash hdir.usable hname.ne_empty).mp hfile
    have hmid : d.Leads cwd dir (.folder mid) := ⟨hdir.usable, hfolder.mono (by omega)⟩
    obtain rfl := Place.folder.inj (hdir.unique hmid)
    exact ⟨husable, i, j, l, f, hij, hfolder, hlast⟩
  · rintro ⟨husable, i, j, l, f, hij, hfolder, hlast⟩
    obtain ⟨item, hat⟩ := (refersToFile_of_walks hname.named hlast).exists_at?
    exact ⟨⟨loc, item, hdir, hat⟩, l, f,
      (leads_join_iff hname.no_slash hdir.usable hname.ne_empty).mpr
        ⟨husable, i, j, loc, hij, hfolder, hlast⟩⟩

/-- Links are followed: those that lead to a folder, nowhere or back to themselves are no files. -/
theorem HasFile.refersToFile (h : d.HasFile cwd dir name) : d.RefersToFile loc name := by
  obtain ⟨-, _, _, l, f, -, -, hlast⟩ := (hasFile_iff hdir hname).mp h
  exact refersToFile_of_walks hname.named hlast

theorem hasFile_of_file {f : File} (hat : d.at? (loc ++ [name]) = some (.file f))
    (husable : Usable (PathText.join dir name)) : d.HasFile cwd dir name :=
  (hasFile_iff hdir hname).mpr
    ⟨husable, linkLimit, 0, _, f, rfl, hdir.walks, .file hname.named hat⟩

end Folders

end AssetSlots.Disk
