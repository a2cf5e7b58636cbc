import AssetSlots.Injector
import AssetSlots.Proofs.Disk.Entries
import AssetSlots.Proofs.Glob.Matching
import Mathlib.Data.List.Sort
import Mathlib.Data.String.Basic

namespace AssetSlots

variable {s : Sight} {l : Listing} {name : String}

section Sights

theorem Listing.mem_fileNames_iff : name ∈ l.fileNames ↔ ⟨name, true⟩ ∈ l.entries := by
  rw [fileNames, List.mem_map]
  constructor
  · rintro ⟨⟨name', isFile⟩, he, rfl⟩
    obtain ⟨he, rfl⟩ : ⟨name', isFile⟩ ∈ l.entries ∧ isFile = true := List.mem_filter.mp he
    exact he
  · exact fun he => ⟨⟨name, true⟩, List.mem_filter.mpr ⟨he, rfl⟩, rfl⟩

theorem Listing.mem_of_mem_ofEntries {es : List Entry} {e : Entry}
    (h : e ∈ (ofEntries es).entries) : e ∈ es := by
  induction es with
  | nil => exact h
  | cons e' es ih =>
      rw [ofEntries] at h
      split at h
      · exact List.mem_cons_of_mem e' (ih h)
      · rcases List.mem_cons.mp h with rfl | h
        · exact List.mem_cons_self
        · exact List.mem_cons_of_mem e' (ih h)

/-- No name is lost. -/
theorem Listing.exists_mem_ofEntries {es : List Entry} {e : Entry} (h : e ∈ es) :
    ∃ e' ∈ (ofEntries es).entries, e'.name = e.name := by
  induction es with
  | nil => cases h
  | cons e₀ es ih =>
      rw [ofEntries]
      rcases List.mem_cons.mp h with rfl | h
      · split
        · next hname => exact List.mem_map.mp hname
        · exact ⟨e, List.mem_cons_self, rfl⟩
      · obtain ⟨e', he', hname⟩ := ih h
        split
        · exact ⟨e', he', hname⟩
        · exact ⟨e', List.mem_cons_of_mem e₀ he', hname⟩

theorem Sight.mem_fileNames_iff :
    name ∈ s.fileNames ↔ ∃ l, s = .folder l ∧ ⟨name, true⟩ ∈ l.entries := by
  cases s with
  | folder l => simp [fileNames, Listing.mem_fileNames_iff]
  | _ => simp [fileNames]

theorem Sight.sorted_fileNames (s : Sight) : s.fileNames.Pairwise (· < ·) := by
  cases s with
  | folder l =>
      have hle : (l.fileNames.mergeSort fun a b => decide (a ≤ b)).Pairwise (· ≤ ·) :=
        List.pairwise_mergeSort' (· ≤ ·) l.fileNames
      have hne : (l.fileNames.mergeSort fun a b => decide (a ≤ b)).Pairwise (· ≠ ·) :=
        (List.mergeSort_perm _ _).nodup_iff.mpr l.nodup_fileNames
      exact hle.imp₂ (fun _ _ => lt_of_le_of_ne) hne
  | _ => exact .nil

end Sights

section Disks

variable {d : Disk} {cwd loc : Location} {dir : String}

def Disk.seen (d : Disk) (cwd : Location) (dir name : String) : Entry :=
  ⟨name, d.isFile cwd (PathText.join dir name)⟩

theorem view_eq_folder_iff : d.view cwd dir = .folder l ↔
    ∃ loc, d.Leads cwd dir (.folder loc) ∧
      l = .ofEntries ((d.names loc).map (d.seen cwd dir)) := by
  simp only [← Disk.resolve_look_eq_ok_iff]
  rcases hpath : d.resolve .look cwd dir with cause | loc | loc | loc
  case ok.folder =>
      have hview : d.view cwd dir = .folder (.ofEntries ((d.names loc).map (d.seen cwd dir))) := by
        simp only [Disk.view, hpath]
        rfl
      simp [hview, eq_comm]
  all_goals simp [Disk.view, hpath]

theorem mem_seen_iff :
    ⟨name, true⟩ ∈ (Listing.ofEntries ((d.names loc).map (d.seen cwd dir))).entries ↔
      name ∈ d.names loc ∧ d.isFile cwd (PathText.join dir name) = true := by
  constructor
  · intro h
    obtain ⟨name', hname, he⟩ := List.mem_map.mp (Listing.mem_of_mem_ofEntries h)
    obtain ⟨rfl, hfile⟩ := Entry.mk.inj he
    exact ⟨hname, hfile⟩
  · rintro ⟨hname, hfile⟩
    have hseen : d.seen cwd dir name ∈ (d.names loc).map (d.seen cwd dir) :=
      List.mem_map_of_mem hname
    obtain ⟨e, he, hsame⟩ := Listing.exists_mem_ofEntries hseen
    obtain ⟨name', -, rfl⟩ := List.mem_map.mp (Listing.mem_of_mem_ofEntries he)
    obtain rfl : name' = name := hsame
    rwa [Disk.seen, hfile] at he

theorem mem_fileNames_view_iff : name ∈ (d.view cwd dir).fileNames ↔ d.HasFile cwd dir name := by
  rw [Sight.mem_fileNames_iff]
  constructor
  · rintro ⟨l, hl, hmem⟩
    obtain ⟨loc, hdir, rfl⟩ := view_eq_folder_iff.mp hl
    obtain ⟨hname, hfile⟩ := mem_seen_iff.mp hmem
    obtain ⟨item, hat⟩ := Disk.mem_names_iff.mp hname
    exact ⟨⟨loc, item, hdir, hat⟩, Disk.isFile_iff.mp hfile⟩
  · rintro ⟨⟨loc, item, hdir, hat⟩, hfile⟩
    have hname : name ∈ d.names loc := Disk.mem_names_iff.mpr ⟨item, hat⟩
    exact ⟨_, view_eq_folder_iff.mpr ⟨loc, hdir, rfl⟩,
      mem_seen_iff.mpr ⟨hname, Disk.isFile_iff.mpr hfile⟩⟩

end Disks

section Matching

variable {view view' : View} {dir : String} {p : Glob.Pattern}

theorem mem_matchingFiles_iff :
    name ∈ matchingFiles view dir p ↔ name ∈ (view dir).fileNames ∧ p.Names name := by
  rw [matchingFiles, List.mem_filter, Glob.Pattern.accepts_iff]

theorem sorted_matchingFiles (view : View) (dir : String) (p : Glob.Pattern) :
    (matchingFiles view dir p).Pairwise (· < ·) :=
  (view dir).sorted_fileNames.filter _

/-- An ascending list is told by its members, so the order of the entries cannot show. -/
theorem matchingFiles_congr (h : ∀ name, name ∈ (view dir).fileNames ↔ name ∈ (view' dir).fileNames)
    (p : Glob.Pattern) : matchingFiles view dir p = matchingFiles view' dir p := by
  apply (sorted_matchingFiles view dir p).eq_of_mem_iff (sorted_matchingFiles view' dir p)
  intro name
  rw [mem_matchingFiles_iff, mem_matchingFiles_iff, h]

theorem matchingFiles_eq_nil (h : ∀ l, view dir ≠ .folder l) (p : Glob.Pattern) :
    matchingFiles view dir p = [] := by
  rw [List.eq_nil_iff_forall_not_mem]
  intro name hname
  obtain ⟨l, hl, -⟩ := Sight.mem_fileNames_iff.mp (mem_matchingFiles_iff.mp hname).1
  exact h l hl

theorem matchingFiles_of_perm {l l' : Listing} (h : l'.entries.Perm l.entries)
    (hview : view dir = .folder l) (hview' : view' dir = .folder l') (p : Glob.Pattern) :
    matchingFiles view' dir p = matchingFiles view dir p := by
  apply matchingFiles_congr
  intro name
  simp [hview, hview', Sight.mem_fileNames_iff, h.mem_iff]

end Matching

/-- The files taken are those of the folder, over links if need be, that the pattern describes: each
once and ascending, in whatever order the entries come. Nothing is taken where there is no folder to
be read. -/
theorem matchingFiles_exact (d : Disk) (cwd : Location) (dir : String) (p : Glob.Pattern) :
    (matchingFiles (d.view cwd) dir p).Pairwise (· < ·) ∧
    (∀ name, name ∈ matchingFiles (d.view cwd) dir p ↔ d.HasFile cwd dir name ∧ p.Names name) ∧
    (∀ loc name, d.Leads cwd dir (.folder loc) → Disk.EntryName name →
      (d.HasFile cwd dir name ↔ Disk.Usable (PathText.join dir name) ∧
        ∃ i j l f, i + j = Disk.linkLimit ∧
          Disk.Walks d .look i (Disk.origin cwd dir) (Disk.pieces dir) (.folder loc) ∧
          Disk.Walks d .look j loc [name] (.file l f)) ∧
      (d.HasFile cwd dir name → d.RefersToFile loc name) ∧
      ∀ f, d.at? (loc ++ [name]) = some (.file f) →
        Disk.Usable (PathText.join dir name) → d.HasFile cwd dir name) ∧
    (∀ view l l', d.view cwd dir = .folder l → view dir = .folder l' →
      l'.entries.Perm l.entries →
      matchingFiles view dir p = matchingFiles (d.view cwd) dir p) ∧
    ((∀ loc, ¬d.Leads cwd dir (.folder loc)) → matchingFiles (d.view cwd) dir p = []) ∧
    ∀ view, (∀ l, view dir ≠ .folder l) → matchingFiles view dir p = [] := by
  refine ⟨sorted_matchingFiles _ dir p, fun name => ?_, fun loc name hdir hname => ?_,
    fun view l l' hl hl' hperm => matchingFiles_of_perm hperm hl hl' p, fun hnone => ?_,
    fun view hfault => matchingFiles_eq_nil hfault p⟩
  · rw [mem_matchingFiles_iff, mem_fileNames_view_iff]
  · exact ⟨Disk.hasFile_iff hdir hname, Disk.HasFile.refersToFile hdir hname,
      fun f => Disk.hasFile_of_file hdir hname⟩
  · apply matchingFiles_eq_nil
    intro l hl
    obtain ⟨loc, hdir, -⟩ := view_eq_folder_iff.mp hl
    exact hnone loc hdir

def mixedFolder : Disk :=
  ⟨[(["js"], .folder), (["js", "b.js"], .file (.plain ⟨#[]⟩)), (["js", "a.js"], .link "b.js"),
    (["js", "gone.js"], .link "none"), (["js", "loop.js"], .link "loop.js"),
    (["js", "up.js"], .link "../js"), (["js", "lib.js"], .folder),
    (["js", "lib.js", "c.js"], .file (.plain ⟨#[]⟩)), (["js", ".d.js"], .file (.plain ⟨#[]⟩)),
    (["js", "E.JS"], .file (.plain ⟨#[]⟩))]⟩

def anyScript : Glob.Pattern := ⟨[.anyRun, .char '.', .char 'j', .char 's']⟩

/-- Of the links only the one to a file is taken, and `*` takes no dot at the start. -/
theorem matchingFiles_exact_mixed :
    "a.js" ∈ matchingFiles (mixedFolder.view []) "js" anyScript ∧
      mixedFolder.RefersToFile ["js"] "a.js" ∧
      (∀ name ∈ ["gone.js", "loop.js", "up.js", "lib.js", "E.JS", ".d.js"],
        name ∉ matchingFiles (mixedFolder.view []) "js" anyScript) ∧
      matchingFiles (mixedFolder.view []) "js/b.js" anyScript = [] := by
  obtain ⟨-, hmem, hentries, -⟩ := matchingFiles_exact mixedFolder [] "js" anyScript
  obtain ⟨-, -, -, -, hnothing, -⟩ := matchingFiles_exact mixedFolder [] "js/b.js" anyScript
  have hdir : mixedFolder.Leads [] "js" (.folder ["js"]) := Disk.resolve_look_eq_ok_iff.mp rfl
  have hname : Disk.EntryName "a.js" := ⟨by decide, by decide, by decide, nofun, by decide⟩
  have hfile : mixedFolder.HasFile [] "js" "a.js" :=
    ⟨⟨["js"], _, hdir, rfl⟩, Disk.isFile_iff.mp (by decide +kernel)⟩
  refine ⟨(hmem "a.js").mpr ⟨hfile, (Glob.Pattern.accepts_iff _ _).mp (by decide +kernel)⟩,
    (hentries _ _ hdir hname).2.1 hfile, fun name hin htaken => ?_, hnothing fun loc hfolder => ?_⟩
  · have hout : ∀ name ∈ ["gone.js", "loop.js", "up.js", "lib.js", "E.JS", ".d.js"],
        ¬(mixedFolder.isFile [] (PathText.join "js" name) ∧ anyScript.accepts name) := by
      decide +kernel
    obtain ⟨⟨-, hsome⟩, hnames⟩ := (hmem name).mp htaken
    exact hout name hin ⟨Disk.isFile_iff.mpr hsome, (Glob.Pattern.accepts_iff _ _).mpr hnames⟩
  · have hleads : mixedFolder.Leads [] "js/b.js" (.file ["js", "b.js"] (.plain ⟨#[]⟩)) :=
      Disk.resolve_look_eq_ok_iff.mp rfl
    cases hfolder.unique hleads

end AssetSlots
