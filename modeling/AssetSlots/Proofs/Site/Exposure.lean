import AssetSlots.Proofs.Command.Agreement
import AssetSlots.Proofs.Config.Nearest
import AssetSlots.Proofs.Mount.Identity
import AssetSlots.Proofs.RuleSet.Registration
import AssetSlots.Proofs.Site.Building

namespace AssetSlots

namespace MountTable

variable {t : MountTable} {p kind : String} {m : Mount}

/-- The mounts are read off kind by kind. -/
theorem mounts_eq_flatMap (t : MountTable) : t.mounts = t.kinds.flatMap t.get := by
  have hvalue : ∀ row ∈ t.byKind.entries, row.2 = t.get row.1 := fun _ hrow =>
    (get_of_mem hrow).symm
  rw [mounts, KeyMap.values, List.map_congr_left hvalue, kinds, KeyMap.keys, List.flatMap_map,
    List.flatMap_def]

theorem mem_mounts_iff : m ∈ t.mounts ↔ ∃ kind, m ∈ t.get kind := by
  rw [mounts_eq_flatMap, List.mem_flatMap]
  constructor
  · rintro ⟨kind, -, hm⟩
    exact ⟨kind, hm⟩
  · rintro ⟨kind, hm⟩
    by_cases hkind : kind ∈ t.kinds
    · exact ⟨kind, hkind, hm⟩
    · rw [get_of_notMem hkind] at hm
      cases hm

theorem staticPrefixes_eq_eraseDups (t : MountTable) :
    t.staticPrefixes = ((t.mounts.filter Mount.isIdentical).map Mount.serve).eraseDups :=
  Lists.foldl_firsts _

theorem mem_staticPrefixes_iff :
    p ∈ t.staticPrefixes ↔ ∃ kind, ∃ m ∈ t.get kind, m.serve = p ∧ m.isIdentical = true := by
  rw [staticPrefixes_eq_eraseDups, List.mem_eraseDups, List.mem_map]
  constructor
  · rintro ⟨m, hm, rfl⟩
    obtain ⟨hm, hsame⟩ := List.mem_filter.mp hm
    obtain ⟨kind, hkind⟩ := mem_mounts_iff.mp hm
    exact ⟨kind, m, hkind, rfl, hsame⟩
  · rintro ⟨kind, m, hm, rfl, hsame⟩
    exact ⟨m, List.mem_filter.mpr ⟨mem_mounts_iff.mpr ⟨kind, hm⟩, hsame⟩, rfl⟩

theorem nodup_staticPrefixes (t : MountTable) : t.staticPrefixes.Nodup := by
  rw [staticPrefixes_eq_eraseDups]
  exact Lists.nodup_eraseDups _

/-- What a list of prefixes says of a table: which of its mounts are served from their own path. -/
structure Exposes (t : MountTable) (prefixes : List String) : Prop where
  nodup : prefixes.Nodup
  mem_iff : ∀ p, p ∈ prefixes ↔ ∃ kind, ∃ m ∈ t.get kind, m.serve = p ∧ m.isIdentical = true
  ascending : t.kinds.Pairwise (· < ·)
  firsts : prefixes =
    (((t.kinds.flatMap t.get).filter Mount.isIdentical).map Mount.serve).eraseDups
  read_under : ∀ p ∈ prefixes, ∃ kind, ∃ m ∈ t.get kind, m.serve = p ∧
    (m.source = p ∨ "/" ++ m.source = p)
  directly_below : ∀ kind, ∀ m ∈ t.get kind, m.isIdentical = true →
    ∀ (i : Injector) (view : View), (∀ name ∈ (view m.source).fileNames, '/' ∉ name.toList) →
      ∀ r ∈ i.references view m.source m.serve, ∃ p ∈ prefixes, ∃ name : String,
        '/' ∉ name.toList ∧ r = i.template.render (p ++ name)

theorem exposes_staticPrefixes (t : MountTable) : t.Exposes t.staticPrefixes where
  nodup := nodup_staticPrefixes t
  mem_iff _ := mem_staticPrefixes_iff
  ascending := t.byKind.sorted_keys
  firsts := by rw [staticPrefixes_eq_eraseDups, mounts_eq_flatMap]
  read_under p hp := by
    obtain ⟨kind, m, hm, rfl, hsame⟩ := mem_staticPrefixes_iff.mp hp
    exact ⟨kind, m, hm, rfl, (Mount.isIdentical_iff.mp hsame).imp_right And.left⟩
  directly_below kind m hm hsame i view hnames r hr := by
    obtain ⟨name, hname, rfl⟩ := List.mem_map.mp hr
    exact ⟨m.serve, mem_staticPrefixes_iff.mpr ⟨kind, m, hm, rfl, hsame⟩, name,
      hnames name (List.mem_filter.mp hname).1, rfl⟩

end MountTable

namespace Command

variable {d : Disk} {cwd : Location} {config : Option String} {args : List String}
  {stdin : ByteArray} {s : Settings} {site : Site} {m : Mount}

def marked (m : Mount) : Bool := " (static)".toList.isSuffixOf (Plan.mountLine m).toList

/-- A serve prefix ends with a `/`, so nothing but the mark can be taken for one. -/
theorem marked_iff : marked m = true ↔ m.isIdentical = true := by
  rw [marked, List.isSuffixOf_iff_suffix, Plan.mountLine]
  cases hsame : m.isIdentical with
  | true =>
      rw [if_pos rfl, String.toList_append]
      exact iff_of_true (List.suffix_append _ _) rfl
  | false =>
      have hline : ("    " ++ m.source ++ " -> " ++ m.serve ++ "").toList.getLast? = some '/' := by
        rw [String.append_empty, String.toList_append, List.getLast?_append, m.getLast?_serve]
        rfl
      rw [if_neg Bool.false_ne_true]
      refine iff_of_false (fun ⟨front, hmark⟩ => ?_) Bool.false_ne_true
      rw [← hmark, List.getLast?_append] at hline
      cases hline

/-- The mounts are shown in the order of the table, whatever is shown around them. -/
theorem mountLines_sublist (s : Settings) :
    (s.table.mounts.map Plan.mountLine).Sublist (Plan.settingsLines s) := by
  rw [Plan.settingsLines]
  apply List.sublist_append_of_sublist_right
  split
  · next hempty =>
    have hnone : s.table.mounts = [] := by
      rw [MountTable.isEmpty, List.all_eq_true] at hempty
      rw [MountTable.mounts, List.flatten_eq_nil_iff]
      exact fun mounts hmounts => List.isEmpty_iff.mp (hempty mounts hmounts)
    rw [hnone]
    exact List.nil_sublist _
  · apply List.sublist_append_of_sublist_right
    rw [MountTable.mounts, KeyMap.values, List.map_flatten, List.map_map, ← List.flatMap_def]
    induction s.table.byKind.entries with
    | nil => exact .slnil
    | cons row rows ih =>
        rw [List.flatMap_cons, List.flatMap_cons]
        apply List.Sublist.append _ ih
        exact (List.sublist_append_right _ _).trans (List.sublist_append_left _ _)

theorem show_prints
    (h : Settings.load (d.view cwd) (Disk.absolute cwd) config = .ok s)
    (hargs : Asks args config .showConfig) :
    run d cwd args stdin = (.success (lines (Plan.settingsLines s)), d) := by
  rw [run_of_asks hargs, Plan.ofAction, Plan.showConfig, settings_of_ok h]
  rfl

theorem static_prints (h : Accepted d cwd config s site) (hargs : Asks args config .staticPaths) :
    run d cwd args stdin = (.success (lines s.table.staticPrefixes), d) := by
  obtain ⟨p, -, -, rfl⟩ := Site.of_build h.build
  rw [run_of_asks hargs, Plan.ofAction, Plan.staticPaths, site_of_accepted h]
  rfl

/-- The static prefixes are those of the mounts that are served from their own path, each once and
in order. What is shown of the same configuration marks these mounts and no others. -/
theorem exposure_exact {shown static : List String} (hshow : Asks shown config .showConfig)
    (hstatic : Asks static config .staticPaths) (i j : ByteArray)
    (hexit : (run d cwd static j).1.exit = 0) :
    (∀ t : MountTable, t.Exposes t.staticPrefixes) ∧
    (∀ m : Mount, m.isIdentical = true ↔ m.source = m.serve ∨
      "/" ++ m.source = m.serve ∧ m.source.toList.head? ≠ some '/') ∧
    (∀ path, (Mount.shared path).isIdentical = true) ∧
    ∃ s, Settings.load (d.view cwd) (Disk.absolute cwd) config = .ok s ∧
      run d cwd shown i = (.success (lines (Plan.settingsLines s)), d) ∧
      (s.table.mounts.map Plan.mountLine).Sublist (Plan.settingsLines s) ∧
      run d cwd static j =
        (.success (lines ((s.table.mounts.filter marked).map Mount.serve).eraseDups), d) := by
  refine ⟨MountTable.exposes_staticPrefixes, fun _ => Mount.isIdentical_iff,
    Mount.isIdentical_shared, ?_⟩
  rcases accepted_or_refused d cwd config with ⟨s, site, hok⟩ | ⟨context, e, hbad⟩
  · have hmarked : s.table.mounts.filter marked = s.table.mounts.filter Mount.isIdentical :=
      List.filter_congr fun m _ => Bool.eq_iff_iff.mpr marked_iff
    refine ⟨s, hok.load, show_prints hok.load hshow, mountLines_sublist s, ?_⟩
    rw [static_prints hok hstatic, hmarked, MountTable.staticPrefixes_eq_eraseDups]
  · rw [static_of_refused hbad hstatic] at hexit
    cases hexit

def exposedText : String :=
  "[paths]\ncss = [\"/a\", \x7bb = \"c\"\x7d]\njavascript = [\"a\", \"d\"]\n"

theorem exposedText_reads : Toml.parse exposedText =
    some [("paths", .table [("css", .array [.text "/a", .table [("b", .text "c")]]),
      ("javascript", .array [.text "a", .text "d"])])] := by
  cbv

def exposedDisk : Disk := ⟨[(["a.toml"], .file (.plain exposedText.toUTF8))]⟩

def exposedTable : MountTable :=
  ⟨.ofList [("css", [.ofPaths "/a" "/a", .ofPaths "b" "c"]),
    ("javascript", [.ofPaths "a" "a", .ofPaths "d" "d"])]⟩

/-- Two of the mounts are served under one prefix, and one from another path. -/
theorem exposure_exact_repeated :
    exposedTable.Exposes ["/a/", "/d/"] ∧
      run exposedDisk [] ["--config", "a.toml", "static-paths"] ⟨#[]⟩ =
        (.success "/a/\n/d/\n", exposedDisk) ∧
      ∃ s, run exposedDisk [] ["--config", "a.toml", "config", "show"] ⟨#[]⟩ =
          (.success (lines (Plan.settingsLines s)), exposedDisk) ∧
        ["    /a/ -> /a/ (static)", "    b/ -> /c/", "    a/ -> /a/ (static)",
          "    d/ -> /d/ (static)"].Sublist (Plan.settingsLines s) := by
  have hread : exposedDisk.read [] "a.toml" = .ok exposedText.toUTF8 := by decide +kernel
  have hload : Settings.load (exposedDisk.view []) "/" (some "a.toml") =
      .ok ⟨.builtin, exposedTable, some "a.toml"⟩ := by
    rw [Settings.load_some, hread, Config.ofReading, Config.ofBytes_toUTF8, Config.parse,
      exposedText_reads]
    rfl
  have hshow : Asks ["--config", "a.toml", "config", "show"] (some "a.toml") .showConfig := by rfl
  have hstatic : Asks ["--config", "a.toml", "static-paths"] (some "a.toml") .staticPaths := by rfl
  have hok : ∃ site, Accepted exposedDisk [] (some "a.toml")
      ⟨.builtin, exposedTable, some "a.toml"⟩ site := ⟨_, hload, rfl⟩
  obtain ⟨site, hok⟩ := hok
  obtain ⟨hexposes, -, -, s, hs, hshown, hlines, hprinted⟩ :=
    exposure_exact hshow hstatic ⟨#[]⟩ ⟨#[]⟩ (static_of_accepted hok hstatic)
  obtain rfl := Except.ok.inj (hload.symm.trans hs)
  have hprefixes : exposedTable.staticPrefixes = ["/a/", "/d/"] := by decide +kernel
  have hmarked : lines ((exposedTable.mounts.filter marked).map Mount.serve).eraseDups =
      "/a/\n/d/\n" := by decide +kernel
  exact ⟨hprefixes ▸ hexposes exposedTable,
    hprinted.trans (congrArg (fun text => (Outcome.success text, exposedDisk)) hmarked), _,
    hshown, hlines⟩

end Command

end AssetSlots
