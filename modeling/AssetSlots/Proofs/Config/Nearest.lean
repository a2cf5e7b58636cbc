import AssetSlots.Config.Lookup
import AssetSlots.Proofs.Config.Resolution
import AssetSlots.Proofs.Disk.Reading
import AssetSlots.Proofs.PathText.Ancestors
import Mathlib

namespace AssetSlots

open PathText

namespace Config

variable {path text : String} {c : Config} {e : Error}

theorem parse_error (h : parse path text = .error e) : e = .configMalformed path ∨ IsMistake e := by
  unfold parse at h
  split at h
  · exact .inl (Except.error.inj h).symm
  · rcases Fallible.error_of_bind h with h | ⟨_, _, h⟩
    · exact .inr (validate_error h)
    · cases h

theorem validate_of_parse (h : parse path text = .ok c) : c.validate = .ok () := by
  unfold parse at h
  split at h
  · cases h
  · obtain ⟨_, hvalid, hc⟩ := Fallible.of_bind h
    obtain rfl := Except.ok.inj hc
    exact hvalid

def ofBytes (path : String) (bytes : ByteArray) : Except Error Config :=
  match String.fromUTF8? bytes with
  | some text => parse path text
  | none => .error (.configUnreadable path .notUtf8)

theorem ofBytes_toUTF8 (path text : String) : ofBytes path text.toUTF8 = parse path text := by
  rw [ofBytes, fromUTF8?_toUTF8]

theorem validate_of_ofBytes {bytes : ByteArray} (h : ofBytes path bytes = .ok c) :
    c.validate = .ok () := by
  unfold ofBytes at h
  split at h
  · exact validate_of_parse h
  · cases h

theorem ofBytes_ne_notFound {bytes : ByteArray} {q : String} :
    ofBytes path bytes ≠ .error (.configNotFound q) := by
  intro h
  unfold ofBytes at h
  split at h
  · rcases parse_error h with hq | hq <;> cases hq
  · cases h

def ofReading (path : String) : Except Fault ByteArray → Except Error Config
  | .ok bytes => ofBytes path bytes
  | .error .notFound => .error (.configNotFound path)
  | .error cause => .error (.configUnreadable path cause)

theorem validate_of_ofReading {content : Except Fault ByteArray}
    (h : ofReading path content = .ok c) : c.validate = .ok () := by
  unfold ofReading at h
  split at h
  · exact validate_of_ofBytes h
  · cases h
  · cases h

theorem ofReading_ne_notFound {content : Except Fault ByteArray} (h : content ≠ .error .notFound)
    {q : String} : ofReading path content ≠ .error (.configNotFound q) := by
  intro hq
  unfold ofReading at hq
  split at hq
  · exact ofBytes_ne_notFound hq
  · exact h rfl
  · cases hq

theorem ofReading_error {cause : Fault} (h : cause ≠ .notFound) :
    ofReading path (.error cause) = .error (.configUnreadable path cause) := by
  cases cause <;> first | rfl | exact absurd rfl h

variable {d d' : Disk} {cwd cwd' : Location} {start : String}
  {content : Except Fault ByteArray}

theorem ofFile_view (d : Disk) (cwd : Location) (path : String) :
    ofFile (d.view cwd) path = ofReading path (d.read cwd path) := by
  rw [ofFile, Disk.text_view]
  rcases d.read cwd path with cause | bytes
  · cases cause <;> rfl
  · have htext : (.ok bytes >>= decode : Except Fault String) = decode bytes := rfl
    rw [ofReading, ofBytes, htext, decode]
    cases String.fromUTF8? bytes <;> rfl

/-- The first of the directories, going up from `start`, that has a configuration file, whether that
can be read or not. -/
structure Nearest (d : Disk) (cwd : Location) (start path : String)
    (content : Except Fault ByteArray) : Prop where
  file_eq : ∃ f, d.file? cwd path = some f ∧ f.read = content
  first : ∃ before dir after, ancestors start = before ++ dir :: after ∧ path = join dir fileName ∧
    ∀ lower ∈ before, d.file? cwd (join lower fileName) = none

def NoneFound (d : Disk) (cwd : Location) (start : String) : Prop :=
  ∀ dir ∈ ancestors start, d.file? cwd (join dir fileName) = none

theorem Nearest.read_eq (h : Nearest d cwd start path content) : d.read cwd path = content := by
  obtain ⟨f, hf, hcontent⟩ := h.file_eq
  rw [Disk.read_of_file? hf, hcontent]

theorem Nearest.ne_notFound (h : Nearest d cwd start path content) :
    content ≠ .error .notFound := by
  obtain ⟨f, -, rfl⟩ := h.file_eq
  exact f.read_ne_notFound

theorem find?_eq_none_iff :
    (candidates start).find? (fun p => (d.view cwd p).isFile) = none ↔ NoneFound d cwd start := by
  simp only [candidates, NoneFound, List.find?_eq_none, List.forall_mem_map, Disk.isFile_view,
    Option.not_isSome_iff_eq_none]

theorem find?_eq_some_iff :
    (candidates start).find? (fun p => (d.view cwd p).isFile) = some path ↔
      ∃ content, Nearest d cwd start path content := by
  rw [candidates, List.find?_map, Option.map_eq_some_iff]
  simp only [List.find?_eq_some_iff_append, Function.comp_apply, Bool.not_eq_true',
    Disk.isFile_view, Option.isSome_eq_false_iff, Option.isNone_iff_eq_none]
  constructor
  · rintro ⟨dir, ⟨hsome, before, after, hancestors, hbefore⟩, rfl⟩
    obtain ⟨f, hf⟩ := Option.isSome_iff_exists.mp hsome
    exact ⟨f.read, ⟨f, hf, rfl⟩, before, dir, after, hancestors, rfl, hbefore⟩
  · rintro ⟨content, ⟨f, hf, -⟩, before, dir, after, hancestors, rfl, hbefore⟩
    exact ⟨dir, ⟨Option.isSome_of_eq_some hf, before, after, hancestors, hbefore⟩, rfl⟩

theorem nearest_or_none (d : Disk) (cwd : Location) (start : String) :
    (∃ path content, Nearest d cwd start path content) ∨ NoneFound d cwd start := by
  by_cases h : NoneFound d cwd start
  · exact .inr h
  · rw [← find?_eq_none_iff, ← ne_eq, Option.ne_none_iff_exists'] at h
    obtain ⟨path, hpath⟩ := h
    obtain ⟨content, hnearest⟩ := find?_eq_some_iff.mp hpath
    exact .inl ⟨path, content, hnearest⟩

theorem discover_of_nearest (h : Nearest d cwd start path content) :
    discover (d.view cwd) start = (ofReading path content).map fun c => some (path, c) := by
  rw [discover, find?_eq_some_iff.mpr ⟨content, h⟩]
  simp only [ofFile_view, h.read_eq]
  cases ofReading path content <;> rfl

theorem discover_of_none (h : NoneFound d cwd start) : discover (d.view cwd) start = .ok none := by
  rw [discover, find?_eq_none_iff.mpr h]

theorem discover_ne_notFound (d : Disk) (cwd : Location) (start q : String) :
    discover (d.view cwd) start ≠ .error (.configNotFound q) := by
  intro h
  rcases nearest_or_none d cwd start with ⟨path, content, hnearest⟩ | hnone
  · rw [discover_of_nearest hnearest] at h
    exact ofReading_ne_notFound hnearest.ne_notFound (Fallible.error_of_map h)
  · rw [discover_of_none hnone] at h
    cases h

theorem validate_of_discover (h : discover (d.view cwd) start = .ok (some (path, c))) :
    c.validate = .ok () := by
  rcases nearest_or_none d cwd start with ⟨path', content, hnearest⟩ | hnone
  · rw [discover_of_nearest hnearest] at h
    obtain ⟨c', hc, heq⟩ := Fallible.of_map h
    cases heq
    exact validate_of_ofReading hc
  · rw [discover_of_none hnone] at h
    cases h

/-- The search depends on nothing but the nearest file. -/
theorem discover_congr
    (h : ∀ path content, Nearest d cwd start path content ↔ Nearest d' cwd' start path content) :
    discover (d.view cwd) start = discover (d'.view cwd') start := by
  rcases nearest_or_none d cwd start with ⟨path, content, hnearest⟩ | hnone
  · rw [discover_of_nearest hnearest, discover_of_nearest ((h path content).mp hnearest)]
  · -- A file that is found on the second disk only would be the nearest on the first one too.
    rcases nearest_or_none d' cwd' start with ⟨path, content, hnearest⟩ | hnone'
    · obtain ⟨f, hfile, -⟩ := ((h path content).mpr hnearest).file_eq
      obtain ⟨before, dir, after, hancestors, rfl, _⟩ := hnearest.first
      rw [hnone dir (by simp [hancestors])] at hfile
      cases hfile
    · rw [discover_of_none hnone, discover_of_none hnone']

def Agree (d : Disk) (cwd : Location) (d' : Disk) (cwd' : Location) (start : String) : Prop :=
  ∀ dir ∈ ancestors start, (d.file? cwd (join dir fileName)).map File.read =
    (d'.file? cwd' (join dir fileName)).map File.read

theorem Nearest.of_agree (h : Agree d cwd d' cwd' start) (hd : Nearest d cwd start path content) :
    Nearest d' cwd' start path content := by
  obtain ⟨⟨f, hf, hcontent⟩, before, dir, after, hancestors, rfl, hbefore⟩ := hd
  have hdir := h dir (by simp [hancestors])
  rw [hf, Option.map_some, hcontent, eq_comm, Option.map_eq_some_iff] at hdir
  refine ⟨hdir, before, dir, after, hancestors, rfl, ?_⟩
  intro lower hlower
  have hnone := h lower (by simp [hancestors, hlower])
  rw [hbefore lower hlower, Option.map_none] at hnone
  exact Option.map_eq_none_iff.mp hnone.symm

theorem nearest_congr (h : Agree d cwd d' cwd' start) :
    Nearest d cwd start path content ↔ Nearest d' cwd' start path content :=
  ⟨.of_agree h, .of_agree fun dir hdir => (h dir hdir).symm⟩

end Config

namespace Settings

open Config

variable {d d' : Disk} {cwd cwd' : Location} {start path : String} {c : Config} {e : Error}
  {view : View}

theorem load_of_discover_error (h : discover view start = .error e) :
    load view start none = .error e := by
  rw [load, h]
  rfl

theorem load_of_discover_none (h : discover view start = .ok none) :
    load view start none = .ok ⟨.builtin, .empty, none⟩ := by
  rw [load, h]
  rfl

theorem load_of_discover_some (h : discover (d.view cwd) start = .ok (some (path, c))) :
    ∃ s, c.resolve (some path) = .ok s ∧ load (d.view cwd) start none = .ok s ∧
      s.source = some path := by
  obtain ⟨s, hs, hsource⟩ := exists_resolve_of_validate (validate_of_discover h) (some path)
  refine ⟨s, hs, ?_, hsource⟩
  rw [load, h]
  exact hs

theorem exists_load_none_iff : (∃ s, load (d.view cwd) start none = .ok s) ↔
    ∃ found, discover (d.view cwd) start = .ok found := by
  rcases h : discover (d.view cwd) start with e | _ | ⟨path, c⟩
  · simp [load_of_discover_error h]
  · simp [load_of_discover_none h]
  · obtain ⟨s, _, hload, _⟩ := load_of_discover_some h
    simp [hload]

theorem load_some (d : Disk) (cwd : Location) (start path : String) :
    load (d.view cwd) start (some path) =
      ofReading path (d.read cwd path) >>= fun c => c.resolve (some path) := by
  rw [load, ofFile_view]

theorem load_some_of_ofBytes {bytes : ByteArray} (hread : d.read cwd path = .ok bytes)
    (hc : ofBytes path bytes = .ok c) : ∃ s, c.resolve (some path) = .ok s ∧
      load (d.view cwd) start (some path) = .ok s ∧ s.source = some path := by
  obtain ⟨s, hs, hsource⟩ := exists_resolve_of_validate (validate_of_ofBytes hc) (some path)
  refine ⟨s, hs, ?_, hsource⟩
  rw [load_some, hread, ofReading, hc]
  exact hs

theorem load_some_of_fault {cause : Fault} (hread : d.read cwd path = .error cause) :
    load (d.view cwd) start (some path) = .error
      (if cause = .notFound then .configNotFound path else .configUnreadable path cause) := by
  rw [load_some, hread]
  split
  · next h =>
    subst h
    rfl
  · next h =>
    rw [ofReading_error h]
    rfl

/-- Where the settings for `start` come from: the nearest file, good or bad, or the file that is
asked for; nothing else on the disk has a part in it. -/
structure Provenance (d : Disk) (cwd : Location) (start : String) : Prop where
  start_first : (ancestors start).head? = some start
  upwards : (ancestors start).map components =
    ((components start).inits.drop (lowest (anchor start.toList))).reverse
  textual : ∀ dir ∈ ancestors start, dir.toList <+: start.toList
  found : ∀ path content, Nearest d cwd start path content →
    discover (d.view cwd) start = (ofReading path content).map fun c => some (path, c)
  missing : (∀ path content, ¬Nearest d cwd start path content) →
    discover (d.view cwd) start = .ok none
  ne_notFound : ∀ q, discover (d.view cwd) start ≠ .error (.configNotFound q)
  loads_iff : (∃ s, load (d.view cwd) start none = .ok s) ↔
    ∃ found, discover (d.view cwd) start = .ok found
  load_error : ∀ e, discover (d.view cwd) start = .error e →
    load (d.view cwd) start none = .error e
  load_found : ∀ path c, discover (d.view cwd) start = .ok (some (path, c)) → ∃ s,
    c.resolve (some path) = .ok s ∧ load (d.view cwd) start none = .ok s ∧ s.source = some path
  load_builtin : discover (d.view cwd) start = .ok none →
    load (d.view cwd) start none = .ok ⟨.builtin, .empty, none⟩
  asked_fault : ∀ path cause, d.read cwd path = .error cause →
    load (d.view cwd) start (some path) = .error
      (if cause = .notFound then .configNotFound path else .configUnreadable path cause)
  asked_folder : ∀ path loc, d.resolve .look cwd path = .ok (.folder loc) →
    load (d.view cwd) start (some path) = .error (.configUnreadable path .isDirectory)
  asked_below_file : ∀ path f name, d.file? cwd path = some f → ∃ cause,
    load (d.view cwd) start (some (path ++ "/" ++ name)) =
      .error (.configUnreadable (path ++ "/" ++ name) cause)
  asked_bad : ∀ path bytes e, d.read cwd path = .ok bytes → ofBytes path bytes = .error e →
    load (d.view cwd) start (some path) = .error e
  asked_good : ∀ path bytes c, d.read cwd path = .ok bytes → ofBytes path bytes = .ok c → ∃ s,
    c.resolve (some path) = .ok s ∧ load (d.view cwd) start (some path) = .ok s ∧
      s.source = some path
  nearest_alone : ∀ (d' : Disk) (cwd' : Location),
    (∀ path content, Nearest d cwd start path content ↔ Nearest d' cwd' start path content) →
    discover (d.view cwd) start = discover (d'.view cwd') start ∧
      load (d.view cwd) start none = load (d'.view cwd') start none
  nearest_agree : ∀ (d' : Disk) (cwd' : Location), Agree d cwd d' cwd' start →
    ∀ path content, Nearest d cwd start path content ↔ Nearest d' cwd' start path content
  asked_alone : ∀ (d' : Disk) (cwd' : Location) (start' path : String),
    d.read cwd path = d'.read cwd' path →
    load (d.view cwd) start (some path) = load (d'.view cwd') start' (some path)

/-- The nearest configuration file decides, and alone; one that is asked for decides without a
search. -/
theorem nearest_decides (d : Disk) (cwd : Location) (start : String) :
    Provenance d cwd start where
  start_first := rfl
  upwards := components_ancestors start
  textual _ := prefix_of_mem_ancestors
  found _ _ := discover_of_nearest
  missing hnone := by
    rcases nearest_or_none d cwd start with ⟨path, content, hnearest⟩ | hnone'
    · exact absurd hnearest (hnone path content)
    · exact discover_of_none hnone'
  ne_notFound := discover_ne_notFound d cwd start
  loads_iff := exists_load_none_iff
  load_error _ := load_of_discover_error
  load_found _ _ := load_of_discover_some
  load_builtin := load_of_discover_none
  asked_fault _ _ := load_some_of_fault
  asked_folder path loc hfolder := by
    have hread : d.read cwd path = .error .isDirectory := by simp only [Disk.read, hfolder]
    exact load_some_of_fault hread
  asked_below_file path f name hfile := by
    obtain ⟨cause, hbelow, hfound⟩ := Disk.read_below_file hfile name
    refine ⟨cause, ?_⟩
    rw [load_some_of_fault hbelow, if_neg hfound]
  asked_bad path bytes e hread he := by
    rw [load_some, hread, ofReading, he]
    rfl
  asked_good _ _ _ := load_some_of_ofBytes
  nearest_alone d' cwd' hnearest := by
    have hdiscover := discover_congr hnearest
    refine ⟨hdiscover, ?_⟩
    rw [load, load, hdiscover]
  nearest_agree _ _ hagree _ _ := nearest_congr hagree
  asked_alone d' cwd' start' path hread := by rw [load_some, load_some, hread]

def townText : String := "[paths]\ncss = [\"a\"]\n"

def townConfig : Config := ⟨.empty, .ofList [("css", [.shared "a"])]⟩

def townDisk : Disk :=
  ⟨[(["srv"], .folder), (["srv", "site"], .folder),
    (["srv", "site", ".scriptstacker.toml"], .folder),
    (["srv", ".scriptstacker.toml"], .link "conf/main.toml"), (["srv", "conf"], .folder),
    (["srv", "conf", "main.toml"], .file (.plain townText.toUTF8)), (["home"], .folder),
    (["home", ".scriptstacker.toml"], .file ⟨townText.toUTF8, false, true⟩),
    ([".scriptstacker.toml"], .file (.plain ⟨#[0xff]⟩)), (["srv", "loop"], .link "loop")]⟩

theorem townText_reads : Toml.parse townText =
    some [("paths", .table [("css", .array [.text "a"])])] := by
  cbv

theorem nearest_decides_town :
    discover (townDisk.view ["srv"]) "/srv/site/" =
        .ok (some ("/srv/.scriptstacker.toml", townConfig)) ∧
      (∃ s, load (townDisk.view ["srv"]) "/srv/site/" none = .ok s ∧
        s.source = some "/srv/.scriptstacker.toml") ∧
      discover (townDisk.view ["srv"]) "/home" =
        .error (.configUnreadable "/home/.scriptstacker.toml" .denied) ∧
      load (townDisk.view ["srv"]) "" (some "/.scriptstacker.toml") =
        .error (.configUnreadable "/.scriptstacker.toml" .notUtf8) ∧
      load (townDisk.view ["srv"]) "" (some "loop") =
        .error (.configUnreadable "loop" .linkLoop) ∧
      load (townDisk.view ["srv"]) "" (some "none") = .error (.configNotFound "none") ∧
      ∃ cause, load (townDisk.view ["srv"]) "" (some "conf/main.toml/none") =
        .error (.configUnreadable "conf/main.toml/none" cause) := by
  have hfolder : townDisk.file? ["srv"] "/srv/site/.scriptstacker.toml" = none := by rfl
  have hparse : ofBytes "/srv/.scriptstacker.toml" townText.toUTF8 = .ok townConfig := by
    rw [ofBytes_toUTF8, parse, townText_reads]
    rfl
  have hnearest : Nearest townDisk ["srv"] "/srv/site/" "/srv/.scriptstacker.toml"
      (.ok townText.toUTF8) := by
    refine ⟨⟨.plain townText.toUTF8, by rfl, by rfl⟩, ["/srv/site/"], "/srv", ["/"], by rfl,
      by rfl, ?_⟩
    intro lower hlower
    obtain rfl := List.mem_singleton.mp hlower
    exact hfolder
  have hdenied : Nearest townDisk ["srv"] "/home" "/home/.scriptstacker.toml" (.error .denied) :=
    ⟨⟨⟨townText.toUTF8, false, true⟩, by rfl, by rfl⟩, [], "/home", ["/"], by rfl, by rfl, nofun⟩
  have hsite := nearest_decides townDisk ["srv"] "/srv/site/"
  have hhome := nearest_decides townDisk ["srv"] "/home"
  have hhere := nearest_decides townDisk ["srv"] ""
  have hdiscover := hsite.found _ _ hnearest
  rw [ofReading, hparse] at hdiscover
  obtain ⟨s, _, hload, hsource⟩ := hsite.load_found _ _ hdiscover
  refine ⟨hdiscover, ⟨s, hload, hsource⟩, hhome.found _ _ hdenied, ?_, ?_, ?_, ?_⟩
  · exact hhere.asked_bad _ ⟨#[0xff]⟩ _ (by decide +kernel) (by decide +kernel)
  · exact hhere.asked_fault "loop" .linkLoop (by decide +kernel)
  · exact hhere.asked_fault "none" .notFound (by decide +kernel)
  · exact hhere.asked_below_file "conf/main.toml" (.plain townText.toUTF8) "none" (by rfl)

end Settings

end AssetSlots
