import AssetSlots.Pipeline
import AssetSlots.Proofs.KeyMap.Rows
import AssetSlots.Proofs.RuleSet.Registration
import Mathlib

namespace AssetSlots

namespace MountTable

def only (t : MountTable) (kinds : List String) : MountTable :=
  ⟨t.byKind.entries.filter fun e => decide (e.1 ∈ kinds), t.byKind.sorted.filter _⟩

variable {t : MountTable} {kind : String}

theorem nodup_kinds (t : MountTable) : t.kinds.Nodup := t.byKind.nodup_keys

theorem get_of_mem {e : String × List Mount} (h : e ∈ t.byKind.entries) : t.get e.1 = e.2 := by
  have hfind : t.byKind.find? e.1 = some e.2 := t.byKind.mem_entries_iff.mp h
  rw [get, hfind, Option.getD_some]

theorem get_of_notMem (h : kind ∉ t.kinds) : t.get kind = [] := by
  have hfind : t.byKind.find? kind = none := by
    rw [← Option.not_isSome_iff_eq_none, ← t.byKind.mem_keys_iff]
    exact h
  rw [get, hfind, Option.getD_none]

theorem mem_kinds_only {kinds : List String} :
    kind ∈ (t.only kinds).kinds ↔ kind ∈ t.kinds ∧ kind ∈ kinds := by
  simp [only, MountTable.kinds, KeyMap.keys]

theorem get_only {kinds : List String} (h : kind ∈ kinds) :
    (t.only kinds).get kind = t.get kind := by
  have hfind : (t.only kinds).byKind.find? kind = t.byKind.find? kind := by
    ext mounts
    rw [← KeyMap.mem_entries_iff, ← KeyMap.mem_entries_iff]
    simp [only, h]
  rw [get, get, hfind]

end MountTable

namespace RuleSet

def injector? (s : RuleSet) (kind : String) : Option Injector :=
  (s.find? kind).bind fun rule => (Injector.ofRule kind rule).toOption

def files (s : RuleSet) (view : View) (kind : String) (m : Mount) : List String :=
  match s.injector? kind with
  | some i => matchingFiles view m.source i.pattern
  | none => []

def references (s : RuleSet) (view : View) (kind : String) (m : Mount) : List String :=
  match s.injector? kind with
  | some i => i.references view m.source m.serve
  | none => []

theorem length_references (s : RuleSet) (view : View) (kind : String) (m : Mount) :
    (s.references view kind m).length = (s.files view kind m).length := by
  unfold references files
  cases s.injector? kind with
  | none => rfl
  | some i => exact List.length_map _

theorem injector?_of_mem {s : RuleSet} {e : String × Rule} {i : Injector} (h : e ∈ s.entries)
    (hi : Injector.ofRule e.1 e.2 = .ok i) : s.injector? e.1 = some i := by
  rw [injector?, mem_entries_iff.mp h, Option.bind_some, hi]
  rfl

end RuleSet

theorem Injector.ofRule_eq_ok_iff {kind : String} {rule : Rule} {i : Injector} :
    Injector.ofRule kind rule = .ok i ↔ i.kind = kind ∧
      Template.parse rule.template = .ok i.template ∧
      Injector.compileGlob rule.glob = .ok i.pattern ∧ Slot.ofText rule.slot = .ok i.slot := by
  constructor
  · intro h
    obtain ⟨template, htemplate, h⟩ := Fallible.of_bind h
    obtain ⟨pattern, hpattern, h⟩ := Fallible.of_bind h
    obtain ⟨slot, hslot, h⟩ := Fallible.of_bind h
    obtain rfl := Except.ok.inj h
    exact ⟨rfl, htemplate, hpattern, hslot⟩
  · rintro ⟨rfl, htemplate, hpattern, hslot⟩
    rw [Injector.ofRule, htemplate, hpattern, hslot]
    rfl

namespace Pipeline

variable {p : Pipeline} {rules : RuleSet}

theorem mapM_of_ofRules (hp : ofRules rules = .ok p) :
    (rules.entries.mapM fun e => Injector.ofRule e.1 e.2) = .ok p.injectors := by
  obtain ⟨injectors, hmap, rfl⟩ := Fallible.of_map hp
  exact hmap

theorem kinds_of_ofRules (hp : ofRules rules = .ok p) : p.kinds = rules.kinds := by
  apply Fallible.map_eq_of_mapM (mapM_of_ofRules hp)
  intro e _ i hi
  exact (Injector.ofRule_eq_ok_iff.mp hi).1

theorem exists_injector (hp : ofRules rules = .ok p) {kind : String} (h : kind ∈ rules.kinds) :
    ∃ i, rules.injector? kind = some i := by
  obtain ⟨e, he, rfl⟩ := List.mem_map.mp h
  obtain ⟨i, hi⟩ := Fallible.exists_of_mem_mapM (mapM_of_ofRules hp) he
  exact ⟨i, RuleSet.injector?_of_mem he hi⟩

/-- One list for each rule. Here the injectors and the mounts, which are kept in different orders,
meet by kind. -/
theorem discover_eq (hp : ofRules rules = .ok p) (view : View) (table : MountTable) :
    p.discover view table =
      rules.kinds.map fun kind => (table.get kind).flatMap (rules.references view kind) := by
  rw [RuleSet.kinds, List.map_map]
  apply Fallible.map_eq_of_mapM (mapM_of_ofRules hp)
  intro e he i hi
  have hkind : i.kind = e.1 := (Injector.ofRule_eq_ok_iff.mp hi).1
  have hreferences : rules.references view e.1 = fun m => i.references view m.source m.serve := by
    funext m
    rw [RuleSet.references, RuleSet.injector?_of_mem he hi]
  rw [hkind, Function.comp_apply, hreferences]

theorem check_eq_ok_iff (p : Pipeline) (table : MountTable) :
    p.check table = .ok () ↔ ∀ kind ∈ table.kinds, kind ∈ p.kinds := by
  unfold check
  cases h : table.kinds.find? fun kind => decide (kind ∉ p.kinds) with
  | none => simpa using h
  | some kind =>
      have hmem : kind ∈ table.kinds := List.mem_of_find?_eq_some h
      have hnot : kind ∉ p.kinds := by simpa using List.find?_some h
      constructor
      · intro hok
        cases hok
      · intro hall
        exact absurd (hall kind hmem) hnot

theorem discover_only (hp : ofRules rules = .ok p) (view : View) (table : MountTable) :
    p.discover view (table.only rules.kinds) = p.discover view table := by
  rw [discover_eq hp, discover_eq hp]
  apply List.map_congr_left
  intro kind hkind
  rw [MountTable.get_only hkind]

/-- The lists of the kinds with mounts are those of the table, in another order; the other lists
are empty. -/
theorem flatMap_kinds_perm {table : MountTable} (h : ∀ kind ∈ table.kinds, kind ∈ rules.kinds)
    (found : String → Mount → List String) :
    (rules.kinds.flatMap fun kind => (table.get kind).flatMap (found kind)).Perm
      (table.byKind.entries.flatMap fun e => e.2.flatMap (found e.1)) := by
  have hentries : table.byKind.entries.flatMap (fun e => e.2.flatMap (found e.1)) =
      table.kinds.flatMap fun kind => (table.get kind).flatMap (found kind) := by
    rw [MountTable.kinds, KeyMap.keys, List.flatMap_map]
    apply List.flatMap_congr
    intro e he
    rw [MountTable.get_of_mem he]
  have hdrop : (rules.kinds.flatMap fun kind => (table.get kind).flatMap (found kind)) =
      (rules.kinds.filter fun kind => decide (kind ∈ table.kinds)).flatMap
        fun kind => (table.get kind).flatMap (found kind) := by
    symm
    apply Lists.flatMap_filter_of
    intro kind _ hnot
    rw [MountTable.get_of_notMem (of_decide_eq_false hnot), List.flatMap_nil]
  have hperm : (rules.kinds.filter fun kind => decide (kind ∈ table.kinds)).Perm table.kinds := by
    apply (List.perm_ext_iff_of_nodup (rules.nodup.filter _) table.nodup_kinds).mpr
    intro kind
    rw [List.mem_filter, decide_eq_true_iff]
    exact ⟨fun hkind => hkind.2, fun hkind => ⟨h kind hkind, hkind⟩⟩
  rw [hentries, hdrop]
  exact hperm.flatMap_right _

/-- The lists hold what the mounts of the table lead to, the mounts of each kind in one list and
nothing twice. -/
structure Accounts (rules : RuleSet) (view : View) (table : MountTable)
    (lists : List (List String)) : Prop where
  placed : ∀ e ∈ table.byKind.entries, ∃! n : Nat, rules.kinds[n]? = some e.1 ∧
    lists[n]? = some (e.2.flatMap (rules.references view e.1))
  perm : lists.flatten.Perm
    (table.byKind.entries.flatMap fun e => e.2.flatMap (rules.references view e.1))
  total : (lists.map List.length).sum =
    (table.byKind.entries.map fun e => (e.2.map fun m => (rules.files view e.1 m).length).sum).sum

theorem accounts_discover (hp : ofRules rules = .ok p) (view : View) {table : MountTable}
    (h : ∀ kind ∈ table.kinds, kind ∈ rules.kinds) :
    Accounts rules view table (p.discover view table) := by
  have hperm : (p.discover view table).flatten.Perm
      (table.byKind.entries.flatMap fun e => e.2.flatMap (rules.references view e.1)) := by
    rw [discover_eq hp, ← List.flatMap_def]
    exact flatMap_kinds_perm h (rules.references view)
  constructor
  case placed =>
    intro e he
    obtain ⟨n, hn⟩ := List.mem_iff_getElem?.mp (h e.1 (List.mem_map_of_mem he))
    refine ⟨n, ⟨hn, ?_⟩, ?_⟩
    · rw [discover_eq hp, List.getElem?_map, hn, Option.map_some, MountTable.get_of_mem he]
    · -- the kinds of a set are distinct, so a kind has one place
      rintro n' ⟨hn', _⟩
      have hlt : n' < rules.kinds.length := (List.getElem?_eq_some_iff.mp hn').1
      exact (List.getElem?_inj hlt rules.nodup).mp (hn'.trans hn.symm)
  case perm => exact hperm
  case total =>
    rw [← List.length_flatten, hperm.length_eq, List.length_flatMap]
    simp only [List.length_flatMap, RuleSet.length_references]

/-- However the set of rules came about, a scan gives one list for each of its kinds, in the order
in which they were first named. It leaves out the kinds that have no rule, and nothing else. -/
theorem discover_exact {start : RuleSet} {edits : List RuleSet.Edit}
    (hrules : start.edited edits = .ok rules) (hp : ofRules rules = .ok p) (view : View)
    (table : MountTable) :
    rules.kinds = (start.kinds ++ edits.flatMap RuleSet.Edit.kinds).eraseDups ∧
      (∀ kind ∈ rules.kinds, (rules.injector? kind).isSome) ∧
      p.discover view table =
        (rules.kinds.map fun kind => (table.get kind).flatMap (rules.references view kind)) ∧
      (p.check table = .ok () ↔ ∀ kind ∈ table.kinds, kind ∈ rules.kinds) ∧
      (p.check table = .ok () → Accounts rules view table (p.discover view table)) ∧
      p.check (table.only rules.kinds) = .ok () ∧
      p.discover view (table.only rules.kinds) = p.discover view table := by
  have hcheck (t : MountTable) : p.check t = .ok () ↔ ∀ kind ∈ t.kinds, kind ∈ rules.kinds := by
    rw [check_eq_ok_iff, kinds_of_ofRules hp]
  refine ⟨RuleSet.kinds_edited hrules, ?_, discover_eq hp view table, hcheck table, ?_, ?_,
    discover_only hp view table⟩
  · intro kind hkind
    obtain ⟨i, hi⟩ := exists_injector hp hkind
    rw [hi, Option.isSome_some]
  · intro hok
    exact accounts_discover hp view ((hcheck table).mp hok)
  · apply (hcheck _).mpr
    intro kind hkind
    exact (MountTable.mem_kinds_only.mp hkind).2

def history : List RuleSet.Edit :=
  [.insert "js" ⟨"<%s>", "*.js", "J"⟩, .insert "css" ⟨"[%s]", "*", "C"⟩,
    .overlay (.ofList [("css", ⟨none, some "*.css", none⟩),
      ("img", ⟨some "%s", some "*.svg", some "I"⟩)])]

def historyRules : RuleSet :=
  ⟨[("js", ⟨"<%s>", "*.js", "J"⟩), ("css", ⟨"[%s]", "*.css", "C"⟩), ("img", ⟨"%s", "*.svg", "I"⟩)],
    by decide⟩

def historyPipeline : Pipeline := ⟨historyRules.kinds.filterMap historyRules.injector?⟩

def mixedFolder : View := fun _ =>
  .folder (.ofEntries [⟨"b.js", true⟩, ⟨"c.css", true⟩, ⟨"d.js", false⟩, ⟨"a.js", true⟩])

def overlapping : MountTable :=
  ((MountTable.empty.add "js" (.shared "s")).add "css" (.shared "s")).add "js" (.ofPaths "s" "t")

theorem discover_exact_overlapping :
    RuleSet.empty.edited history = .ok historyRules ∧ ofRules historyRules = .ok historyPipeline ∧
      historyPipeline.check overlapping = .ok () ∧
      historyPipeline.discover mixedFolder overlapping =
        [["</s/a.js>", "</s/b.js>", "</t/a.js>", "</t/b.js>"], ["[/s/c.css]"], []] ∧
      Accounts historyRules mixedFolder overlapping
        [["</s/a.js>", "</s/b.js>", "</t/a.js>", "</t/b.js>"], ["[/s/c.css]"], []] := by
  have hrules : RuleSet.empty.edited history = .ok historyRules := by rfl
  have hp : ofRules historyRules = .ok historyPipeline := by rfl
  have hcheck : historyPipeline.check overlapping = .ok () := by rfl
  have hdiscover : historyPipeline.discover mixedFolder overlapping =
      [["</s/a.js>", "</s/b.js>", "</t/a.js>", "</t/b.js>"], ["[/s/c.css]"], []] := by
    have hnames (dir : String) : (mixedFolder dir).fileNames = ["a.js", "b.js", "c.css"] := by cbv
    simp only [discover, Injector.references, matchingFiles, hnames]
    rfl
  obtain ⟨_, _, _, _, haccounts, _⟩ := discover_exact hrules hp mixedFolder overlapping
  rw [hdiscover] at haccounts
  exact ⟨hrules, hp, hcheck, hdiscover, haccounts hcheck⟩

end Pipeline

end AssetSlots
