import AssetSlots.Proofs.Config.Nearest
import AssetSlots.Proofs.MountTable.Declarations
import AssetSlots.Proofs.RuleSet.Overlay

namespace AssetSlots.Config

variable {c : Config} {source : Option String} {e : Error} {s : Settings}

/-- The mistake that is reported: in the rule of the first new kind that is incomplete or, if there
is none, in the declarations of the first kind that are bad. -/
inductive FirstMistake (c : Config) : Error → Prop
  | rule {kind : String} {p : Rule.Partial} {f : Field}
      (hleast : IsLeast {k | RuleSet.builtin.Incomplete c.overrides k} kind)
      (hp : c.overrides.find? kind = some p) (hf : p.firstGap = some f) :
      FirstMistake c (.incompleteRule kind f)
  | declaration {kind : String} {list : List Declaration} {count : Nat}
      (hcomplete : ∀ k, ¬RuleSet.builtin.Incomplete c.overrides k)
      (hleast : IsLeast {k | MountTable.Misdeclared c.paths k} kind)
      (hlist : c.paths.find? kind = some list) (hcount : MountTable.Miscounts list count) :
      FirstMistake c (.declaration kind count)

theorem resolve_eq_ok_iff : c.resolve source = .ok s ↔
    RuleSet.builtin.overlay c.overrides = .ok s.rules ∧
      MountTable.ofDeclarations c.paths = .ok s.table ∧ s.source = source := by
  constructor
  · intro h
    obtain ⟨rules, hrules, h⟩ := Fallible.of_bind h
    obtain ⟨table, htable, h⟩ := Fallible.of_bind h
    obtain rfl := Except.ok.inj h
    exact ⟨hrules, htable, rfl⟩
  · rintro ⟨hrules, htable, rfl⟩
    rw [resolve, hrules, htable]
    rfl

theorem exists_resolve_iff : (∃ s, c.resolve source = .ok s) ↔
    (∀ kind, ¬RuleSet.builtin.Incomplete c.overrides kind) ∧
      ∀ kind, ¬MountTable.Misdeclared c.paths kind := by
  rw [← RuleSet.exists_overlay_iff, ← MountTable.exists_ofDeclarations_iff]
  simp only [resolve_eq_ok_iff]
  constructor
  · rintro ⟨s, hrules, htable, -⟩
    exact ⟨⟨_, hrules⟩, _, htable⟩
  · rintro ⟨⟨rules, hrules⟩, table, htable⟩
    exact ⟨⟨rules, table, source⟩, hrules, htable, rfl⟩

theorem resolve_eq_error_iff : c.resolve source = .error e ↔ c.FirstMistake e := by
  constructor
  · intro h
    rcases Fallible.error_of_bind h with h | ⟨rules, hrules, h⟩
    · obtain ⟨kind, p, f, hleast, hp, hf, rfl⟩ := RuleSet.overlay_eq_error_iff.mp h
      exact .rule hleast hp hf
    · rcases Fallible.error_of_bind h with h | ⟨table, -, h⟩
      · obtain ⟨kind, list, count, hleast, hlist, hcount, rfl⟩ :=
          MountTable.ofDeclarations_eq_error_iff.mp h
        exact .declaration (RuleSet.exists_overlay_iff.mp ⟨rules, hrules⟩) hleast hlist hcount
      · cases h
  · intro h
    cases h with
    | rule hleast hp hf =>
        rw [resolve, RuleSet.overlay_eq_error_iff.mpr ⟨_, _, _, hleast, hp, hf, rfl⟩]
        rfl
    | declaration hcomplete hleast hlist hcount =>
        obtain ⟨rules, hrules⟩ := RuleSet.exists_overlay_iff.mpr hcomplete
        rw [resolve, hrules,
          MountTable.ofDeclarations_eq_error_iff.mpr ⟨_, _, _, hleast, hlist, hcount, rfl⟩]
        rfl

theorem validate_eq_ok_iff : c.validate = .ok () ↔ ∃ s, c.resolve source = .ok s := by
  constructor
  · intro h
    obtain ⟨s, hs, -⟩ := exists_resolve_of_validate h source
    exact ⟨s, hs⟩
  · intro h
    obtain ⟨s, hs⟩ := exists_resolve_iff.mpr (exists_resolve_iff.mp h)
    rw [validate_eq_map, hs]
    rfl

theorem validate_eq_error_iff : c.validate = .error e ↔ c.resolve source = .error e := by
  have hnone : c.resolve none = .error e ↔ c.FirstMistake e := resolve_eq_error_iff
  rw [resolve_eq_error_iff, ← hnone, validate_eq_map]
  cases c.resolve none <;> simp [Except.map]

theorem parse_of_ofFile {view : View} {path : String} (h : ofFile view path = .ok c) :
    ∃ text, parse path text = .ok c := by
  unfold ofFile at h
  split at h
  · exact ⟨_, h⟩
  · cases h
  · cases h

theorem forall_not_incomplete_iff : (∀ kind, ¬RuleSet.builtin.Incomplete c.overrides kind) ↔
    ∀ kind p, c.overrides.find? kind = some p → kind ∉ RuleSet.builtin.kinds → p.Full := by
  constructor
  · intro h kind p hp hnew
    by_contra hgap
    exact h kind ⟨hnew, p, hp, hgap⟩
  · rintro h kind ⟨hnew, p, hp, hgap⟩
    exact hgap (h kind p hp hnew)

theorem forall_not_misdeclared_iff : (∀ kind, ¬MountTable.Misdeclared c.paths kind) ↔
    ∀ kind list, c.paths.find? kind = some list → ∀ d ∈ list, d.Single := by
  simp only [MountTable.Misdeclared, not_exists, not_and, not_not]

structure Resolution (c : Config) (source : Option String) : Prop where
  validate_iff : (∃ s, c.resolve source = .ok s) ↔ c.validate = .ok ()
  ok_iff : (∃ s, c.resolve source = .ok s) ↔
    (∀ kind p, c.overrides.find? kind = some p → kind ∉ RuleSet.builtin.kinds → p.Full) ∧
      ∀ kind list, c.paths.find? kind = some list → ∀ d ∈ list, d.Single
  noted : ∀ s, c.resolve source = .ok s → s.source = source ∧
    ∀ source', c.resolve source' = .ok { s with source := source' }
  rules : ∀ s, c.resolve source = .ok s → RuleSet.builtin.overlay c.overrides = .ok s.rules
  kinds : ∀ s, c.resolve source = .ok s → s.table.kinds = c.paths.keys
  mounts : ∀ s, c.resolve source = .ok s → ∀ kind list, c.paths.find? kind = some list →
    List.Forall₂ Declaration.Names list (s.table.get kind)
  error_iff : ∀ e, c.resolve source = .error e ↔ c.FirstMistake e
  validate_error_iff : ∀ e, c.validate = .error e ↔ c.resolve source = .error e
  parsed : ∀ path text, parse path text = .ok c → ∃ s, c.resolve source = .ok s
  read : ∀ view path, ofFile view path = .ok c → ∃ s, c.resolve source = .ok s

/-- A configuration resolves exactly if it is valid: every new kind has a rule in full and every
declaration names one mount. The settings then have the mounts that are declared, and else the first
mistake is reported. What has been read from a file is valid. -/
theorem resolve_exact (c : Config) (source : Option String) : c.Resolution source where
  validate_iff := validate_eq_ok_iff.symm
  ok_iff := by
    rw [exists_resolve_iff, forall_not_incomplete_iff, forall_not_misdeclared_iff]
  noted s h := by
    obtain ⟨hrules, htable, hsource⟩ := resolve_eq_ok_iff.mp h
    exact ⟨hsource, fun source' => resolve_eq_ok_iff.mpr ⟨hrules, htable, rfl⟩⟩
  rules _ h := (resolve_eq_ok_iff.mp h).1
  kinds _ h := MountTable.kinds_ofDeclarations (resolve_eq_ok_iff.mp h).2.1
  mounts _ h _ _ := MountTable.forall₂_get (resolve_eq_ok_iff.mp h).2.1
  error_iff _ := resolve_eq_error_iff
  validate_error_iff _ := validate_eq_error_iff
  parsed _ _ h := validate_eq_ok_iff.mp (validate_of_parse h)
  read view path h := by
    obtain ⟨text, htext⟩ := parse_of_ofFile h
    exact validate_eq_ok_iff.mp (validate_of_parse htext)

def miscounted : KeyMap (List Declaration) :=
  .ofList [("zip", [.mapping .empty]), ("app", []),
    ("css", [.shared "a", MountTable.twoPairs, .mapping .empty])]

def faultyConfig : Config :=
  ⟨.ofList [("zip", ⟨none, none, none⟩), ("img", ⟨some "<%s>", some "", none⟩)], miscounted⟩

def patchedConfig : Config := ⟨.ofList [("css", ⟨none, some "", none⟩)], miscounted⟩

def soundConfig : Config := ⟨.empty, .ofList [("css", [.shared "a"]), ("app", [])]⟩

theorem resolve_exact_faulty :
    faultyConfig.resolve none = .error (.incompleteRule "img" .glob) ∧
      patchedConfig.validate = .error (.declaration "css" 2) ∧
      ∃ s, soundConfig.resolve none = .ok s ∧ s.table.kinds = ["app", "css"] := by
  have hleast : IsLeast {k | RuleSet.builtin.Incomplete faultyConfig.overrides k} "img" := by
    refine ⟨⟨by decide, _, rfl, by decide⟩, fun k hk => ?_⟩
    have hall : ∀ k ∈ faultyConfig.overrides.keys, "img" ≤ k := by decide
    exact hall k hk.mem_keys
  have hcomplete : ∀ k, ¬RuleSet.builtin.Incomplete patchedConfig.overrides k := by
    have hall : ∀ k ∈ patchedConfig.overrides.keys, k ∈ RuleSet.builtin.kinds := by decide
    exact fun k hk => hk.1 (hall k hk.mem_keys)
  have hcount : MountTable.Miscounts [.shared "a", MountTable.twoPairs, .mapping .empty] 2 :=
    ⟨[.shared "a"], _, [.mapping .empty], rfl, by simp [Declaration.Single], by decide, rfl⟩
  have hfirst : IsLeast {k | MountTable.Misdeclared miscounted k} "css" :=
    KeyMap.isLeast_iff.mpr ⟨[("app", [])], _, [("zip", [.mapping .empty])], rfl, by simp,
      MountTable.not_single_of_miscounts hcount⟩
  have hgood : ∀ kind list, soundConfig.paths.find? kind = some list → ∀ d ∈ list, d.Single := by
    intro kind list hlist
    have hrow : (kind, list) ∈ [("app", []), ("css", [Declaration.shared "a"])] :=
      soundConfig.paths.mem_entries_iff.mpr hlist
    have hall : ∀ row ∈ [("app", []), ("css", [Declaration.shared "a"])],
        ∀ d ∈ row.2, d.Single := by simp [Declaration.Single]
    exact hall _ hrow
  have hpatched := resolve_exact patchedConfig none
  have hsound := resolve_exact soundConfig none
  obtain ⟨s, hs⟩ := hsound.ok_iff.mpr ⟨nofun, hgood⟩
  exact ⟨((resolve_exact faultyConfig none).error_iff _).mpr (.rule hleast rfl rfl),
    (hpatched.validate_error_iff _).mpr
      ((hpatched.error_iff _).mpr (.declaration hcomplete hfirst rfl hcount)),
    s, hs, hsound.kinds s hs⟩

end AssetSlots.Config
