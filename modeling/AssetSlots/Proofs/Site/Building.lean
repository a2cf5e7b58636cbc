import AssetSlots.Proofs.Glob.Grammar
import AssetSlots.Proofs.Pipeline.Discovery
import AssetSlots.Proofs.Template.Places
import AssetSlots.Proofs.Text.Stripped
import AssetSlots.Site
import Mathlib

namespace AssetSlots

structure Rule.Sound (r : Rule) : Prop where
  template : Template.places r.template.toList = 1
  glob : Glob.WellFormed r.glob
  slot : ¬Text.White r.slot.toList

inductive Rule.Fault (r : Rule) : Error → Prop
  | template : Template.places r.template.toList ≠ 1 →
      r.Fault (.template r.template (Template.places r.template.toList))
  | glob {flaw : Glob.Flaw} : Template.places r.template.toList = 1 → ¬Glob.WellFormed r.glob →
      Glob.Pattern.parse r.glob = .error flaw → r.Fault (.glob r.glob flaw)
  | slot : Template.places r.template.toList = 1 → Glob.WellFormed r.glob →
      Text.White r.slot.toList → r.Fault (.blankSlot r.slot)

namespace Slot

variable {text : String}

theorem exists_ofText_iff : (∃ s, ofText text = .ok s) ↔ ¬Text.White text.toList := by
  rw [Text.White, ← Text.trim_eq_nil_iff, ofText]
  by_cases h : Text.trim text.toList = [] <;> simp [h]

theorem ofText_eq_error_iff {e : Error} :
    ofText text = .error e ↔ Text.White text.toList ∧ e = .blankSlot text := by
  rw [Text.White, ← Text.trim_eq_nil_iff, ofText]
  by_cases h : Text.trim text.toList = [] <;> simp [h, eq_comm]

end Slot

namespace Injector

variable {text kind : String} {rule : Rule} {e : Error}

theorem exists_compileGlob_iff : (∃ p, compileGlob text = .ok p) ↔ Glob.WellFormed text := by
  simp only [← Glob.Pattern.exists_parse_iff, compileGlob, Fallible.mapError_eq_ok_iff]

theorem compileGlob_eq_error_iff : compileGlob text = .error e ↔
    ∃ flaw, Glob.Pattern.parse text = .error flaw ∧ e = .glob text flaw := by
  rw [compileGlob]
  cases Glob.Pattern.parse text <;> simp [Except.mapError, eq_comm]

theorem exists_ofRule_iff : (∃ i, ofRule kind rule = .ok i) ↔ rule.Sound := by
  constructor
  · rintro ⟨i, h⟩
    obtain ⟨-, htemplate, hpattern, hslot⟩ := ofRule_eq_ok_iff.mp h
    exact ⟨Template.exists_parse_iff.mp ⟨_, htemplate⟩, exists_compileGlob_iff.mp ⟨_, hpattern⟩,
      Slot.exists_ofText_iff.mp ⟨_, hslot⟩⟩
  · intro h
    obtain ⟨template, htemplate⟩ := Template.exists_parse_iff.mpr h.template
    obtain ⟨pattern, hpattern⟩ := exists_compileGlob_iff.mpr h.glob
    obtain ⟨slot, hslot⟩ := Slot.exists_ofText_iff.mpr h.slot
    exact ⟨⟨kind, template, pattern, slot⟩,
      ofRule_eq_ok_iff.mpr ⟨rfl, htemplate, hpattern, hslot⟩⟩

theorem ofRule_eq_error_iff : ofRule kind rule = .error e ↔ rule.Fault e := by
  constructor
  · intro h
    rcases Fallible.error_of_bind h with h | ⟨template, htemplate, h⟩
    · obtain ⟨hplaces, rfl⟩ := Template.parse_eq_error_iff.mp h
      exact .template hplaces
    have hplaces := Template.exists_parse_iff.mp ⟨_, htemplate⟩
    rcases Fallible.error_of_bind h with h | ⟨pattern, hpattern, h⟩
    · obtain ⟨flaw, hflaw, rfl⟩ := compileGlob_eq_error_iff.mp h
      exact .glob hplaces (Glob.Pattern.not_wellFormed_of_parse hflaw) hflaw
    have hglob := exists_compileGlob_iff.mp ⟨_, hpattern⟩
    rcases Fallible.error_of_bind h with h | ⟨slot, hslot, h⟩
    · obtain ⟨hwhite, rfl⟩ := Slot.ofText_eq_error_iff.mp h
      exact .slot hplaces hglob hwhite
    · cases h
  · intro h
    cases h with
    | template hplaces => rw [ofRule, Template.parse_eq_error_iff.mpr ⟨hplaces, rfl⟩]; rfl
    | glob hplaces _ hflaw =>
        obtain ⟨template, htemplate⟩ := Template.exists_parse_iff.mpr hplaces
        rw [ofRule, htemplate, compileGlob, hflaw]
        rfl
    | slot hplaces hglob hwhite =>
        obtain ⟨template, htemplate⟩ := Template.exists_parse_iff.mpr hplaces
        obtain ⟨pattern, hpattern⟩ := exists_compileGlob_iff.mpr hglob
        rw [ofRule, htemplate, hpattern, Slot.ofText_eq_error_iff.mpr ⟨hwhite, rfl⟩]
        rfl

end Injector

namespace Pipeline

variable {p : Pipeline} {rules : RuleSet} {table : MountTable} {e : Error}

theorem exists_ofRules_iff : (∃ p, ofRules rules = .ok p) ↔ ∀ d ∈ rules.entries, d.2.Sound := by
  simp only [ofRules, Fallible.exists_map_eq_ok_iff, Fallible.exists_mapM_eq_ok_iff,
    Injector.exists_ofRule_iff]

theorem ofRules_eq_error_iff : ofRules rules = .error e ↔
    ∃ before kind rule rest, rules.entries = before ++ (kind, rule) :: rest ∧
      (∀ d ∈ before, d.2.Sound) ∧ rule.Fault e := by
  simp only [ofRules, Fallible.map_eq_error_iff, Fallible.mapM_eq_error_iff,
    Injector.exists_ofRule_iff, Injector.ofRule_eq_error_iff, Prod.exists]

theorem check_eq_error_iff : p.check table = .error e ↔
    ∃ kind, IsLeast {k | k ∈ table.kinds ∧ k ∉ p.kinds} kind ∧ e = .unknownKind kind := by
  unfold check
  cases h : table.kinds.find? fun kind => decide (kind ∉ p.kinds) with
  | none =>
      have hall : ∀ k ∈ table.kinds, k ∈ p.kinds := by simpa using h
      constructor
      · intro herror
        cases herror
      · rintro ⟨kind, ⟨⟨hmem, hnot⟩, -⟩, -⟩
        exact absurd (hall kind hmem) hnot
  | some kind =>
      have hleast : IsLeast {k | k ∈ table.kinds ∧ k ∉ p.kinds} kind := by
        simpa [MountTable.kinds] using KeyMap.isLeast_of_find? table.byKind.sorted_keys h
      constructor
      · intro herror
        exact ⟨kind, hleast, (Except.error.inj herror).symm⟩
      · rintro ⟨kind', hleast', rfl⟩
        rw [hleast.unique hleast']

end Pipeline

namespace Site

variable {p : Pipeline} {rules : RuleSet} {table : MountTable} {e : Error}

theorem of_build {s : Site} (h : build rules table = .ok s) :
    ∃ p, Pipeline.ofRules rules = .ok p ∧ p.check table = .ok () ∧ s = ⟨p, table⟩ := by
  obtain ⟨p, hp, h⟩ := Fallible.of_bind h
  obtain ⟨_, hcheck, h⟩ := Fallible.of_bind h
  exact ⟨p, hp, hcheck, (Except.ok.inj h).symm⟩

theorem build_of_ofRules (hp : Pipeline.ofRules rules = .ok p) :
    build rules table = (fun _ => ⟨p, table⟩) <$> p.check table := by
  rw [build, hp]
  change (p.check table >>= fun _ => Except.ok (Site.mk p table)) = _
  cases p.check table <;> rfl

theorem exists_build_iff : (∃ s, build rules table = .ok s) ↔
    (∀ d ∈ rules.entries, d.2.Sound) ∧ ∀ kind ∈ table.kinds, kind ∈ rules.kinds := by
  rw [← Pipeline.exists_ofRules_iff]
  constructor
  · rintro ⟨s, h⟩
    obtain ⟨p, hp, hcheck, -⟩ := of_build h
    rw [← Pipeline.kinds_of_ofRules hp]
    exact ⟨⟨p, hp⟩, (p.check_eq_ok_iff table).mp hcheck⟩
  · rintro ⟨⟨p, hp⟩, hkinds⟩
    rw [← Pipeline.kinds_of_ofRules hp] at hkinds
    rw [build_of_ofRules hp, (p.check_eq_ok_iff table).mpr hkinds]
    exact ⟨_, rfl⟩

theorem build_eq_error_iff : build rules table = .error e ↔
    Pipeline.ofRules rules = .error e ∨ (∀ d ∈ rules.entries, d.2.Sound) ∧
      ∃ kind, IsLeast {k | k ∈ table.kinds ∧ k ∉ rules.kinds} kind ∧ e = .unknownKind kind := by
  rw [← Pipeline.exists_ofRules_iff]
  cases hp : Pipeline.ofRules rules with
  | error e' =>
      have hbuild : build rules table = .error e' := by rw [build, hp]; rfl
      simp [hbuild]
  | ok p =>
      rw [build_of_ofRules hp, ← Pipeline.kinds_of_ofRules hp, Fallible.map_eq_error_iff,
        Pipeline.check_eq_error_iff]
      simp

/-- A site comes out if all rules are good and no kind is without one. Else the first bad rule is
reported or, if there is none, the first kind without a rule. -/
theorem build_exact (rules : RuleSet) (table : MountTable) :
    ((∃ s, build rules table = .ok s) ↔
        (∀ d ∈ rules.entries, d.2.Sound) ∧ ∀ kind ∈ table.kinds, kind ∈ rules.kinds) ∧
      ∀ e, build rules table = .error e ↔
        (∃ before kind rule rest, rules.entries = before ++ (kind, rule) :: rest ∧
          (∀ d ∈ before, d.2.Sound) ∧ rule.Fault e) ∨
        (∀ d ∈ rules.entries, d.2.Sound) ∧
          ∃ kind, IsLeast {k | k ∈ table.kinds ∧ k ∉ rules.kinds} kind ∧ e = .unknownKind kind := by
  refine ⟨exists_build_iff, fun e => ?_⟩
  rw [build_eq_error_iff, Pipeline.ofRules_eq_error_iff]

def faultyRules : RuleSet :=
  ⟨[("js", ⟨"<%s>", "*.js", "J"⟩), ("css", ⟨"[%s]", "[", " "⟩), ("img", ⟨"%s%s", "*", "I"⟩)],
    by decide⟩

def soundRules : RuleSet := ⟨[("js", ⟨"<%s>", "*.js", "J"⟩)], by decide⟩

def twoUnknown : MountTable := (MountTable.empty.register "zip").add "font" (.shared "f")

theorem build_exact_faulty :
    build faultyRules twoUnknown = .error (.glob "[" ⟨0, .brokenSet⟩) ∧
      build soundRules twoUnknown = .error (.unknownKind "font") := by
  have hsound : (⟨"<%s>", "*.js", "J"⟩ : Rule).Sound :=
    ⟨rfl, Glob.Pattern.exists_parse_iff.mp ⟨_, rfl⟩, fun h => absurd (h 'J' (by simp)) (by decide)⟩
  have hflaw : Glob.Pattern.parse "[" = .error ⟨0, .brokenSet⟩ := rfl
  have hglob : ¬Glob.WellFormed "[" := Glob.Pattern.not_wellFormed_of_parse hflaw
  have hleast : IsLeast {k | k ∈ twoUnknown.kinds ∧ k ∉ soundRules.kinds} "font" := by
    refine ⟨by decide, fun k ⟨hk, _⟩ => ?_⟩
    have hall : ∀ k ∈ twoUnknown.kinds, "font" ≤ k := by decide
    exact hall k hk
  constructor
  · apply ((build_exact _ _).2 _).mpr
    exact .inl ⟨soundRules.entries, "css", ⟨"[%s]", "[", " "⟩, _, rfl,
      List.forall_mem_singleton.mpr hsound, .glob (by decide) hglob hflaw⟩
  · apply ((build_exact _ _).2 _).mpr
    exact .inr ⟨List.forall_mem_singleton.mpr hsound, "font", hleast, rfl⟩

end Site

end AssetSlots
