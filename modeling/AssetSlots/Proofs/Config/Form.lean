import AssetSlots.Config.Document
import AssetSlots.Proofs.Config.Resolution
import AssetSlots.Proofs.KeyMap.Rows
import AssetSlots.Proofs.Rule.Fields
import AssetSlots.Proofs.Toml.Distinct
import Mathlib.Data.Option.Basic

namespace AssetSlots

namespace Config

open Toml

variable {α : Type}

/-- A table whose entries stand for the entries of the map, key by key. -/
inductive Tabulates (R : Value → α → Prop) : Value → KeyMap α → Prop
  | table {entries : Entries} {m : KeyMap α}
      (each : ∀ e ∈ entries, ∃ a, m.find? e.1 = some a ∧ R e.2 a)
      (only : ∀ k ∈ m.keys, k ∈ entries.map Prod.fst) : Tabulates R (.table entries) m

inductive Lists (R : Value → α → Prop) : Value → List α → Prop
  | array {items : List Value} {as : List α} (each : List.Forall₂ R items as) :
      Lists R (.array items) as

inductive Quotes : Value → String → Prop
  | text (s : String) : Quotes (.text s) s

inductive RuleForm : Value → Rule.Partial → Prop
  | table {entries : Entries} {p : Rule.Partial}
      (each : ∀ e ∈ entries, ∃ (f : Field) (s : String), e = (f.name, .text s))
      (holds : ∀ (f : Field) (s : String), p.value? f = some s ↔ (f.name, .text s) ∈ entries) :
      RuleForm (.table entries) p

/-- What the reader takes for a rule: also an array, for its first three items. -/
inductive RuleReading : Value → Rule.Partial → Prop
  | table {v : Value} {p : Rule.Partial} (form : RuleForm v p) : RuleReading v p
  | array (template glob slot : String) (more : List Value) :
      RuleReading (.array (.text template :: .text glob :: .text slot :: more))
        ⟨some template, some glob, some slot⟩

inductive DeclarationForm : Value → Declaration → Prop
  | text (path : String) : DeclarationForm (.text path) (.shared path)
  | table {entries : Entries} {pairs : KeyMap String}
      (form : Tabulates Quotes (.table entries) pairs) :
      DeclarationForm (.table entries) (.mapping pairs)

/-- What the reader takes for a declaration: also a date or time, for a table of one text. -/
inductive DeclarationReading : Value → Declaration → Prop
  | form {v : Value} {d : Declaration} (form : DeclarationForm v d) : DeclarationReading v d
  | moment (m : Moment) :
      DeclarationReading (.moment m) (.mapping (KeyMap.empty.insert momentKey m.text))

structure Section (R : Value → KeyMap α → Prop) (entries : Entries) (name : String)
    (m : KeyMap α) : Prop where
  present : ∀ v, (name, v) ∈ entries → R v m
  absent : name ∉ entries.map Prod.fst → m = .empty

structure States (R : Value → Rule.Partial → Prop) (D : Value → Declaration → Prop)
    (doc : Entries) (c : Config) : Prop where
  keys : ∀ e ∈ doc, e.1 = "stackers" ∨ e.1 = "paths"
  overrides : Section (Tabulates R) doc "stackers" c.overrides
  paths : Section (Tabulates (Lists D)) doc "paths" c.paths

def HasForm : Entries → Config → Prop := States RuleForm DeclarationForm

def Reads : Entries → Config → Prop := States RuleReading DeclarationReading

theorem text?_eq_some_iff {v : Value} {s : String} : v.text? = some s ↔ Quotes v s := by
  constructor
  · intro h
    cases v with
    | text t =>
        obtain rfl := Option.some.inj h
        exact .text t
    | _ => cases h
  · rintro ⟨⟩
    rfl

section Tables

variable {read : Value → Option α} {R : Value → α → Prop} {entries : Entries}

def row (read : Value → Option α) (e : String × Value) : Option (String × α) :=
  (read e.2).map fun a => (e.1, a)

theorem keys_of_rows {rows : List (String × α)}
    (h : List.Forall₂ (fun e r => row read e = some r) entries rows) :
    rows.map Prod.fst = entries.map Prod.fst := by
  induction h with
  | nil => rfl
  | cons hrow _ ih =>
      obtain ⟨_, _, rfl⟩ := Option.map_eq_some_iff.mp hrow
      rw [List.map_cons, List.map_cons, ih]

theorem mem_rows_iff {rows : List (String × α)}
    (h : List.Forall₂ (fun e r => row read e = some r) entries rows) {k : String} {a : α} :
    (k, a) ∈ rows ↔ ∃ v, (k, v) ∈ entries ∧ read v = some a := by
  induction h with
  | nil => simp
  | @cons e _ _ _ hrow _ ih =>
      obtain ⟨a', ha', rfl⟩ := Option.map_eq_some_iff.mp hrow
      obtain ⟨j, w⟩ := e
      rw [List.mem_cons, ih]
      constructor
      · rintro (hnew | ⟨v, hv, hread⟩)
        · obtain ⟨rfl, rfl⟩ := Prod.mk.inj hnew
          exact ⟨w, List.mem_cons_self, ha'⟩
        · exact ⟨v, List.mem_cons_of_mem _ hv, hread⟩
      · rintro ⟨v, hv, hread⟩
        rcases List.mem_cons.mp hv with hnew | hv
        · obtain ⟨rfl, rfl⟩ := Prod.mk.inj hnew
          exact .inl (by rw [Option.some.inj (ha'.symm.trans hread)])
        · exact .inr ⟨v, hv, hread⟩

theorem readTable_table (read : Value → Option α) (entries : Entries) :
    readTable read (.table entries) = KeyMap.ofList <$> entries.mapM (row read) := rfl

theorem readTable_eq_some_iff_find? (hkeys : (entries.map Prod.fst).Nodup) {m : KeyMap α} :
    readTable read (.table entries) = some m ↔ (∀ e ∈ entries, ∃ a, read e.2 = some a) ∧
      ∀ k a, m.find? k = some a ↔ ∃ v, (k, v) ∈ entries ∧ read v = some a := by
  have hread : (∃ rows, entries.mapM (row read) = some rows) ↔
      ∀ e ∈ entries, ∃ a, read e.2 = some a := by
    simp [Fallible.exists_mapM_eq_some_iff, row, Option.map_eq_some_iff]
  have hfind {rows : List (String × α)} (hrows : entries.mapM (row read) = some rows) (k : String)
      (a : α) : (KeyMap.ofList rows).find? k = some a ↔ ∃ v, (k, v) ∈ entries ∧ read v = some a := by
    -- The last of two rows with one key would win, but no key occurs twice.
    have hrow := Fallible.mapM_eq_some_iff.mp hrows
    rw [KeyMap.find?_ofList_eq_some_iff ((keys_of_rows hrow).symm ▸ hkeys), mem_rows_iff hrow]
  rw [readTable_table, ← hread]
  constructor
  · intro h
    obtain ⟨rows, hrows, rfl⟩ := Option.map_eq_some_iff.mp h
    exact ⟨⟨rows, hrows⟩, hfind hrows⟩
  · rintro ⟨⟨rows, hrows⟩, hm⟩
    have heq : KeyMap.ofList rows = m := by
      refine KeyMap.ext_find? fun k => Option.ext fun a => ?_
      rw [hfind hrows, hm]
    rw [hrows, ← heq]
    rfl

theorem readTable_eq_some_iff (hkeys : (entries.map Prod.fst).Nodup)
    (hread : ∀ e ∈ entries, ∀ a, read e.2 = some a ↔ R e.2 a) {m : KeyMap α} :
    readTable read (.table entries) = some m ↔ Tabulates R (.table entries) m := by
  rw [readTable_eq_some_iff_find? hkeys]
  constructor
  · rintro ⟨heach, hfind⟩
    refine .table (fun e he => ?_) fun k hk => ?_
    · obtain ⟨a, ha⟩ := heach e he
      exact ⟨a, (hfind e.1 a).mpr ⟨e.2, he, ha⟩, (hread e he a).mp ha⟩
    · obtain ⟨a, ha⟩ := Option.isSome_iff_exists.mp (m.mem_keys_iff.mp hk)
      obtain ⟨v, hv, _⟩ := (hfind k a).mp ha
      exact List.mem_map_of_mem hv
  · rintro ⟨heach, honly⟩
    refine ⟨fun e he => ?_, fun k a => ⟨fun hfind => ?_, ?_⟩⟩
    · obtain ⟨a, _, ha⟩ := heach e he
      exact ⟨a, (hread e he a).mpr ha⟩
    · have hk : k ∈ m.keys := m.mem_keys_iff.mpr (by rw [hfind]; rfl)
      obtain ⟨e, he, rfl⟩ := List.mem_map.mp (honly k hk)
      obtain ⟨a', ha', hR⟩ := heach e he
      obtain rfl := Option.some.inj (hfind.symm.trans ha')
      exact ⟨e.2, he, (hread e he a).mpr hR⟩
    · rintro ⟨v, hv, hread'⟩
      obtain ⟨a', ha', hR⟩ := heach (k, v) hv
      rw [ha', ← (hread _ hv a').mpr hR, hread']

end Tables

section Rules

variable {entries : Entries} {p : Rule.Partial}

theorem field_eq_some_iff (hkeys : (entries.map Prod.fst).Nodup) {name : String}
    {o : Option String} :
    field entries name = some o ↔ (∀ v, (name, v) ∈ entries → ∃ s, v = .text s) ∧
      ∀ s, o = some s ↔ (name, .text s) ∈ entries := by
  have hmem {v : Value} : entries.lookup name = some v ↔ (name, v) ∈ entries :=
    KeyMap.lookup_eq_some_iff hkeys
  simp only [field, ← hmem]
  cases entries.lookup name with
  | none => cases o <;> simp
  | some v =>
      rcases v with t | _ | _ | _ | _ | _
      case text => cases o <;> simp [Value.text?, eq_comm]
      all_goals simp [Value.text?]

theorem isFieldName_iff {k : String} :
    (k == "template" || k == "glob" || k == "slot") = true ↔ ∃ f : Field, k = f.name := by
  constructor
  · intro h
    simp only [Bool.or_eq_true, beq_iff_eq] at h
    obtain (h | h) | h := h
    exacts [⟨.template, h⟩, ⟨.glob, h⟩, ⟨.slot, h⟩]
  · rintro ⟨f, rfl⟩
    cases f <;> rfl

theorem rule_table_eq_some_iff :
    rule (.table entries) = some p ↔ (∀ e ∈ entries, ∃ f : Field, e.1 = f.name) ∧
      ∀ f : Field, field entries f.name = some (p.value? f) := by
  have hnames : (entries.all fun e => e.1 == "template" || e.1 == "glob" || e.1 == "slot") = true ↔
      ∀ e ∈ entries, ∃ f : Field, e.1 = f.name := by
    simp only [List.all_eq_true, isFieldName_iff]
  rw [← hnames]
  constructor
  · intro h
    obtain ⟨_, hguard, h⟩ := Option.bind_eq_some_iff.mp h
    obtain ⟨template, htemplate, h⟩ := Option.bind_eq_some_iff.mp h
    obtain ⟨glob, hglob, h⟩ := Option.bind_eq_some_iff.mp h
    obtain ⟨slot, hslot, h⟩ := Option.bind_eq_some_iff.mp h
    obtain rfl := Option.some.inj h
    refine ⟨(Option.guard_eq_some' _).mp hguard, fun f => ?_⟩
    cases f
    exacts [htemplate, hglob, hslot]
  · rintro ⟨hguard, hfield⟩
    have htemplate : field entries "template" = some p.template := hfield .template
    have hglob : field entries "glob" = some p.glob := hfield .glob
    have hslot : field entries "slot" = some p.slot := hfield .slot
    simp [rule, guard, hguard, htemplate, hglob, hslot]

theorem rule_eq_some_iff {v : Value} (hv : v.Distinct) : rule v = some p ↔ RuleReading v p := by
  cases hv with
  | table hkeys _ =>
      rw [rule_table_eq_some_iff]
      constructor
      · rintro ⟨hnames, hfield⟩
        refine .table (.table (fun e he => ?_) fun f => ((field_eq_some_iff hkeys).mp (hfield f)).2)
        obtain ⟨f, hf⟩ := hnames e he
        obtain ⟨s, hs⟩ := ((field_eq_some_iff hkeys).mp (hfield f)).1 e.2 (hf ▸ he)
        exact ⟨f, s, Prod.ext hf hs⟩
      · rintro ⟨⟨heach, hholds⟩⟩
        refine ⟨fun e he => ?_, fun f => (field_eq_some_iff hkeys).mpr ⟨fun v hv => ?_, hholds f⟩⟩
        · obtain ⟨f, s, rfl⟩ := heach e he
          exact ⟨f, rfl⟩
        · obtain ⟨_, s, hs⟩ := heach _ hv
          exact ⟨s, (Prod.mk.inj hs).2⟩
  | array _ =>
      constructor
      · intro h
        unfold rule at h
        split at h
        case h_1 heq => cases heq
        case h_2 heq =>
            obtain rfl := Option.some.inj h
            cases heq
            exact .array ..
        case h_3 => cases h
      · intro h
        cases h with
        | table form => cases form
        | array => rfl
  | text _ | number _ | boolean _ | moment _ =>
      constructor
      · intro h
        cases h
      · intro h
        cases h with
        | table form => cases form

end Rules

theorem declaration_eq_some_iff {v : Value} (hv : v.Distinct) {d : Declaration} :
    declaration v = some d ↔ DeclarationReading v d := by
  cases hv with
  | text s =>
      constructor
      · intro h
        obtain rfl := Option.some.inj h
        exact .form (.text s)
      · rintro ⟨⟨⟩⟩
        rfl
  | moment m =>
      constructor
      · intro h
        obtain rfl := Option.some.inj h
        exact .moment m
      · intro h
        cases h with
        | form form => cases form
        | moment => rfl
  | table hkeys _ =>
      have hread {pairs : KeyMap String} := readTable_eq_some_iff (m := pairs) hkeys
        fun _ _ _ => text?_eq_some_iff
      constructor
      · intro h
        obtain ⟨pairs, hpairs, rfl⟩ := Option.map_eq_some_iff.mp h
        exact .form (.table (hread.mp hpairs))
      · rintro ⟨_ | form⟩
        exact Option.map_eq_some_iff.mpr ⟨_, hread.mpr form, rfl⟩
  | number _ | boolean _ | array _ =>
      constructor
      · intro h
        cases h
      · rintro ⟨⟨⟩⟩

theorem forall₂_congr {β : Type} {R S : α → β → Prop} {as : List α} {bs : List β}
    (h : ∀ a ∈ as, ∀ b, R a b ↔ S a b) : List.Forall₂ R as bs ↔ List.Forall₂ S as bs := by
  induction as generalizing bs with
  | nil => simp
  | cons a as ih =>
      rw [List.forall_mem_cons] at h
      simp only [List.forall₂_cons_left_iff, h.1, ih h.2]

theorem declarations_eq_some_iff {v : Value} {ds : List Declaration} (hv : v.Distinct) :
    declarations v = some ds ↔ Lists DeclarationReading v ds := by
  cases hv with
  | @array items each =>
      have hread : List.Forall₂ (fun w d => declaration w = some d) items ds ↔
          List.Forall₂ DeclarationReading items ds :=
        forall₂_congr fun w hw _ => declaration_eq_some_iff (each w hw)
      constructor
      · intro h
        exact .array (hread.mp (Fallible.mapM_eq_some_iff.mp h))
      · rintro ⟨h⟩
        exact Fallible.mapM_eq_some_iff.mpr (hread.mpr h)
  | text _ | number _ | boolean _ | moment _ | table _ _ =>
      constructor
      · intro h
        cases h
      · rintro ⟨⟩

theorem section?_eq_some_iff {read : Value → Option α} {R : Value → α → Prop} {doc : Entries}
    (hdoc : doc.Distinct) (hread : ∀ v a, v.Distinct → (read v = some a ↔ R v a)) {name : String}
    {m : KeyMap α} : (section? read doc name = some m) ↔ Section (Tabulates R) doc name m := by
  unfold section?
  cases h : doc.lookup name with
  | none =>
      have hnot : name ∉ doc.map Prod.fst := KeyMap.lookup_eq_none_iff.mp h
      constructor
      · intro hm
        exact ⟨fun v hv => absurd (List.mem_map_of_mem hv) hnot, fun _ => (Option.some.inj hm).symm⟩
      · intro hm
        rw [hm.absent hnot]
  | some v =>
      have hmem : (name, v) ∈ doc := (KeyMap.lookup_eq_some_iff hdoc.keys).mp h
      have hvalue : readTable read v = some m ↔ Tabulates R v m := by
        have hv : v.Distinct := hdoc.each _ hmem
        cases hv with
        | table hkeys each =>
            exact readTable_eq_some_iff hkeys fun e he a => hread e.2 a (each e he)
        | _ =>
            constructor
            · intro hnone
              cases hnone
            · rintro ⟨⟩
      rw [hvalue]
      constructor
      · intro hm
        refine ⟨fun w hw => ?_, fun hnot => absurd (List.mem_map_of_mem hmem) hnot⟩
        obtain rfl := Option.some.inj (h.symm.trans ((KeyMap.lookup_eq_some_iff hdoc.keys).mpr hw))
        exact hm
      · exact fun hm => hm.present v hmem

/-- The reader takes a document for a configuration exactly if the document states it. -/
theorem ofDocument_eq_some_iff {doc : Entries} (hdoc : doc.Distinct) {c : Config} :
    ofDocument doc = some c ↔ Reads doc c := by
  have hkeys : (doc.all fun e => e.1 == "stackers" || e.1 == "paths") = true ↔
      ∀ e ∈ doc, e.1 = "stackers" ∨ e.1 = "paths" := by
    simp
  have hrules {m : KeyMap Rule.Partial} : section? rule doc "stackers" = some m ↔
      Section (Tabulates RuleReading) doc "stackers" m := by
    exact section?_eq_some_iff hdoc fun _ _ => rule_eq_some_iff
  have hpaths {m : KeyMap (List Declaration)} : section? declarations doc "paths" = some m ↔
      Section (Tabulates (Lists DeclarationReading)) doc "paths" m := by
    exact section?_eq_some_iff hdoc fun _ _ => declarations_eq_some_iff
  constructor
  · intro h
    obtain ⟨_, hguard, h⟩ := Option.bind_eq_some_iff.mp h
    obtain ⟨overrides, hoverrides, h⟩ := Option.bind_eq_some_iff.mp h
    obtain ⟨paths, hpath, h⟩ := Option.bind_eq_some_iff.mp h
    obtain rfl := Option.some.inj h
    exact ⟨hkeys.mp ((Option.guard_eq_some' _).mp hguard), hrules.mp hoverrides, hpaths.mp hpath⟩
  · rintro ⟨hnames, hoverrides, hpath⟩
    simp [ofDocument, guard, hkeys.mpr hnames, hrules.mpr hoverrides, hpaths.mpr hpath]

end Config

end AssetSlots
