import AssetSlots.Proofs.Config.Form
import Mathlib

namespace AssetSlots.Config

open Toml

variable {α : Type} {R : Value → α → Prop} {P : Value → Prop} {v : Value}

/-- Some rule is written as an array, or some declaration as a date or time. -/
def Strays (doc : Entries) : Prop :=
  (∃ rules, ("stackers", .table rules) ∈ doc ∧ ∃ e ∈ rules, ∃ items, e.2 = .array items) ∨
    ∃ kinds, ("paths", .table kinds) ∈ doc ∧
      ∃ e ∈ kinds, ∃ items m, e.2 = .array items ∧ .moment m ∈ items

theorem tabulates_and_iff {m : KeyMap α} : Tabulates (fun w a => R w a ∧ P w) v m ↔
    Tabulates R v m ∧ ∀ entries, v = .table entries → ∀ e ∈ entries, P e.2 := by
  constructor
  · rintro ⟨heach, honly⟩
    refine ⟨.table (fun e he => ?_) honly, ?_⟩
    · obtain ⟨a, ha, hR, _⟩ := heach e he
      exact ⟨a, ha, hR⟩
    · rintro _ ⟨⟩ e he
      obtain ⟨_, _, _, hP⟩ := heach e he
      exact hP
  · rintro ⟨⟨heach, honly⟩, hP⟩
    refine .table (fun e he => ?_) honly
    obtain ⟨a, ha, hR⟩ := heach e he
    exact ⟨a, ha, hR, hP _ rfl e he⟩

theorem lists_and_iff {as : List α} : Lists (fun w a => R w a ∧ P w) v as ↔
    Lists R v as ∧ ∀ items, v = .array items → ∀ w ∈ items, P w := by
  constructor
  · rintro ⟨h⟩
    obtain ⟨hP, hR⟩ := (List.forall₂_and_left _ _).mp (h.imp fun _ _ => And.symm)
    exact ⟨.array hR, by rintro _ ⟨⟩; exact hP⟩
  · rintro ⟨⟨hR⟩, hP⟩
    exact .array (((List.forall₂_and_left _ _).mpr ⟨hP _ rfl, hR⟩).imp fun _ _ => And.symm)

theorem section_and_iff {R : Value → KeyMap α → Prop} {doc : Entries} {name : String}
    {m : KeyMap α} : Section (fun v m => R v m ∧ P v) doc name m ↔
      Section R doc name m ∧ ∀ v, (name, v) ∈ doc → P v := by
  constructor
  · exact fun h => ⟨⟨fun v hv => (h.present v hv).1, h.absent⟩, fun v hv => (h.present v hv).2⟩
  · exact fun h => ⟨fun v hv => ⟨h.1.present v hv, h.2 v hv⟩, h.1.absent⟩

theorem ruleForm_iff {p : Rule.Partial} :
    RuleForm v p ↔ RuleReading v p ∧ ∀ items, v ≠ .array items := by
  constructor
  · intro h
    refine ⟨.table h, ?_⟩
    rintro items rfl
    cases h
  · rintro ⟨h, hv⟩
    cases h with
    | table form => exact form
    | array => exact absurd rfl (hv _)

theorem declarationForm_iff {d : Declaration} :
    DeclarationForm v d ↔ DeclarationReading v d ∧ ∀ m, v ≠ .moment m := by
  constructor
  · intro h
    refine ⟨.form h, ?_⟩
    rintro m rfl
    cases h
  · rintro ⟨h, hv⟩
    cases h with
    | form form => exact form
    | moment => exact absurd rfl (hv _)

theorem not_strays_iff {doc : Entries} : ¬Strays doc ↔
    (∀ v, ("stackers", v) ∈ doc → ∀ rules, v = .table rules → ∀ e ∈ rules,
      ∀ items, e.2 ≠ .array items) ∧
    ∀ v, ("paths", v) ∈ doc → ∀ kinds, v = .table kinds → ∀ e ∈ kinds,
      ∀ items, e.2 = .array items → ∀ w ∈ items, ∀ m, w ≠ .moment m := by
  unfold Strays
  grind

/-- The documents of the form are those that are read and do not stray. -/
theorem hasForm_iff {doc : Entries} {c : Config} : HasForm doc c ↔ Reads doc c ∧ ¬Strays doc := by
  have hrule : RuleForm = fun v p => RuleReading v p ∧ ∀ items, v ≠ .array items := by
    funext v p
    exact propext ruleForm_iff
  have hdeclaration : DeclarationForm = fun v d => DeclarationReading v d ∧ ∀ m, v ≠ .moment m := by
    funext v d
    exact propext declarationForm_iff
  -- What is asked of every rule and declaration is carried up, level by level, to the document.
  have htables : Tabulates RuleForm = fun v m => Tabulates RuleReading v m ∧
      ∀ rules, v = .table rules → ∀ e ∈ rules, ∀ items, e.2 ≠ .array items := by
    funext v m
    rw [hrule]
    exact propext tabulates_and_iff
  have hlists : Lists DeclarationForm = fun v ds => Lists DeclarationReading v ds ∧
      ∀ items, v = .array items → ∀ w ∈ items, ∀ m, w ≠ .moment m := by
    funext v ds
    rw [hdeclaration]
    exact propext lists_and_iff
  have hlistTables : Tabulates (Lists DeclarationForm) = fun v m =>
      Tabulates (Lists DeclarationReading) v m ∧ ∀ kinds, v = .table kinds → ∀ e ∈ kinds,
        ∀ items, e.2 = .array items → ∀ w ∈ items, ∀ m, w ≠ .moment m := by
    funext v m
    rw [hlists]
    exact propext tabulates_and_iff
  rw [not_strays_iff]
  constructor
  · rintro ⟨hkeys, hoverrides, hpaths⟩
    rw [htables] at hoverrides
    rw [hlistTables] at hpaths
    obtain ⟨hoverrides, hrules⟩ := section_and_iff.mp hoverrides
    obtain ⟨hpaths, hdeclarations⟩ := section_and_iff.mp hpaths
    exact ⟨⟨hkeys, hoverrides, hpaths⟩, hrules, hdeclarations⟩
  · rintro ⟨⟨hkeys, hoverrides, hpaths⟩, hrules, hdeclarations⟩
    refine ⟨hkeys, ?_, ?_⟩
    · rw [htables]
      exact section_and_iff.mpr ⟨hoverrides, hrules⟩
    · rw [hlistTables]
      exact section_and_iff.mpr ⟨hpaths, hdeclarations⟩

theorem parse_of_reads {text path : String} {doc : Entries} (hdoc : Toml.parse text = some doc)
    {c : Config} (h : Reads doc c) : parse path text = c.validate.map fun _ => c := by
  have hread : ofDocument doc = some c := (ofDocument_eq_some_iff (distinct_of_parse hdoc)).mpr h
  simp only [parse, hdoc, Option.bind_some, hread]
  cases c.validate <;> rfl

theorem parse_of_not_reads {text path : String} {doc : Entries}
    (hdoc : Toml.parse text = some doc) (h : ¬∃ c, Reads doc c) :
    parse path text = .error (.configMalformed path) := by
  have hread : ofDocument doc = none := by
    rw [Option.eq_none_iff_forall_ne_some]
    exact fun c hc => h ⟨c, (ofDocument_eq_some_iff (distinct_of_parse hdoc)).mp hc⟩
  simp only [parse, hdoc, Option.bind_some, hread]

theorem parse_eq_malformed_iff {text : String} {doc : Entries} (hdoc : Toml.parse text = some doc)
    (path : String) : parse path text = .error (.configMalformed path) ↔ ¬∃ c, Reads doc c := by
  refine ⟨?_, parse_of_not_reads hdoc⟩
  rintro hparse ⟨c, hc⟩
  rw [parse_of_reads hdoc hc] at hparse
  cases validate_error (Fallible.error_of_map hparse)

/-- A document of the form is accepted for what it states, with no more than the mistakes that are
found in that. Those that stray and are read are accepted too, and none besides. -/
theorem parse_hasForm_iff {text : String} {doc : Entries} (hdoc : Toml.parse text = some doc)
    (path : String) :
    ((parse path text ≠ .error (.configMalformed path) ↔ ∃ c, HasForm doc c) ↔
        ¬(Strays doc ∧ ∃ c, Reads doc c)) ∧
      (parse path text ≠ .error (.configMalformed path) ↔ ∃ c, Reads doc c) ∧
      (∀ c, HasForm doc c ↔ Reads doc c ∧ ¬Strays doc) ∧
      ∀ c, Reads doc c → parse path text = c.validate.map fun _ => c := by
  have hread : parse path text ≠ .error (.configMalformed path) ↔ ∃ c, Reads doc c := by
    rw [ne_eq, parse_eq_malformed_iff hdoc, not_not]
  refine ⟨?_, hread, fun c => hasForm_iff, fun c => parse_of_reads hdoc⟩
  simp only [hread, hasForm_iff, exists_and_right]
  tauto

def plainText : String :=
  "[stackers.css]\nglob = \"*.css\"\n[paths]\ncss = [\"a\", \x7b b = \"c\" \x7d]\n"

def plainDocument : Entries :=
  [("stackers", .table [("css", .table [("glob", .text "*.css")])]),
    ("paths", .table [("css", .array [.text "a", .table [("b", .text "c")]])])]

def plainConfig : Config :=
  ⟨.ofList [("css", ⟨none, some "*.css", none⟩)],
    .ofList [("css", [.shared "a", .mapping (.ofList [("b", "c")])])]⟩

theorem parse_hasForm_iff_plain : Toml.parse plainText = some plainDocument ∧
    HasForm plainDocument plainConfig ∧ parse "plain.toml" plainText = .ok plainConfig := by
  have hdoc : Toml.parse plainText = some plainDocument := by cbv
  have hreads : Reads plainDocument plainConfig := by
    rw [← ofDocument_eq_some_iff (distinct_of_parse hdoc)]
    rfl
  have hstraight : ¬Strays plainDocument := by simp [Strays, plainDocument]
  obtain ⟨_, _, hform, hparse⟩ := parse_hasForm_iff hdoc "plain.toml"
  exact ⟨hdoc, (hform plainConfig).mpr ⟨hreads, hstraight⟩, hparse plainConfig hreads⟩

def dateText : String := "[paths]\ncss = [1979-05-27]\n"

def dateDocument : Entries := [("paths", .table [("css", .array [.moment (.date ⟨1979, 5, 27⟩)])])]

/-- A date is accepted for a declaration, although the document does not have the form. -/
theorem date_is_accepted : Toml.parse dateText = some dateDocument ∧
    ¬(parse "date.toml" dateText ≠ .error (.configMalformed "date.toml") ↔
      ∃ c, HasForm dateDocument c) := by
  have hdoc : Toml.parse dateText = some dateDocument := by cbv
  have hstrays : Strays dateDocument := by simp [Strays, dateDocument]
  have hread : ofDocument dateDocument = some ⟨.empty, .ofList
      [("css", [.mapping (KeyMap.empty.insert momentKey (Moment.date ⟨1979, 5, 27⟩).text)])]⟩ := by
    rfl
  refine ⟨hdoc, fun hiff => ?_⟩
  obtain ⟨c, hform⟩ := hiff.mp fun hparse => (parse_eq_malformed_iff hdoc _).mp hparse
    ⟨_, (ofDocument_eq_some_iff (distinct_of_parse hdoc)).mp hread⟩
  exact (hasForm_iff.mp hform).2 hstrays

end AssetSlots.Config
