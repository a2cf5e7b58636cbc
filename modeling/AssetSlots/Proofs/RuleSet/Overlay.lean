import AssetSlots.Proofs.KeyMap.Rows
import AssetSlots.Proofs.Rule.Fields
import AssetSlots.Proofs.RuleSet.Registration
import Mathlib

namespace AssetSlots.RuleSet

variable {s t : RuleSet} {overrides : KeyMap Rule.Partial} {kind : String} {p : Rule.Partial}

def value? (s : RuleSet) (kind : String) (f : Field) : Option String :=
  (s.find? kind).map (·.value f)

def stated (overrides : KeyMap Rule.Partial) (kind : String) (f : Field) : Option String :=
  (overrides.find? kind).bind (·.value? f)

def Fits (s : RuleSet) (kind : String) (p : Rule.Partial) : Prop := kind ∈ s.kinds ∨ p.Full

instance : Decidable (s.Fits kind p) := inferInstanceAs (Decidable (_ ∨ _))

def Incomplete (s : RuleSet) (overrides : KeyMap Rule.Partial) (kind : String) : Prop :=
  kind ∉ s.kinds ∧ ∃ p, overrides.find? kind = some p ∧ ¬p.Full

def added (s : RuleSet) (overrides : KeyMap Rule.Partial) : List String :=
  overrides.keys.filter fun k => decide (k ∉ s.kinds)

def lay (s : RuleSet) (kind : String) (p : Rule.Partial) : RuleSet :=
  s.insert kind (((s.find? kind).getD .blank).overlaid p)

def layAll (s : RuleSet) (rows : List (String × Rule.Partial)) : RuleSet :=
  rows.foldl (fun s e => s.lay e.1 e.2) s

def layOne (s : RuleSet) (kind : String) (p : Rule.Partial) : Except Error RuleSet :=
  match s.find? kind with
  | some rule => .ok (s.insert kind (rule.overlaid p))
  | none => s.insert kind <$> p.complete kind

theorem overlay_eq_foldlM (s : RuleSet) (overrides : KeyMap Rule.Partial) :
    s.overlay overrides = overrides.entries.foldlM (fun s e => s.layOne e.1 e.2) s := rfl

theorem find?_eq_none_iff : s.find? kind = none ↔ kind ∉ s.kinds := KeyMap.lookup_eq_none_iff

theorem exists_find?_of_mem (h : kind ∈ s.kinds) : ∃ rule, s.find? kind = some rule := by
  rw [← not_not (a := kind ∈ s.kinds), ← find?_eq_none_iff] at h
  exact Option.ne_none_iff_exists'.mp h

theorem layOne_of_fits (h : s.Fits kind p) : s.layOne kind p = .ok (s.lay kind p) := by
  cases hfind : s.find? kind with
  | some rule => rw [layOne, lay, hfind]; rfl
  | none =>
      have hfull : p.Full := h.resolve_left (find?_eq_none_iff.mp hfind)
      rw [layOne, lay, hfind, Rule.Partial.complete_of_full kind hfull]
      rfl

theorem layOne_of_firstGap (h : kind ∉ s.kinds) {f : Field} (hf : p.firstGap = some f) :
    s.layOne kind p = .error (.incompleteRule kind f) := by
  rw [layOne, find?_eq_none_iff.mpr h, Rule.Partial.complete_of_firstGap kind hf]
  rfl

theorem kinds_lay (s : RuleSet) (kind : String) (p : Rule.Partial) :
    (s.lay kind p).kinds = if kind ∈ s.kinds then s.kinds else s.kinds ++ [kind] :=
  kinds_insert s kind _

theorem mem_kinds_lay {k : String} : k ∈ (s.lay kind p).kinds ↔ k ∈ s.kinds ∨ k = kind := by
  rw [kinds_lay]
  split <;> grind

/-- What fits the set still fits it with more kinds. -/
theorem Fits.lay {k : String} {q : Rule.Partial} (h : s.Fits k q) : (s.lay kind p).Fits k q :=
  h.imp_left fun hmem => mem_kinds_lay.mpr (.inl hmem)

theorem value?_lay (h : s.Fits kind p) (k : String) (f : Field) :
    (s.lay kind p).value? k f =
      if k = kind then (p.value? f).or (s.value? k f) else s.value? k f := by
  rw [value?, lay, find?_insert]
  split
  · next hk =>
    rw [hk, Option.map_some, Rule.value_overlaid, value?]
    cases hv : p.value? f with
    | some v => rfl
    | none =>
        have hmem : kind ∈ s.kinds := h.resolve_right fun hfull => hfull f (.inl hv)
        obtain ⟨rule, hrule⟩ := exists_find?_of_mem hmem
        rw [hrule]
        rfl
  · rfl

section Rows

variable {rows : List (String × Rule.Partial)}

theorem mem_kinds_layAll {k : String} :
    k ∈ (s.layAll rows).kinds ↔ k ∈ s.kinds ∨ k ∈ rows.map Prod.fst := by
  induction rows generalizing s with
  | nil => simp [layAll]
  | cons e es ih =>
      rw [layAll, List.foldl_cons, ← layAll, ih, mem_kinds_lay, List.map_cons, List.mem_cons,
        or_assoc]

theorem foldlM_layOne_of_fits (h : ∀ e ∈ rows, s.Fits e.1 e.2) :
    rows.foldlM (fun s e => s.layOne e.1 e.2) s = .ok (s.layAll rows) := by
  induction rows generalizing s with
  | nil => rfl
  | cons e es ih =>
      rw [List.forall_mem_cons] at h
      rw [List.foldlM_cons, layOne_of_fits h.1]
      exact ih fun e' he' => (h.2 e' he').lay

theorem value?_layAll (h : ∀ e ∈ rows, s.Fits e.1 e.2) (hn : (rows.map Prod.fst).Nodup)
    (k : String) (f : Field) :
    (s.layAll rows).value? k f = ((rows.lookup k).bind (·.value? f)).or (s.value? k f) := by
  induction rows generalizing s with
  | nil => rfl
  | cons e es ih =>
      rw [List.forall_mem_cons] at h
      obtain ⟨he, hes⟩ := List.nodup_cons.mp hn
      have hfits : ∀ e' ∈ es, (s.lay e.1 e.2).Fits e'.1 e'.2 := fun e' he' => (h.2 e' he').lay
      rw [layAll, List.foldl_cons, ← layAll, ih hfits hes, value?_lay h.1, KeyMap.lookup_cons]
      by_cases hk : k = e.1
      · rw [if_pos hk, if_pos hk, hk, KeyMap.lookup_eq_none_iff.mpr he]
        rfl
      · rw [if_neg hk, if_neg hk]

end Rows

theorem incomplete_of_not_fits {e : String × Rule.Partial} (he : e ∈ overrides.entries)
    (h : ¬s.Fits e.1 e.2) : s.Incomplete overrides e.1 := by
  rw [Fits, not_or] at h
  exact ⟨h.1, e.2, overrides.mem_entries_iff.mp he, h.2⟩

theorem forall_fits_iff :
    (∀ e ∈ overrides.entries, s.Fits e.1 e.2) ↔ ∀ kind, ¬s.Incomplete overrides kind := by
  constructor
  · rintro h kind ⟨hnew, p, hp, hgap⟩
    rcases h (kind, p) (overrides.mem_entries_iff.mpr hp) with hmem | hfull
    · exact hnew hmem
    · exact hgap hfull
  · intro h e he
    by_contra hnot
    exact h e.1 (incomplete_of_not_fits he hnot)

theorem overlay_of_complete (h : ∀ kind, ¬s.Incomplete overrides kind) :
    s.overlay overrides = .ok (s.layAll overrides.entries) :=
  foldlM_layOne_of_fits (forall_fits_iff.mpr h)

/-- The rows before the first one that does not fit are laid over the set, and it stops there. -/
theorem overlay_of_incomplete (h : IsLeast {k | s.Incomplete overrides k} kind)
    (hp : overrides.find? kind = some p) {f : Field} (hf : p.firstGap = some f) :
    s.overlay overrides = .error (.incompleteRule kind f) := by
  obtain ⟨⟨hnew, -⟩, hleast⟩ := h
  obtain ⟨before, after, hrows⟩ := List.append_of_mem (overrides.mem_entries_iff.mpr hp)
  have hsorted := overrides.sorted
  rw [hrows, List.pairwise_append] at hsorted
  have hlt : ∀ e ∈ before, e.1 < kind := fun e he => hsorted.2.2 e he (kind, p) List.mem_cons_self
  have hfits : ∀ e ∈ before, s.Fits e.1 e.2 := by
    intro e he
    by_contra hnot
    have hmem : e ∈ overrides.entries := hrows ▸ List.mem_append_left _ he
    have hle : kind ≤ e.1 := hleast (incomplete_of_not_fits hmem hnot)
    exact absurd (hlt e he) (not_lt_of_ge hle)
  have hstill : kind ∉ (s.layAll before).kinds := by
    rw [mem_kinds_layAll, not_or]
    refine ⟨hnew, fun hmem => ?_⟩
    obtain ⟨e, he, hkind⟩ := List.mem_map.mp hmem
    exact (hlt e he).ne hkind
  rw [overlay_eq_foldlM, hrows, List.foldlM_append, foldlM_layOne_of_fits hfits]
  change List.foldlM _ _ _ = _
  rw [List.foldlM_cons, layOne_of_firstGap hstill hf]
  rfl

theorem Incomplete.mem_keys (h : s.Incomplete overrides kind) : kind ∈ overrides.keys := by
  obtain ⟨-, p, hp, -⟩ := h
  rw [KeyMap.mem_keys_iff, hp]
  rfl

/-- The mistake that is reported, if there is one. -/
theorem exists_overlay_error (h : s.Incomplete overrides kind) :
    ∃ k p f, IsLeast {k | s.Incomplete overrides k} k ∧ overrides.find? k = some p ∧
      p.firstGap = some f ∧ s.overlay overrides = .error (.incompleteRule k f) := by
  obtain ⟨k, hk⟩ := overrides.exists_isLeast (fun k => Incomplete.mem_keys) h
  obtain ⟨-, p, hp, hgap⟩ := hk.1
  obtain ⟨f, hf⟩ := Rule.Partial.exists_firstGap hgap
  exact ⟨k, p, f, hk, hp, hf, overlay_of_incomplete hk hp hf⟩

theorem exists_overlay_iff :
    (∃ t, s.overlay overrides = .ok t) ↔ ∀ kind, ¬s.Incomplete overrides kind := by
  constructor
  · rintro ⟨t, h⟩ kind hkind
    obtain ⟨k, p, f, -, -, -, herror⟩ := exists_overlay_error hkind
    rw [herror] at h
    cases h
  · exact fun h => ⟨_, overlay_of_complete h⟩

theorem overlay_eq_error_iff {e : Error} : s.overlay overrides = .error e ↔
    ∃ k p f, IsLeast {k | s.Incomplete overrides k} k ∧ overrides.find? k = some p ∧
      p.firstGap = some f ∧ e = .incompleteRule k f := by
  constructor
  · intro h
    have hnot : ¬∀ kind, ¬s.Incomplete overrides kind := by
      intro hcomplete
      rw [overlay_of_complete hcomplete] at h
      cases h
    rw [not_forall_not] at hnot
    obtain ⟨kind, hkind⟩ := hnot
    obtain ⟨k, p, f, hk, hp, hf, herror⟩ := exists_overlay_error hkind
    exact ⟨k, p, f, hk, hp, hf, Except.error.inj (h.symm.trans herror)⟩
  · rintro ⟨k, p, f, hk, hp, hf, rfl⟩
    exact overlay_of_incomplete hk hp hf

theorem mem_added_iff {k : String} :
    k ∈ s.added overrides ↔ k ∈ overrides.keys ∧ k ∉ s.kinds := by
  rw [added, List.mem_filter, decide_eq_true_iff]

theorem nodup_added (s : RuleSet) (overrides : KeyMap Rule.Partial) : (s.added overrides).Nodup :=
  overrides.nodup_keys.filter _

theorem kinds_overlay_eq_append (h : s.overlay overrides = .ok t) :
    t.kinds = s.kinds ++ s.added overrides := by
  have hnew : overrides.keys.removeAll s.kinds = s.added overrides := by
    apply List.filter_congr
    intro k _
    simp
  rw [kinds_overlay h, List.eraseDups_append, eraseDups_kinds, hnew,
    Lists.eraseDups_of_nodup (s.nodup_added overrides)]

theorem value?_overlay (h : s.overlay overrides = .ok t) (kind : String) (f : Field) :
    t.value? kind f = (stated overrides kind f).or (s.value? kind f) := by
  have hcomplete := exists_overlay_iff.mp ⟨t, h⟩
  rw [overlay_of_complete hcomplete] at h
  obtain rfl := Except.ok.inj h
  exact value?_layAll (forall_fits_iff.mpr hcomplete) overrides.nodup_keys kind f

/-- An overlay comes out if every new kind is stated in full, and else with the first of those that
are not and its first field left out. The kinds of the set come first, then the new ones by name,
and what is stated wins field by field. -/
theorem overlay_exact (s : RuleSet) (overrides : KeyMap Rule.Partial) :
    ((∃ t, s.overlay overrides = .ok t) ↔
        ∀ kind p, overrides.find? kind = some p → kind ∉ s.kinds → p.Full) ∧
      (∀ e, s.overlay overrides = .error e ↔
        ∃ kind p f, IsLeast {k | s.Incomplete overrides k} kind ∧ overrides.find? kind = some p ∧
          p.firstGap = some f ∧ e = .incompleteRule kind f) ∧
      ∀ t, s.overlay overrides = .ok t →
        t.kinds.Nodup ∧
          t.kinds = s.kinds ++ s.added overrides ∧
          ∀ kind f, t.value? kind f = (stated overrides kind f).or (s.value? kind f) := by
  refine ⟨?_, fun e => overlay_eq_error_iff, fun t h => ?_⟩
  · rw [exists_overlay_iff]
    constructor
    · intro h kind p hp hnew
      by_contra hgap
      exact h kind ⟨hnew, p, hp, hgap⟩
    · rintro h kind ⟨hnew, p, hp, hgap⟩
      exact hgap (h kind p hp hnew)
  · exact ⟨t.nodup, kinds_overlay_eq_append h, value?_overlay h⟩

def patch : KeyMap Rule.Partial :=
  .ofList [("img", ⟨some "<%s>", some "*.svg", some "I"⟩), ("css", ⟨none, some "", none⟩),
    ("font", ⟨some "%s", some "*.woff2", some "F"⟩)]

def gaps : KeyMap Rule.Partial :=
  .ofList [("zip", ⟨none, none, none⟩), ("img", ⟨some "<%s>", some "", none⟩),
    ("css", ⟨some "", none, none⟩)]

theorem overlay_exact_patch :
    (∃ t, builtin.overlay patch = .ok t ∧ t.kinds = ["javascript", "css", "font", "img"] ∧
        t.value? "css" .glob = some "" ∧ t.value? "css" .slot = some "<!-- SLOT: CSS -->") ∧
      builtin.overlay gaps = .error (.incompleteRule "img" .glob) := by
  obtain ⟨hok, -, hshape⟩ := overlay_exact builtin patch
  obtain ⟨-, herror, -⟩ := overlay_exact builtin gaps
  have hfull : ∀ kind p, patch.find? kind = some p → kind ∉ builtin.kinds → p.Full := by
    intro kind p hp
    have hall : ∀ e ∈ patch.entries, e.1 ∉ builtin.kinds → e.2.Full := by decide
    exact hall (kind, p) (patch.mem_entries_iff.mpr hp)
  have hleast : IsLeast {k | builtin.Incomplete gaps k} "img" := by
    refine ⟨⟨by decide, _, rfl, by decide⟩, fun k hk => ?_⟩
    have hall : ∀ k ∈ gaps.keys, k ∉ builtin.kinds → "img" ≤ k := by decide
    exact hall k hk.mem_keys hk.1
  obtain ⟨t, ht⟩ := hok.mpr hfull
  obtain ⟨-, hkinds, hvalue⟩ := hshape t ht
  exact ⟨⟨t, ht, hkinds, hvalue "css" .glob, hvalue "css" .slot⟩,
    (herror _).mpr ⟨"img", ⟨some "<%s>", some "", none⟩, .glob, hleast, rfl, rfl, rfl⟩⟩

end AssetSlots.RuleSet
