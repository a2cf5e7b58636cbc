import AssetSlots.Proofs.RuleSet.Overlay

namespace AssetSlots.RuleSet

variable {s t u : RuleSet} {kind : String} {o p : KeyMap Rule.Partial}

theorem entries_eq (s : RuleSet) :
    s.entries = s.kinds.map fun k => (k, (s.find? k).getD .blank) := by
  rw [kinds, List.map_map]
  conv => lhs; rw [← List.map_id s.entries]
  apply List.map_congr_left
  intro e he
  rw [Function.comp_apply, mem_entries_iff.mp he]
  rfl

theorem find?_eq_of_value? (h : ∀ f, s.value? kind f = t.value? kind f) :
    s.find? kind = t.find? kind := by
  unfold value? at h
  cases hs : s.find? kind with
  | none =>
      rw [hs] at h
      exact (Option.map_eq_none_iff.mp (h .template).symm).symm
  | some r =>
      rw [hs] at h
      obtain ⟨r', hr', -⟩ := Option.map_eq_some_iff.mp (h .template).symm
      rw [hr'] at h ⊢
      exact congrArg some (Rule.ext_value fun f => Option.some.inj (h f))

/-- A set is its kinds in their order and their rules. -/
theorem ext_find? (hkinds : s.kinds = t.kinds) (h : ∀ kind, s.find? kind = t.find? kind) :
    s = t := by
  have hentries : s.entries = t.entries := by
    rw [entries_eq, entries_eq t, hkinds]
    apply List.map_congr_left
    intro k _
    rw [h k]
  obtain ⟨es, hes⟩ := s
  obtain ⟨fs, hfs⟩ := t
  obtain rfl : es = fs := hentries
  rfl

theorem ext_value? (hkinds : s.kinds = t.kinds)
    (h : ∀ kind f, s.value? kind f = t.value? kind f) : s = t :=
  ext_find? hkinds fun kind => find?_eq_of_value? (h kind)

theorem mem_kinds_overlay (h : s.overlay o = .ok t) {k : String} :
    k ∈ t.kinds ↔ k ∈ s.kinds ∨ k ∈ o.keys := by
  rw [kinds_overlay_eq_append h, List.mem_append, mem_added_iff]
  tauto

theorem overlay_again (h : s.overlay o = .ok t) : t.overlay o = .ok t := by
  have hknown : ∀ k ∈ o.keys, k ∈ t.kinds := fun k hk => (mem_kinds_overlay h).mpr (.inr hk)
  obtain ⟨t', h'⟩ := exists_overlay_iff.mpr fun k (hk : t.Incomplete o k) =>
    hk.1 (hknown k hk.mem_keys)
  have hadded : t.added o = [] :=
    List.filter_eq_nil_iff.mpr fun k hk => by simpa using hknown k hk
  have heq : t' = t := by
    apply ext_value?
    · rw [kinds_overlay_eq_append h', hadded, List.append_nil]
    · intro kind f
      rw [value?_overlay h', value?_overlay h, ← Option.or_assoc, Option.or_self]
  rw [h', heq]

section Apart

variable (hapart : ∀ k ∈ o.keys, k ∉ p.keys)
include hapart

theorem mem_kinds_overlay_apart (h : s.overlay o = .ok t) (hk : kind ∈ p.keys) :
    kind ∈ t.kinds ↔ kind ∈ s.kinds := by
  rw [mem_kinds_overlay h, or_iff_left fun ho => hapart kind ho hk]

theorem incomplete_overlay_iff (h : s.overlay o = .ok t) :
    t.Incomplete p kind ↔ s.Incomplete p kind := by
  constructor
  · intro hk
    exact ⟨fun hmem => hk.1 ((mem_kinds_overlay_apart hapart h hk.mem_keys).mpr hmem), hk.2⟩
  · intro hk
    exact ⟨fun hmem => hk.1 ((mem_kinds_overlay_apart hapart h hk.mem_keys).mp hmem), hk.2⟩

theorem added_overlay (h : s.overlay o = .ok t) : t.added p = s.added p := by
  apply List.filter_congr
  intro k hk
  exact decide_eq_decide.mpr (mem_kinds_overlay_apart hapart h hk).not

theorem exists_overlay_bind_iff : (∃ t, s.overlay o >>= (·.overlay p) = .ok t) ↔
    (∀ k, ¬s.Incomplete o k) ∧ ∀ k, ¬s.Incomplete p k := by
  constructor
  · rintro ⟨u, h⟩
    obtain ⟨t, ht, hu⟩ := Fallible.of_bind h
    refine ⟨exists_overlay_iff.mp ⟨t, ht⟩, fun k => ?_⟩
    rw [← incomplete_overlay_iff hapart ht]
    exact exists_overlay_iff.mp ⟨u, hu⟩ k
  · rintro ⟨ho, hp⟩
    obtain ⟨t, ht⟩ := exists_overlay_iff.mpr ho
    obtain ⟨u, hu⟩ := exists_overlay_iff.mpr fun k =>
      (incomplete_overlay_iff hapart ht).not.mpr (hp k)
    exact ⟨u, by rw [ht]; exact hu⟩

theorem kinds_overlay_bind (h : s.overlay o >>= (·.overlay p) = .ok t) :
    t.kinds = s.kinds ++ (s.added o ++ s.added p) := by
  obtain ⟨s', hs', ht⟩ := Fallible.of_bind h
  rw [kinds_overlay_eq_append ht, kinds_overlay_eq_append hs', added_overlay hapart hs',
    List.append_assoc]

theorem stated_or_comm (kind : String) (f : Field) :
    (stated o kind f).or (stated p kind f) = (stated p kind f).or (stated o kind f) := by
  cases ho : o.find? kind with
  | none => simp [stated, ho]
  | some r =>
      have hmem : kind ∈ o.keys := by rw [KeyMap.mem_keys_iff, ho]; rfl
      have hp : p.find? kind = none := by
        rw [← Option.not_isSome_iff_eq_none, ← KeyMap.mem_keys_iff]
        exact hapart kind hmem
      simp [stated, hp]

/-- What two overlays that name different kinds come to, in either order. -/
theorem overlay_apart (ht : s.overlay o >>= (·.overlay p) = .ok t)
    (hu : s.overlay p >>= (·.overlay o) = .ok u) (kind : String) : t.find? kind = u.find? kind := by
  obtain ⟨t', ht', ht⟩ := Fallible.of_bind ht
  obtain ⟨u', hu', hu⟩ := Fallible.of_bind hu
  apply find?_eq_of_value?
  intro f
  rw [value?_overlay ht, value?_overlay ht', value?_overlay hu, value?_overlay hu',
    ← Option.or_assoc, ← Option.or_assoc, stated_or_comm hapart]

end Apart

/-- An overlay is idempotent, and two that name different kinds commute up to the places of the
kinds that they add. -/
theorem overlay_layers (s : RuleSet) (o : KeyMap Rule.Partial) :
    (∀ t, s.overlay o = .ok t → t.overlay o = .ok t) ∧
      ∀ p : KeyMap Rule.Partial, (∀ k ∈ o.keys, k ∉ p.keys) →
        ((∃ t, s.overlay o >>= (·.overlay p) = .ok t) ↔
            ∃ u, s.overlay p >>= (·.overlay o) = .ok u) ∧
          ∀ t u, s.overlay o >>= (·.overlay p) = .ok t → s.overlay p >>= (·.overlay o) = .ok u →
            (∀ kind, t.find? kind = u.find? kind) ∧
              t.kinds = s.kinds ++ (s.added o ++ s.added p) ∧
              u.kinds = s.kinds ++ (s.added p ++ s.added o) := by
  refine ⟨fun t => overlay_again, fun p hapart => ?_⟩
  have hapart' : ∀ k ∈ p.keys, k ∉ o.keys := fun k hp ho => hapart k ho hp
  refine ⟨?_, fun t u ht hu => ⟨overlay_apart hapart ht hu, kinds_overlay_bind hapart ht,
    kinds_overlay_bind hapart' hu⟩⟩
  rw [exists_overlay_bind_iff hapart, exists_overlay_bind_iff hapart', and_comm]

def fonts : KeyMap Rule.Partial :=
  .ofList [("font", ⟨some "%s", some "*.woff2", some "F"⟩), ("css", ⟨none, some "", none⟩)]

def images : KeyMap Rule.Partial :=
  .ofList [("javascript", ⟨none, none, some "J"⟩), ("img", ⟨some "<%s>", some "*.svg", some "I"⟩)]

theorem overlay_layers_fonts_images :
    (∀ k ∈ fonts.keys, k ∉ images.keys) ∧
      ∃ s t u, builtin.overlay fonts = .ok s ∧ s.overlay fonts = .ok s ∧
        s.overlay images = .ok t ∧ builtin.overlay images >>= (·.overlay fonts) = .ok u ∧
        t.kinds = ["javascript", "css", "font", "img"] ∧
        u.kinds = ["javascript", "css", "img", "font"] ∧
        ∀ kind, t.find? kind = u.find? kind := by
  have hapart : ∀ k ∈ fonts.keys, k ∉ images.keys := by decide
  obtain ⟨hagain, hlayers⟩ := overlay_layers builtin fonts
  obtain ⟨hiff, hsame⟩ := hlayers images hapart
  obtain ⟨t, ht⟩ : ∃ t, builtin.overlay fonts >>= (·.overlay images) = .ok t := ⟨_, rfl⟩
  obtain ⟨u, hu⟩ := hiff.mp ⟨t, ht⟩
  obtain ⟨s, hs, hst⟩ := Fallible.of_bind ht
  obtain ⟨hfind, htk, huk⟩ := hsame t u ht hu
  exact ⟨hapart, s, t, u, hs, hagain s hs, hst, hu, htk, huk, hfind⟩

end AssetSlots.RuleSet
