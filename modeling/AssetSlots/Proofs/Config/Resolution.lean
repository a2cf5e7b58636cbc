import AssetSlots.Config
import AssetSlots.Proofs.Fallible
import AssetSlots.Proofs.MountTable.Steps

namespace AssetSlots

variable {kind : String} {e : Error}

theorem Rule.Partial.require_error {field : Field} {value : Option String}
    (h : require kind field value = .error e) : e = .incompleteRule kind field := by
  unfold require at h
  split at h
  · exact (Except.error.inj h).symm
  · cases h
  · exact (Except.error.inj h).symm

theorem Rule.Partial.complete_error {p : Rule.Partial} (h : p.complete kind = .error e) :
    ∃ field, e = .incompleteRule kind field := by
  rcases Fallible.error_of_bind h with h | ⟨_, _, h⟩
  · exact ⟨_, require_error h⟩
  · rcases Fallible.error_of_bind h with h | ⟨_, _, h⟩
    · exact ⟨_, require_error h⟩
    · rcases Fallible.error_of_bind h with h | ⟨_, _, h⟩
      · exact ⟨_, require_error h⟩
      · cases h

theorem RuleSet.overlay_error {s : RuleSet} {overrides : KeyMap Rule.Partial}
    (h : s.overlay overrides = .error e) :
    ∃ kind ∈ overrides.keys, ∃ field, e = .incompleteRule kind field := by
  obtain ⟨⟨kind, p⟩, hmem, set, hstep⟩ := Fallible.error_of_foldlM h
  refine ⟨kind, List.mem_map_of_mem hmem, ?_⟩
  cases hfind : set.find? kind with
  | some rule => simp only [hfind, reduceCtorEq] at hstep
  | none =>
      simp only [hfind] at hstep
      exact Rule.Partial.complete_error (Fallible.error_of_map hstep)

theorem MountTable.declare_error {t : MountTable} {d : Declaration}
    (h : t.declare kind d = .error e) : ∃ count, e = .declaration kind count := by
  rw [declare_eq] at h
  split at h
  · cases h
  · exact ⟨_, (Except.error.inj h).symm⟩

theorem MountTable.ofDeclarations_error {ds : KeyMap (List Declaration)}
    (h : ofDeclarations ds = .error e) :
    ∃ kind ∈ ds.keys, ∃ count, e = .declaration kind count := by
  rw [ofDeclarations_eq_foldlM] at h
  obtain ⟨⟨kind, list⟩, hmem, t, hstep⟩ := Fallible.error_of_foldlM h
  obtain ⟨d, _, t', hdeclare⟩ := Fallible.error_of_foldlM hstep
  exact ⟨kind, List.mem_map_of_mem hmem, declare_error hdeclare⟩

namespace Config

variable {c : Config} {source : Option String}

inductive IsMistake : Error → Prop
  | incompleteRule (kind : String) (field : Field) : IsMistake (.incompleteRule kind field)
  | declaration (kind : String) (count : Nat) : IsMistake (.declaration kind count)

theorem resolve_error (h : c.resolve source = .error e) : IsMistake e := by
  rcases Fallible.error_of_bind h with h | ⟨_, _, h⟩
  · obtain ⟨kind, _, field, rfl⟩ := RuleSet.overlay_error h
    exact .incompleteRule kind field
  · rcases Fallible.error_of_bind h with h | ⟨_, _, h⟩
    · obtain ⟨kind, _, count, rfl⟩ := MountTable.ofDeclarations_error h
      exact .declaration kind count
    · cases h

theorem resolve_eq_map (c : Config) (source : Option String) :
    c.resolve source = (c.resolve none).map fun s => { s with source := source } := by
  unfold resolve
  cases RuleSet.builtin.overlay c.overrides with
  | error e => rfl
  | ok rules => cases MountTable.ofDeclarations c.paths <;> rfl

theorem validate_eq_map (c : Config) : c.validate = (c.resolve none).map fun _ => () := by
  unfold validate
  cases c.resolve none <;> rfl

theorem validate_error (h : c.validate = .error e) : IsMistake e := by
  rw [validate_eq_map] at h
  exact resolve_error (Fallible.error_of_map h)

theorem exists_resolve_of_validate (h : c.validate = .ok ()) (source : Option String) :
    ∃ s, c.resolve source = .ok s ∧ s.source = source := by
  rw [validate_eq_map] at h
  obtain ⟨s, hs, _⟩ := Fallible.of_map h
  refine ⟨{ s with source := source }, ?_, rfl⟩
  rw [resolve_eq_map, hs]
  rfl

end Config

end AssetSlots
