import AssetSlots.Proofs.Fallible
import AssetSlots.Proofs.KeyMap.Rows
import AssetSlots.Proofs.Lists
import AssetSlots.RuleSet

namespace AssetSlots.RuleSet

inductive Edit where
  | insert (kind : String) (rule : Rule)
  | overlay (overrides : KeyMap Rule.Partial)
  deriving DecidableEq

def Edit.kinds : Edit → List String
  | insert kind _ => [kind]
  | overlay overrides => overrides.keys

def edit (s : RuleSet) : Edit → Except Error RuleSet
  | .insert kind rule => .ok (s.insert kind rule)
  | .overlay overrides => s.overlay overrides

def edited (s : RuleSet) (edits : List Edit) : Except Error RuleSet := edits.foldlM edit s

theorem mem_entries_iff {s : RuleSet} {kind : String} {rule : Rule} :
    (kind, rule) ∈ s.entries ↔ s.find? kind = some rule :=
  (KeyMap.lookup_eq_some_iff s.nodup).symm

theorem eraseDups_kinds (s : RuleSet) : s.kinds.eraseDups = s.kinds :=
  Lists.eraseDups_of_nodup s.nodup

/-- What was named before can be told from the kinds alone. -/
theorem eraseDups_kinds_append_of {s : RuleSet} {named : List String}
    (h : s.kinds = named.eraseDups) (more : List String) :
    (s.kinds ++ more).eraseDups = (named ++ more).eraseDups := by
  have hremove : more.removeAll s.kinds = more.removeAll named := by
    apply List.filter_congr
    intro k _
    have hmem : k ∈ s.kinds ↔ k ∈ named := by rw [h, List.mem_eraseDups]
    simp [hmem]
  rw [List.eraseDups_append, List.eraseDups_append, eraseDups_kinds, hremove, h]

theorem kinds_insert_eq_eraseDups (s : RuleSet) (kind : String) (rule : Rule) :
    (s.insert kind rule).kinds = (s.kinds ++ [kind]).eraseDups := by
  rw [kinds_insert, Lists.eraseDups_concat, eraseDups_kinds]

/-- The induction over a run of changes, for changes of any form. -/
theorem kinds_foldlM {α : Type} {change : RuleSet → α → Except Error RuleSet}
    {named : α → List String}
    {changes : List α} {s t : RuleSet} (h : changes.foldlM change s = .ok t)
    (hchange : ∀ s a t, change s a = .ok t → t.kinds = (s.kinds ++ named a).eraseDups) :
    t.kinds = (s.kinds ++ changes.flatMap named).eraseDups := by
  induction changes generalizing s with
  | nil =>
      obtain rfl : s = t := Except.ok.inj h
      simp [eraseDups_kinds]
  | cons a as ih =>
      obtain ⟨s', hs, hrest⟩ := Fallible.of_foldlM_cons h
      rw [ih hrest, eraseDups_kinds_append_of (hchange s a s' hs), List.flatMap_cons,
        List.append_assoc]

theorem kinds_overlay {s t : RuleSet} {overrides : KeyMap Rule.Partial}
    (h : s.overlay overrides = .ok t) : t.kinds = (s.kinds ++ overrides.keys).eraseDups := by
  rw [show overrides.keys = overrides.entries.flatMap fun e => [e.1] from
    List.map_eq_flatMap ..]
  apply kinds_foldlM h
  intro set ⟨kind, p⟩ set' hset
  cases hfind : set.find? kind with
  | some rule =>
      simp only [hfind] at hset
      obtain rfl := Except.ok.inj hset
      exact kinds_insert_eq_eraseDups set kind _
  | none =>
      simp only [hfind] at hset
      obtain ⟨rule, _, rfl⟩ := Fallible.of_map hset
      exact kinds_insert_eq_eraseDups set kind rule

theorem kinds_edit {s t : RuleSet} {e : Edit} (h : s.edit e = .ok t) :
    t.kinds = (s.kinds ++ e.kinds).eraseDups := by
  cases e with
  | insert kind rule =>
      obtain rfl := Except.ok.inj h
      exact kinds_insert_eq_eraseDups s kind rule
  | overlay overrides => exact kinds_overlay h

/-- The kinds of the set one started from come first, then the new ones in the order in which they
were named. -/
theorem kinds_edited {s t : RuleSet} {edits : List Edit} (h : s.edited edits = .ok t) :
    t.kinds = (s.kinds ++ edits.flatMap Edit.kinds).eraseDups := by
  unfold edited at h
  exact kinds_foldlM h fun _ _ _ => kinds_edit

end AssetSlots.RuleSet
