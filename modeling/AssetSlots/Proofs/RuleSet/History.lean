import AssetSlots.Proofs.RuleSet.Layers

namespace AssetSlots.RuleSet

variable {s : RuleSet} {kind kind' : String} {rule rule' : Rule} {calls : List (String × Rule)}

def insertAll (s : RuleSet) (calls : List (String × Rule)) : RuleSet :=
  calls.foldl (fun s c => s.insert c.1 c.2) s

def Latest (calls : List (String × Rule)) (kind : String) (rule : Rule) : Prop :=
  ∃ before after, calls = before ++ (kind, rule) :: after ∧ kind ∉ after.map Prod.fst

theorem insertAll_concat (s : RuleSet) (calls : List (String × Rule)) (c : String × Rule) :
    s.insertAll (calls ++ [c]) = (s.insertAll calls).insert c.1 c.2 := by
  rw [insertAll, List.foldl_append]
  rfl

/-- To register rules is a run of changes that cannot fail. -/
theorem edited_insert (s : RuleSet) (calls : List (String × Rule)) :
    s.edited (calls.map fun c => .insert c.1 c.2) = .ok (s.insertAll calls) := by
  induction calls generalizing s with
  | nil => rfl
  | cons c calls ih =>
      rw [List.map_cons, edited, List.foldlM_cons]
      exact ih (s.insert c.1 c.2)

theorem kinds_insertAll (s : RuleSet) (calls : List (String × Rule)) :
    (s.insertAll calls).kinds = (s.kinds ++ calls.map Prod.fst).eraseDups := by
  rw [kinds_edited (edited_insert s calls), List.flatMap_map, List.map_eq_flatMap]
  rfl

theorem mem_kinds_insertAll :
    kind ∈ (s.insertAll calls).kinds ↔ kind ∈ s.kinds ∨ kind ∈ calls.map Prod.fst := by
  rw [kinds_insertAll, List.mem_eraseDups, List.mem_append]

theorem size_eq_card (s : RuleSet) : s.size = s.kinds.toFinset.card := by
  rw [kinds, List.toFinset_card_of_nodup s.nodup, List.length_map, size]

theorem isEmpty_iff : s.isEmpty ↔ s.kinds = [] := by
  rw [isEmpty, List.isEmpty_iff, kinds, List.map_eq_nil_iff]

theorem isEmpty_insertAll : (s.insertAll calls).isEmpty ↔ s.isEmpty ∧ calls = [] := by
  have hnone : (∀ k, k ∉ calls.map Prod.fst) ↔ calls = [] := by
    rw [← List.eq_nil_iff_forall_not_mem, List.map_eq_nil_iff]
  simp only [isEmpty_iff, List.eq_nil_iff_forall_not_mem, mem_kinds_insertAll, not_or, forall_and,
    hnone]

section Latest

theorem latest_concat {c : String × Rule} : Latest (calls ++ [c]) kind rule ↔
    c = (kind, rule) ∨ c.1 ≠ kind ∧ Latest calls kind rule := by
  constructor
  · rintro ⟨before, after, hcalls, hafter⟩
    rcases List.eq_nil_or_concat after with rfl | ⟨after, c', rfl⟩
    · obtain ⟨-, hc⟩ := List.append_inj' hcalls rfl
      exact .inl (List.singleton_inj.mp hc)
    · rw [List.concat_eq_append, ← List.cons_append, ← List.append_assoc] at hcalls
      obtain ⟨rfl, hc⟩ := List.append_inj' hcalls rfl
      obtain rfl := List.singleton_inj.mp hc
      simp only [List.concat_eq_append, List.map_append, List.mem_append, not_or] at hafter
      exact .inr ⟨fun hkind => hafter.2 (by simp [hkind]), before, after, rfl, hafter.1⟩
  · rintro (rfl | ⟨hkind, before, after, rfl, hafter⟩)
    · exact ⟨calls, [], rfl, List.not_mem_nil⟩
    · refine ⟨before, after ++ [c], by simp, ?_⟩
      rw [List.map_append, List.mem_append, not_or]
      exact ⟨hafter, by simpa [eq_comm] using hkind⟩

/-- A set keeps the rules it started with until others are registered for their kinds. -/
theorem find?_insertAll_eq_some_iff : (s.insertAll calls).find? kind = some rule ↔
    Latest calls kind rule ∨ kind ∉ calls.map Prod.fst ∧ s.find? kind = some rule := by
  induction calls using List.reverseRecOn with
  | nil => simp [insertAll, Latest]
  | append_singleton calls c ih =>
      rw [insertAll_concat, find?_insert, latest_concat]
      obtain ⟨k, r⟩ := c
      by_cases hk : kind = k
      · subst hk
        simp
      · rw [if_neg hk, ih]
        simp [hk, Ne.symm hk]

theorem find?_insertAll_eq_none_iff : (s.insertAll calls).find? kind = none ↔
    kind ∉ s.kinds ∧ kind ∉ calls.map Prod.fst := by
  rw [find?_eq_none_iff, mem_kinds_insertAll, not_or]

theorem latest_iff_mem (h : (calls.map Prod.fst).Nodup) :
    Latest calls kind rule ↔ (kind, rule) ∈ calls := by
  constructor
  · rintro ⟨before, after, rfl, -⟩
    simp
  · intro hmem
    obtain ⟨before, after, rfl⟩ := List.append_of_mem hmem
    refine ⟨before, after, rfl, ?_⟩
    rw [List.map_append, List.nodup_append, List.map_cons, List.nodup_cons] at h
    exact h.2.1.1

end Latest

section Known

variable (h : kind ∈ s.kinds)
include h

/-- The rule of a known kind is replaced where it stands. -/
theorem entries_insert_of_mem (rule : Rule) : (s.insert kind rule).entries =
    s.entries.map fun e => if e.1 = kind then (kind, rule) else e := by
  rw [entries_eq, kinds_insert, if_pos h, kinds, List.map_map]
  apply List.map_congr_left
  intro e he
  rw [Function.comp_apply, find?_insert]
  split
  · next hkind => rw [hkind, Option.getD_some]
  · rw [mem_entries_iff.mp he, Option.getD_some]

theorem insert_comm (h' : kind' ∈ s.kinds) (hne : kind ≠ kind') :
    (s.insert kind rule).insert kind' rule' = (s.insert kind' rule').insert kind rule := by
  apply ext_find?
  · simp only [kinds_insert, if_pos h, if_pos h']
  · intro k
    simp only [find?_insert]
    by_cases hk : k = kind
    · simp only [hk, hne, if_true, if_false]
    · simp only [hk, if_false]

end Known

theorem insertAll_entries (s : RuleSet) : empty.insertAll s.entries = s := by
  apply ext_find?
  · rw [kinds_insertAll]
    exact eraseDups_kinds s
  · intro kind
    ext rule
    rw [find?_insertAll_eq_some_iff, latest_iff_mem s.nodup, mem_entries_iff]
    simp [find?, empty]

/-- What a set is after any number of registrations, and what one more does to it. -/
theorem history_exact (start : RuleSet) (calls : List (String × Rule)) :
    (start.insertAll calls).kinds.Nodup ∧
    (start.insertAll calls).kinds = (start.kinds ++ calls.map Prod.fst).eraseDups ∧
    (∀ kind rule, (start.insertAll calls).find? kind = some rule ↔
      Latest calls kind rule ∨ kind ∉ calls.map Prod.fst ∧ start.find? kind = some rule) ∧
    (∀ kind, (start.insertAll calls).find? kind = none ↔
      kind ∉ start.kinds ∧ kind ∉ calls.map Prod.fst) ∧
    (start.insertAll calls).size = (start.kinds ++ calls.map Prod.fst).toFinset.card ∧
    (∀ kind ∈ (start.insertAll calls).kinds, ∀ rule,
      ((start.insertAll calls).insert kind rule).entries =
        (start.insertAll calls).entries.map fun e => if e.1 = kind then (kind, rule) else e) ∧
    (∀ kind ∈ (start.insertAll calls).kinds, ∀ kind' ∈ (start.insertAll calls).kinds,
      kind ≠ kind' → ∀ rule rule',
        ((start.insertAll calls).insert kind rule).insert kind' rule' =
          ((start.insertAll calls).insert kind' rule').insert kind rule) ∧
    empty.insertAll (start.insertAll calls).entries = start.insertAll calls := by
  refine ⟨(start.insertAll calls).nodup, kinds_insertAll start calls,
    fun _ _ => find?_insertAll_eq_some_iff, fun _ => find?_insertAll_eq_none_iff, ?_,
    fun _ h => entries_insert_of_mem h, fun _ h _ h' hne _ _ => insert_comm h h' hne,
    insertAll_entries _⟩
  rw [size_eq_card, kinds_insertAll]
  congr 1
  ext kind
  simp

def registrations : List (String × Rule) :=
  [("css", ⟨"%s", "a*", "C"⟩), ("img", ⟨"%s", "i*", "I"⟩), ("css", ⟨"[%s]", "b*", "C"⟩),
    ("img", ⟨"%s", "", ""⟩)]

/-- A kind of the set and a new one, each registered twice. -/
theorem history_exact_twice :
    (builtin.insertAll registrations).kinds = ["javascript", "css", "img"] ∧
      (builtin.insertAll registrations).find? "css" = some ⟨"[%s]", "b*", "C"⟩ ∧
      (builtin.insertAll registrations).find? "javascript" = builtin.find? "javascript" ∧
      (builtin.insertAll registrations).find? "font" = none ∧
      empty.insertAll (builtin.insertAll registrations).entries =
        builtin.insertAll registrations := by
  obtain ⟨-, hkinds, hfind, hnone, -, -, -, hagain⟩ := history_exact builtin registrations
  refine ⟨hkinds, (hfind "css" _).mpr (.inl ?_), (hfind "javascript" _).mpr (.inr ⟨by decide, rfl⟩),
    (hnone "font").mpr (by decide), hagain⟩
  exact ⟨registrations.take 2, [("img", ⟨"%s", "", ""⟩)], rfl, by decide⟩

end AssetSlots.RuleSet
