import AssetSlots.Proofs.Fallible
import AssetSlots.Proofs.MountTable.Calls

namespace AssetSlots

namespace Declaration

variable {d : Declaration}

def Single (d : Declaration) : Prop := ∀ pairs, d = .mapping pairs → pairs.size = 1

theorem exists_mount_iff : (∃ m, d.mount = .ok m) ↔ d.Single := by
  constructor
  · rintro ⟨m, hm⟩ pairs rfl
    cases mount_eq_ok_iff.mp hm
    rfl
  · intro h
    cases hd : d.mount with
    | ok m => exact ⟨m, rfl⟩
    | error n =>
        obtain ⟨pairs, rfl, hcard, -⟩ := mount_eq_error_iff.mp hd
        rw [card_sources] at hcard
        exact absurd (h pairs rfl) hcard

end Declaration

namespace MountTable

open Declaration

variable {t : MountTable} {kind : String} {list : List Declaration} {e : Error}
  {ds : KeyMap (List Declaration)}

def Miscounts (list : List Declaration) (count : Nat) : Prop :=
  ∃ before pairs rest, list = before ++ .mapping pairs :: rest ∧ (∀ d ∈ before, d.Single) ∧
    pairs.size ≠ 1 ∧ pairs.size = count

theorem foldlM_declare_of_single (h : ∀ d ∈ list, d.Single) (t : MountTable) :
    list.foldlM (·.declare kind) t = .ok (t.run (list.map (.declare kind))) :=
  foldlM_declare kind (fun d hd => exists_mount_iff.mpr (h d hd)) t

theorem single_of_foldlM_declare {t' : MountTable}
    (h : list.foldlM (·.declare kind) t = .ok t') : ∀ d ∈ list, d.Single := by
  induction list generalizing t with
  | nil => simp
  | cons d ds ih =>
      obtain ⟨t₁, hd, hds⟩ := Fallible.of_foldlM_cons h
      have hmount : ∃ m, d.mount = .ok m := by
        cases hm : d.mount with
        | ok m => exact ⟨m, rfl⟩
        | error n =>
            rw [declare_eq, hm] at hd
            cases hd
      exact List.forall_mem_cons.mpr ⟨exists_mount_iff.mp hmount, ih hds⟩

theorem foldlM_declare_eq_error_iff : list.foldlM (·.declare kind) t = .error e ↔
    ∃ count, Miscounts list count ∧ e = .declaration kind count := by
  rw [Fallible.foldlM_eq_error_iff]
  constructor
  · rintro ⟨before, d, rest, t', rfl, hbefore, hd⟩
    obtain ⟨pairs, rfl, hcard, rfl⟩ := declare_eq_error_iff.mp hd
    rw [card_sources] at hcard
    rw [card_sources]
    exact ⟨_, ⟨before, pairs, rest, rfl, single_of_foldlM_declare hbefore, hcard, rfl⟩, rfl⟩
  · rintro ⟨_, ⟨before, pairs, rest, rfl, hbefore, hsize, rfl⟩, rfl⟩
    rw [← card_sources] at hsize
    refine ⟨before, .mapping pairs, rest, _, rfl, foldlM_declare_of_single hbefore t, ?_⟩
    rw [← card_sources]
    exact declare_eq_error_iff.mpr ⟨pairs, rfl, hsize, rfl⟩

theorem not_single_of_miscounts {count : Nat} (h : Miscounts list count) :
    ¬∀ d ∈ list, d.Single := by
  obtain ⟨before, pairs, rest, rfl, -, hsize, -⟩ := h
  exact fun hall => hsize (hall (.mapping pairs) (by simp) pairs rfl)

def Misdeclared (ds : KeyMap (List Declaration)) (kind : String) : Prop :=
  ∃ list, ds.find? kind = some list ∧ ¬∀ d ∈ list, d.Single

section Rows

variable {rows : List (String × List Declaration)}

theorem single_of_foldlM_declareRow {t' : MountTable}
    (h : rows.foldlM declareRow t = .ok t') : ∀ row ∈ rows, ∀ d ∈ row.2, d.Single := by
  induction rows generalizing t with
  | nil => simp
  | cons row rows ih =>
      obtain ⟨t₁, hrow, hrows⟩ := Fallible.of_foldlM_cons h
      exact List.forall_mem_cons.mpr ⟨single_of_foldlM_declare hrow, ih hrows⟩

theorem foldlM_declareRow_of_single (h : ∀ row ∈ rows, ∀ d ∈ row.2, d.Single) (t : MountTable) :
    rows.foldlM declareRow t = .ok (rows.foldl enter t) :=
  foldlM_declareRow (fun row hrow d hd => exists_mount_iff.mpr (h row hrow d hd)) t

end Rows

theorem exists_ofDeclarations_iff :
    (∃ t, ofDeclarations ds = .ok t) ↔ ∀ kind, ¬Misdeclared ds kind := by
  have hrows : (∀ kind, ¬Misdeclared ds kind) ↔ ∀ row ∈ ds.entries, ∀ d ∈ row.2, d.Single := by
    constructor
    · intro h row hrow
      by_contra hbad
      exact h row.1 ⟨row.2, ds.mem_entries_iff.mp hrow, hbad⟩
    · rintro h kind ⟨list, hlist, hbad⟩
      exact hbad (h (kind, list) (ds.mem_entries_iff.mpr hlist))
  rw [hrows, ofDeclarations_eq_foldlM]
  exact ⟨fun ⟨_, h⟩ => single_of_foldlM_declareRow h,
    fun h => ⟨_, foldlM_declareRow_of_single h empty⟩⟩

/-- The first bad declaration of the first kind that has one is reported. -/
theorem ofDeclarations_eq_error_iff : ofDeclarations ds = .error e ↔
    ∃ kind list count, IsLeast {k | Misdeclared ds k} kind ∧ ds.find? kind = some list ∧
      Miscounts list count ∧ e = .declaration kind count := by
  rw [ofDeclarations_eq_foldlM, Fallible.foldlM_eq_error_iff]
  constructor
  · rintro ⟨before, ⟨kind, list⟩, rest, t', hrows, hbefore, hrow⟩
    obtain ⟨count, hcount, rfl⟩ := foldlM_declare_eq_error_iff.mp hrow
    have hgood : ∀ row ∈ before, ¬¬∀ d ∈ row.2, d.Single := fun row hrow =>
      not_not.mpr (single_of_foldlM_declareRow hbefore row hrow)
    have hlist : ds.find? kind = some list := ds.mem_entries_iff.mp (hrows ▸ by simp)
    exact ⟨kind, list, count,
      KeyMap.isLeast_iff.mpr ⟨before, list, rest, hrows, hgood, not_single_of_miscounts hcount⟩,
      hlist, hcount, rfl⟩
  · rintro ⟨kind, list, count, hleast, hlist, hcount, rfl⟩
    obtain ⟨before, list', rest, hrows, hgood, -⟩ := KeyMap.isLeast_iff.mp hleast
    have hlist' : ds.find? kind = some list' := ds.mem_entries_iff.mp (hrows ▸ by simp)
    obtain rfl := Option.some.inj (hlist'.symm.trans hlist)
    exact ⟨before, (kind, list'), rest, _, hrows,
      foldlM_declareRow_of_single (fun row hrow => not_not.mp (hgood row hrow)) empty,
      foldlM_declare_eq_error_iff.mpr ⟨count, hcount, rfl⟩⟩

section Success

theorem find?_ofDeclarations (h : ofDeclarations ds = .ok t) (kind : String) :
    t.byKind.find? kind = (ds.find? kind).map stands := by
  rw [ofDeclarations_eq_foldlM] at h
  rw [foldlM_declareRow_of_single (single_of_foldlM_declareRow h) empty] at h
  obtain rfl := Except.ok.inj h
  have hget : empty.get kind = [] := rfl
  have hempty : empty.byKind.find? kind = none := rfl
  simp only [find?_foldl_enter ds.nodup_keys, hget, hempty, Option.or_none, List.nil_append]
  rfl

/-- Every kind that is declared is there, also one with no declarations. -/
theorem kinds_ofDeclarations (h : ofDeclarations ds = .ok t) : t.kinds = ds.keys := by
  apply t.byKind.sorted_keys.eq_of_mem_iff ds.sorted_keys
  intro kind
  rw [KeyMap.mem_keys_iff, KeyMap.mem_keys_iff, find?_ofDeclarations h, Option.isSome_map]

theorem forall₂_stands (h : ∀ d ∈ list, d.Single) :
    List.Forall₂ Declaration.Names list (stands list) := by
  induction list with
  | nil => exact .nil
  | cons d ds ih =>
      rw [List.forall_mem_cons] at h
      obtain ⟨m, hm⟩ := exists_mount_iff.mpr h.1
      have hstands : stands (d :: ds) = m :: stands ds :=
        List.filterMap_cons_some (by rw [hm]; rfl)
      rw [hstands]
      exact .cons (mount_eq_ok_iff.mp hm) (ih h.2)

/-- A kind has the mounts that its declarations name, in their order. -/
theorem forall₂_get (h : ofDeclarations ds = .ok t) (hlist : ds.find? kind = some list) :
    List.Forall₂ Declaration.Names list (t.get kind) := by
  have hgood : ∀ d ∈ list, d.Single := by
    by_contra hbad
    exact exists_ofDeclarations_iff.mp ⟨t, h⟩ kind ⟨list, hlist, hbad⟩
  rw [get, find?_ofDeclarations h, hlist, Option.map_some, Option.getD_some]
  exact forall₂_stands hgood

end Success

end MountTable

end AssetSlots
