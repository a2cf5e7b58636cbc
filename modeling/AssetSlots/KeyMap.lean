namespace AssetSlots

structure KeyMap (α : Type) where
  entries : List (String × α)
  sorted : entries.Pairwise fun a b => a.1 < b.1
  deriving DecidableEq

namespace KeyMap

variable {α β : Type}

def empty : KeyMap α := ⟨[], .nil⟩

instance : Inhabited (KeyMap α) := ⟨empty⟩

def keys (m : KeyMap α) : List String := m.entries.map Prod.fst

def values (m : KeyMap α) : List α := m.entries.map Prod.snd

def size (m : KeyMap α) : Nat := m.entries.length

def find? (m : KeyMap α) (k : String) : Option α := m.entries.lookup k

def place (k : String) (v : α) : List (String × α) → List (String × α)
  | [] => [(k, v)]
  | e :: es =>
    if k < e.1 then (k, v) :: e :: es
    else if k = e.1 then (k, v) :: es
    else e :: place k v es

theorem mem_place {k : String} {v : α} {es : List (String × α)} {e : String × α}
    (h : e ∈ place k v es) : e = (k, v) ∨ e ∈ es := by
  induction es with
  | nil => simpa [place] using h
  | cons d es ih =>
      rw [place] at h
      split at h
      · simpa using h
      · split at h
        · exact (List.mem_cons.1 h).imp_right (List.mem_cons_of_mem d)
        · rcases List.mem_cons.1 h with rfl | h
          · simp
          · exact (ih h).imp_right (List.mem_cons_of_mem d)

theorem lt_of_not_lt_of_ne {a b : String} (h : ¬a < b) (hne : a ≠ b) : b < a :=
  Decidable.byContradiction fun hn => hne (String.le_antisymm hn h)

theorem sorted_place (k : String) (v : α) {es : List (String × α)}
    (h : es.Pairwise fun a b => a.1 < b.1) : (place k v es).Pairwise fun a b => a.1 < b.1 := by
  induction es with
  | nil => simp [place]
  | cons e es ih =>
      obtain ⟨he, hes⟩ := List.pairwise_cons.1 h
      rw [place]
      split
      · next hk =>
        refine List.pairwise_cons.2 ⟨fun d hd => ?_, h⟩
        rcases List.mem_cons.1 hd with rfl | hd
        · exact hk
        · exact String.lt_trans hk (he d hd)
      · next hk =>
        split
        · next hke => exact List.pairwise_cons.2 ⟨fun d hd => hke ▸ he d hd, hes⟩
        · next hke =>
          refine List.pairwise_cons.2 ⟨fun d hd => ?_, ih hes⟩
          rcases mem_place hd with rfl | hd
          · exact lt_of_not_lt_of_ne hk hke
          · exact he d hd

def insert (m : KeyMap α) (k : String) (v : α) : KeyMap α :=
  ⟨place k v m.entries, sorted_place k v m.sorted⟩

def ofList (rows : List (String × α)) : KeyMap α :=
  rows.foldl (fun m row => m.insert row.1 row.2) empty

theorem lookup_cons (k : String) (e : String × α) (es : List (String × α)) :
    (e :: es).lookup k = if k = e.1 then some e.2 else es.lookup k := by
  rw [List.lookup_cons]
  by_cases h : k = e.1
  · simp [h]
  · simp [h, beq_eq_false_iff_ne.2 h]

theorem lookup_place (k : String) (v : α) (es : List (String × α)) (j : String) :
    (place k v es).lookup j = if j = k then some v else es.lookup j := by
  induction es with
  | nil => simp [place, lookup_cons]
  | cons e es ih =>
      rw [place]
      split
      · rw [lookup_cons]
      · split
        · next hk => rw [lookup_cons, lookup_cons, ← hk]; split <;> rfl
        · next hk => rw [lookup_cons, ih, lookup_cons]; split <;> grind

theorem find?_insert (m : KeyMap α) (k : String) (v : α) (j : String) :
    (m.insert k v).find? j = if j = k then some v else m.find? j :=
  lookup_place k v m.entries j

@[simp] theorem find?_empty (k : String) : (empty : KeyMap α).find? k = none := rfl

theorem mem_iff_lookup {es : List (String × α)} (hs : es.Pairwise fun a b => a.1 < b.1)
    {k : String} {v : α} : (k, v) ∈ es ↔ es.lookup k = some v := by
  induction es with
  | nil => simp
  | cons e es ih =>
      obtain ⟨he, hes⟩ := List.pairwise_cons.1 hs
      rw [lookup_cons, List.mem_cons]
      by_cases h : k = e.1
      · subst h
        have : (e.1, v) ∉ es := fun hm => String.lt_irrefl _ (he (e.1, v) hm)
        simp [this, Prod.ext_iff, eq_comm]
      · simp [h, ih hes, Prod.ext_iff]

theorem mem_entries_iff (m : KeyMap α) {k : String} {v : α} :
    (k, v) ∈ m.entries ↔ m.find? k = some v := mem_iff_lookup m.sorted

theorem mem_keys_iff (m : KeyMap α) {k : String} : k ∈ m.keys ↔ (m.find? k).isSome = true := by
  simp [keys, mem_entries_iff, Option.isSome_iff_exists]

theorem sorted_keys (m : KeyMap α) : m.keys.Pairwise (· < ·) := List.pairwise_map.2 m.sorted

theorem ext_lookup {es fs : List (String × α)} (he : es.Pairwise fun a b => a.1 < b.1)
    (hf : fs.Pairwise fun a b => a.1 < b.1) (h : ∀ k, es.lookup k = fs.lookup k) : es = fs := by
  have key {es fs : List (String × α)} (he : es.Pairwise fun a b => a.1 < b.1)
      (hf : fs.Pairwise fun a b => a.1 < b.1) (h : ∀ k, es.lookup k = fs.lookup k)
      {e : String × α} (hm : e ∈ es) : e ∈ fs := by
    rw [mem_iff_lookup hf, ← h, ← mem_iff_lookup he]
    exact hm
  have nodup {es : List (String × α)} (he : es.Pairwise fun a b => a.1 < b.1) : es.Nodup :=
    List.Pairwise.imp (fun {a b} hlt => fun (hab : a = b) => String.lt_irrefl a.1 (hab ▸ hlt)) he
  have perm : es.Perm fs := (List.perm_ext_iff_of_nodup (nodup he) (nodup hf)).2
    fun _ => ⟨key he hf h, key hf he fun k => (h k).symm⟩
  exact perm.eq_of_pairwise
    (fun a b _ _ hab hba => absurd (String.lt_trans hab hba) (String.lt_irrefl _)) he hf

theorem ext_find? {m n : KeyMap α} (h : ∀ k, m.find? k = n.find? k) : m = n := by
  obtain ⟨es, he⟩ := m
  obtain ⟨fs, hf⟩ := n
  obtain rfl : es = fs := ext_lookup he hf h
  rfl

end KeyMap

end AssetSlots
