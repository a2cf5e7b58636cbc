import Mathlib.Data.List.Forall2

namespace AssetSlots.Fallible

variable {ε α β γ : Type}

theorem of_bind {x : Except ε α} {f : α → Except ε β} {b : β} (h : x >>= f = .ok b) :
    ∃ a, x = .ok a ∧ f a = .ok b := by
  cases x with
  | error e => cases h
  | ok a => exact ⟨a, rfl, h⟩

theorem of_map {x : Except ε α} {f : α → β} {b : β} (h : f <$> x = .ok b) :
    ∃ a, x = .ok a ∧ f a = b := by
  cases x with
  | error e => cases h
  | ok a => exact ⟨a, rfl, Except.ok.inj h⟩

theorem map_eq_ok_iff {x : Except ε α} {f : α → β} {b : β} :
    f <$> x = .ok b ↔ ∃ a, x = .ok a ∧ f a = b := by
  refine ⟨of_map, ?_⟩
  rintro ⟨a, rfl, rfl⟩
  rfl

theorem exists_map_eq_ok_iff {x : Except ε α} {f : α → β} :
    (∃ b, f <$> x = .ok b) ↔ ∃ a, x = .ok a := by
  constructor
  · rintro ⟨b, h⟩
    obtain ⟨a, ha, -⟩ := of_map h
    exact ⟨a, ha⟩
  · rintro ⟨a, rfl⟩
    exact ⟨f a, rfl⟩

theorem mapError_eq_ok_iff {δ : Type} {x : Except ε α} {f : ε → δ} {a : α} :
    x.mapError f = .ok a ↔ x = .ok a := by
  cases x <;> simp [Except.mapError]

theorem of_foldlM_cons {f : β → α → Except ε β} {a : α} {as : List α} {b c : β}
    (h : (a :: as).foldlM f b = .ok c) : ∃ b', f b a = .ok b' ∧ as.foldlM f b' = .ok c := by
  rw [List.foldlM_cons] at h
  exact of_bind h

theorem of_mapM_cons {f : α → Except ε β} {a : α} {as : List α} {bs : List β}
    (h : (a :: as).mapM f = .ok bs) :
    ∃ b bs', f a = .ok b ∧ as.mapM f = .ok bs' ∧ bs = b :: bs' := by
  rw [List.mapM_cons] at h
  obtain ⟨b, hb, h⟩ := of_bind h
  obtain ⟨bs', hbs', h⟩ := of_bind h
  exact ⟨b, bs', hb, hbs', (Except.ok.inj h).symm⟩

/-- What is the same of every element and its result is the same of the two lists. -/
theorem map_eq_of_mapM {f : α → Except ε β} {g : β → γ} {h : α → γ} {as : List α} {bs : List β}
    (hmap : as.mapM f = .ok bs) (heq : ∀ a ∈ as, ∀ b, f a = .ok b → g b = h a) :
    bs.map g = as.map h := by
  induction as generalizing bs with
  | nil =>
      obtain rfl := Except.ok.inj hmap
      rfl
  | cons a as ih =>
      obtain ⟨b, bs', hb, hbs', rfl⟩ := of_mapM_cons hmap
      rw [List.forall_mem_cons] at heq
      rw [List.map_cons, List.map_cons, heq.1 b hb, ih hbs' heq.2]

theorem exists_of_mem_mapM {f : α → Except ε β} {as : List α} {bs : List β}
    (hmap : as.mapM f = .ok bs) {a : α} (ha : a ∈ as) : ∃ b, f a = .ok b := by
  induction as generalizing bs with
  | nil => cases ha
  | cons a' as ih =>
      obtain ⟨b, bs', hb, hbs', rfl⟩ := of_mapM_cons hmap
      rcases List.mem_cons.mp ha with rfl | hmem
      · exact ⟨b, hb⟩
      · exact ih hbs' hmem

theorem exists_mapM_eq_ok_iff {f : α → Except ε β} {as : List α} :
    (∃ bs, as.mapM f = .ok bs) ↔ ∀ a ∈ as, ∃ b, f a = .ok b := by
  refine ⟨fun ⟨bs, h⟩ a ha => exists_of_mem_mapM h ha, fun h => ?_⟩
  induction as with
  | nil => exact ⟨[], rfl⟩
  | cons a as ih =>
      rw [List.forall_mem_cons] at h
      obtain ⟨⟨b, hb⟩, has⟩ := h
      obtain ⟨bs, hbs⟩ := ih has
      exact ⟨b :: bs, by rw [List.mapM_cons, hb, hbs]; rfl⟩

theorem error_of_bind {x : Except ε α} {f : α → Except ε β} {e : ε} (h : x >>= f = .error e) :
    x = .error e ∨ ∃ a, x = .ok a ∧ f a = .error e := by
  cases x with
  | error e' => exact .inl (congrArg Except.error (Except.error.inj h))
  | ok a => exact .inr ⟨a, rfl, h⟩

/-- The first element that fails is the one that is reported. -/
theorem mapM_eq_error_iff {f : α → Except ε β} {as : List α} {e : ε} : as.mapM f = .error e ↔
    ∃ before a rest, as = before ++ a :: rest ∧ (∀ x ∈ before, ∃ b, f x = .ok b) ∧
      f a = .error e := by
  constructor
  · intro h
    induction as with
    | nil => cases h
    | cons a as ih =>
        rw [List.mapM_cons] at h
        rcases error_of_bind h with ha | ⟨b, hb, h⟩
        · exact ⟨[], a, as, rfl, by simp, ha⟩
        · rcases error_of_bind h with has | ⟨_, _, h⟩
          · obtain ⟨before, a', rest, rfl, hbefore, ha'⟩ := ih has
            exact ⟨a :: before, a', rest, rfl, List.forall_mem_cons.mpr ⟨⟨b, hb⟩, hbefore⟩, ha'⟩
          · cases h
  · rintro ⟨before, a, rest, rfl, hbefore, ha⟩
    obtain ⟨bs, hbs⟩ := exists_mapM_eq_ok_iff.mpr hbefore
    rw [List.mapM_append, hbs, List.mapM_cons, ha]
    rfl

theorem error_of_map {x : Except ε α} {f : α → β} {e : ε} (h : f <$> x = .error e) :
    x = .error e := by
  cases x with
  | error e' => exact congrArg Except.error (Except.error.inj h)
  | ok a => cases h

theorem map_eq_error_iff {x : Except ε α} {f : α → β} {e : ε} :
    f <$> x = .error e ↔ x = .error e := by
  refine ⟨error_of_map, ?_⟩
  rintro rfl
  rfl

/-- A run fails by its first step that fails. -/
theorem foldlM_eq_error_iff {f : β → α → Except ε β} {as : List α} {b : β} {e : ε} :
    as.foldlM f b = .error e ↔ ∃ before a rest b', as = before ++ a :: rest ∧
      before.foldlM f b = .ok b' ∧ f b' a = .error e := by
  constructor
  · intro h
    induction as generalizing b with
    | nil => cases h
    | cons a as ih =>
        rw [List.foldlM_cons] at h
        rcases error_of_bind h with ha | ⟨b', hb', hrest⟩
        · exact ⟨[], a, as, b, rfl, rfl, ha⟩
        · obtain ⟨before, a', rest, b'', rfl, hbefore, ha'⟩ := ih hrest
          refine ⟨a :: before, a', rest, b'', rfl, ?_, ha'⟩
          rw [List.foldlM_cons, hb']
          exact hbefore
  · rintro ⟨before, a, rest, b', rfl, hbefore, ha⟩
    rw [List.foldlM_append, hbefore]
    change List.foldlM f b' (a :: rest) = .error e
    rw [List.foldlM_cons, ha]
    rfl

theorem error_of_foldlM {f : β → α → Except ε β} {as : List α} {b : β} {e : ε}
    (h : as.foldlM f b = .error e) : ∃ a ∈ as, ∃ b', f b' a = .error e := by
  obtain ⟨before, a, rest, b', rfl, -, ha⟩ := foldlM_eq_error_iff.mp h
  exact ⟨a, by simp, b', ha⟩

/-- What every step keeps, a run keeps. -/
theorem keeps_of_foldlM {P : β → Prop} {f : β → α → Option β} {as : List α}
    (hf : ∀ a ∈ as, ∀ b b', P b → f b a = some b' → P b') {b c : β} (hb : P b)
    (h : as.foldlM f b = some c) : P c := by
  induction as generalizing b with
  | nil =>
      obtain rfl := Option.some.inj h
      exact hb
  | cons a as ih =>
      rw [List.forall_mem_cons] at hf
      rw [List.foldlM_cons] at h
      obtain ⟨b', hb', hrest⟩ := Option.bind_eq_some_iff.mp h
      exact ih hf.2 (hf.1 b b' hb hb') hrest

theorem keeps_of_foldlM_ok {P : β → Prop} {f : β → α → Except ε β} {as : List α}
    (hf : ∀ a ∈ as, ∀ b b', P b → f b a = .ok b' → P b') {b c : β} (hb : P b)
    (h : as.foldlM f b = .ok c) : P c := by
  induction as generalizing b with
  | nil =>
      obtain rfl := Except.ok.inj h
      exact hb
  | cons a as ih =>
      rw [List.forall_mem_cons] at hf
      obtain ⟨b', hb', hrest⟩ := of_foldlM_cons h
      exact ih hf.2 (hf.1 b b' hb hb') hrest

theorem mapM_eq_some_iff {f : α → Option β} {as : List α} {bs : List β} :
    as.mapM f = some bs ↔ List.Forall₂ (fun a b => f a = some b) as bs := by
  induction as generalizing bs with
  | nil =>
      rw [List.mapM_nil, List.forall₂_nil_left_iff]
      exact Option.some_inj.trans eq_comm
  | cons a as ih =>
      rw [List.mapM_cons, List.forall₂_cons_left_iff]
      constructor
      · intro h
        obtain ⟨b, hb, h⟩ := Option.bind_eq_some_iff.mp h
        obtain ⟨bs', hbs', h⟩ := Option.bind_eq_some_iff.mp h
        exact ⟨b, bs', hb, ih.mp hbs', (Option.some.inj h).symm⟩
      · rintro ⟨b, bs', hb, hbs', rfl⟩
        rw [hb, ih.mpr hbs']
        rfl

theorem exists_mapM_eq_some_iff {f : α → Option β} {as : List α} :
    (∃ bs, as.mapM f = some bs) ↔ ∀ a ∈ as, ∃ b, f a = some b := by
  simp only [mapM_eq_some_iff]
  induction as with
  | nil => simp
  | cons a as ih =>
      rw [List.forall_mem_cons, ← ih]
      constructor
      · rintro ⟨_, hb | ⟨hb, hbs⟩⟩
        exact ⟨⟨_, hb⟩, _, hbs⟩
      · rintro ⟨⟨b, hb⟩, bs, hbs⟩
        exact ⟨b :: bs, .cons hb hbs⟩

end AssetSlots.Fallible
