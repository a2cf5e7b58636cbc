import Mathlib.Data.List.Infix
import Mathlib.Data.List.Nodup

namespace AssetSlots.Lists

variable {α β : Type}

section Firsts

variable [DecidableEq α]

theorem eraseDups_of_nodup {as : List α} (h : as.Nodup) : as.eraseDups = as := by
  induction as with
  | nil => rfl
  | cons a as ih =>
      obtain ⟨ha, has⟩ := List.nodup_cons.mp h
      have hfilter : (as.filter fun b => !b == a) = as := by
        rw [List.filter_eq_self]
        intro b hb
        have hne : b ≠ a := fun heq => ha (heq ▸ hb)
        simpa using hne
      rw [List.eraseDups_cons, hfilter, ih has]

theorem eraseDups_concat (as : List α) (a : α) : (as ++ [a]).eraseDups =
    if a ∈ as then as.eraseDups else as.eraseDups ++ [a] := by
  rw [List.eraseDups_append]
  by_cases h : a ∈ as
  · simp [h, List.removeAll]
  · simp [h, List.removeAll, List.eraseDups_cons]

theorem nodup_eraseDups (as : List α) : as.eraseDups.Nodup := by
  induction as using List.reverseRecOn with
  | nil => exact List.nodup_nil
  | append_singleton as a ih =>
      rw [eraseDups_concat]
      split
      · exact ih
      · next ha =>
        rw [← List.concat_eq_append]
        exact ih.concat fun hmem => ha (List.mem_eraseDups.mp hmem)

theorem foldl_firsts (as : List α) :
    as.foldl (fun seen a => if a ∈ seen then seen else seen ++ [a]) [] = as.eraseDups := by
  induction as using List.reverseRecOn with
  | nil => rfl
  | append_singleton as a ih =>
      rw [List.foldl_append, ih, List.foldl_cons, List.foldl_nil, eraseDups_concat]
      simp only [List.mem_eraseDups]

end Firsts

theorem flatMap_filter_of {keep : α → Bool} {f : α → List β} {as : List α}
    (h : ∀ a ∈ as, keep a = false → f a = []) : (as.filter keep).flatMap f = as.flatMap f := by
  induction as with
  | nil => rfl
  | cons a as ih =>
      rw [List.forall_mem_cons] at h
      rw [List.flatMap_cons, ← ih h.2]
      cases hkeep : keep a with
      | false => rw [List.filter_cons_of_neg (by simp [hkeep]), h.1 hkeep, List.nil_append]
      | true => rw [List.filter_cons_of_pos hkeep, List.flatMap_cons]

theorem map_fst_zip_sublist (as : List α) (bs : List β) :
    ((as.zip bs).map Prod.fst).Sublist as := by
  induction as generalizing bs with
  | nil => simp
  | cons a as ih =>
      cases bs with
      | nil => simp
      | cons b bs => simpa using ih bs

theorem drop_inits_concat {k : Nat} {as : List α} (hk : k ≤ as.length + 1) (a : α) :
    ((as ++ [a]).inits.drop k).reverse = (as ++ [a]) :: (as.inits.drop k).reverse := by
  rw [List.inits_append, List.drop_append_of_le_length (by rwa [List.length_inits]),
    List.reverse_append]
  rfl

end AssetSlots.Lists
