import AssetSlots.PathText
import AssetSlots.Proofs.Lists
import AssetSlots.Proofs.Text.Split
import Mathlib.Data.List.Infix

namespace AssetSlots.PathText

open Text

def stem (a : List Char) : List (List Char) := if a = [] then [] else [a]

def components (path : String) : List (List Char) :=
  stem (anchor path.toList) ++ (pieces path.toList).filter fun p => !isIdle p

def lowest (a : List Char) : Nat := if a = ['/'] then 1 else 0

theorem anchor_cases (t : List Char) : anchor t = [] ∨ anchor t = ['.'] ∨ anchor t = ['/'] := by
  unfold anchor
  split <;> simp

theorem anchor_anchor (t : List Char) : anchor (anchor t) = anchor t := by
  rcases anchor_cases t with h | h | h <;> rw [h] <;> rfl

theorem anchor_append_drop (t : List Char) : anchor t ++ t.drop (anchor t).length = t := by
  unfold anchor
  split <;> rfl

/-- What follows a slash does not change what a path is anchored to. -/
theorem anchor_append {s : List Char} (hs : s ≠ []) (t : List Char) :
    anchor (s ++ '/' :: t) = anchor s := by
  obtain ⟨c, s, rfl⟩ := List.exists_cons_of_ne_nil hs
  cases s with
  | nil => by_cases hslash : c = '/' <;> by_cases hdot : c = '.' <;> simp_all [anchor]
  | cons e s =>
      by_cases hslash : c = '/' <;> by_cases hdot : c = '.' <;> by_cases hnext : e = '/' <;>
        simp_all [anchor]

section Above

variable {a : List Char} {ps : List (List Char)}

theorem intercalate_append {qs more : List (List Char)} (hqs : qs ≠ []) (hmore : more ≠ []) :
    ['/'].intercalate (qs ++ more) = ['/'].intercalate qs ++ '/' :: ['/'].intercalate more := by
  induction qs with
  | nil => exact absurd rfl hqs
  | cons q qs ih =>
      cases qs with
      | nil =>
          obtain ⟨p, more, rfl⟩ := List.exists_cons_of_ne_nil hmore
          rw [List.singleton_append, List.intercalate_cons_cons, List.intercalate_singleton,
            List.append_assoc, List.singleton_append]
      | cons r qs =>
          rw [List.cons_append, List.cons_append, List.intercalate_cons_cons, ← List.cons_append,
            ih (List.cons_ne_nil r qs), List.intercalate_cons_cons]
          simp

def front (rest : List (List Char)) : List (List Char) := (rest.dropWhile isIdle).reverse

theorem front_append (rest : List (List Char)) :
    ∃ idle, rest.reverse = front rest ++ idle ∧ ∀ p ∈ idle, isIdle p := by
  refine ⟨(rest.takeWhile isIdle).reverse, ?_, fun p hp => ?_⟩
  · rw [front, ← List.reverse_append, List.takeWhile_append_dropWhile]
  · exact List.all_eq_true.mp List.all_takeWhile p (List.mem_reverse.mp hp)

theorem intercalate_front_ne_nil {rest : List (List Char)} (hslash : ∀ p ∈ rest, '/' ∉ p)
    (hne : front rest ≠ []) : ['/'].intercalate (front rest) ≠ [] := by
  -- No text is left of an empty piece alone, but that would be idle.
  intro hnil
  have hfree : ∀ p ∈ front rest, '/' ∉ p := fun p hp =>
    hslash p ((List.dropWhile_suffix isIdle).mem (List.mem_reverse.mp hp))
  have hsplit := split_intercalate hne hfree
  rw [hnil] at hsplit
  have hfirst : rest.dropWhile isIdle = [[]] := by
    rw [← List.reverse_reverse (rest.dropWhile isIdle)]
    exact congrArg List.reverse hsplit.symm
  have hidle := List.head?_dropWhile_not isIdle rest
  rw [hfirst] at hidle
  cases hidle

theorem anchor_front (ha : anchor (a ++ ['/'].intercalate ps) = a) (hslash : ∀ p ∈ ps, '/' ∉ p)
    {rest back : List (List Char)} (hps : ps = rest.reverse ++ back) (hback : back ≠ []) :
    anchor (a ++ ['/'].intercalate (front rest)) = a := by
  by_cases hne : front rest = []
  · rw [hne, List.intercalate_nil, List.append_nil, ← ha, anchor_anchor]
  · obtain ⟨idle, hidle, _⟩ := front_append rest
    have hfree : ∀ p ∈ rest, '/' ∉ p := fun p hp => hslash p (by simp [hps, hp])
    have htext : a ++ ['/'].intercalate (front rest) ≠ [] := by
      simp [intercalate_front_ne_nil hfree hne]
    rw [hps, hidle, List.append_assoc, intercalate_append hne (by simp [hback]), ← List.append_assoc,
      anchor_append htext] at ha
    exact ha

theorem pieces_eq {t r : List Char} (h : t = anchor t ++ r) : pieces t = split '/' r := by
  rw [pieces]
  conv => lhs; arg 2; arg 2; rw [h]
  rw [List.drop_left]

/-- Its components are those of the pieces before the one that is taken away. -/
theorem components_front (ha : anchor (a ++ ['/'].intercalate ps) = a)
    (hslash : ∀ p ∈ ps, '/' ∉ p) {rest back : List (List Char)} (hps : ps = rest.reverse ++ back)
    (hback : back ≠ []) :
    components (String.ofList (a ++ ['/'].intercalate (front rest))) =
      stem a ++ rest.reverse.filter fun p => !isIdle p := by
  have hanchor := anchor_front ha hslash hps hback
  obtain ⟨idle, hidle, hall⟩ := front_append rest
  have hrest : (rest.reverse.filter fun p => !isIdle p) =
      (front rest).filter fun p => !isIdle p := by
    have hnone : (idle.filter fun p => !isIdle p) = [] :=
      List.filter_eq_nil_iff.mpr (by simpa using hall)
    rw [hidle, List.filter_append, hnone, List.append_nil]
  rw [components, String.toList_ofList, hanchor, pieces_eq (congrArg (· ++ _) hanchor.symm), hrest]
  by_cases hne : front rest = []
  · rw [hne]
    rfl
  · have hfree : ∀ p ∈ front rest, '/' ∉ p := fun p hp =>
      hslash p (by rw [hps, hidle]; simp [hp])
    rw [split_intercalate hne hfree]

theorem above_idle {p : List Char} (hp : isIdle p) (a : List Char) (rest : List (List Char)) :
    above a (p :: rest) = above a rest := by
  rw [above, if_pos hp]

theorem above_named {p : List Char} (hp : ¬isIdle p) (a : List Char) (rest : List (List Char)) :
    above a (p :: rest) =
      String.ofList (a ++ ['/'].intercalate (front rest)) :: above a rest := by
  rw [above, if_neg hp]
  rfl

theorem lowest_le (a : List Char) : lowest a ≤ 1 := by
  unfold lowest
  split <;> decide

theorem components_above (ha : anchor (a ++ ['/'].intercalate ps) = a)
    (hslash : ∀ p ∈ ps, '/' ∉ p) {rev back : List (List Char)} (hps : ps = rev.reverse ++ back) :
    (stem a ++ rev.reverse.filter fun p => !isIdle p) :: (above a rev).map components =
      ((stem a ++ rev.reverse.filter fun p => !isIdle p).inits.drop (lowest a)).reverse := by
  -- From the last piece on: an idle one changes nothing, and with a named one a component goes.
  induction rev generalizing back with
  | nil =>
      rcases anchor_cases (a ++ ['/'].intercalate ps) with h | h | h <;> rw [ha] at h <;> subst h
      all_goals decide
  | cons p rest ih =>
      have hps' : ps = rest.reverse ++ p :: back := by rw [hps, List.reverse_cons]; simp
      rw [List.reverse_cons, List.filter_append]
      by_cases hp : isIdle p
      · rw [above_idle hp]
        simpa [hp] using ih hps'
      · have hlow := (lowest_le a).trans (Nat.le_add_left 1
          (stem a ++ rest.reverse.filter fun p => !isIdle p).length)
        have hlast : [p].filter (fun p => !isIdle p) = [p] := by simp [hp]
        rw [above_named hp, List.map_cons, components_front ha hslash hps' (List.cons_ne_nil p back),
          ih hps', hlast, ← List.append_assoc, Lists.drop_inits_concat hlow]

end Above

theorem text_eq (t : List Char) : anchor t ++ ['/'].intercalate (pieces t) = t := by
  rw [pieces, intercalate_split, anchor_append_drop]

/-- The paths going up have the components of the path, each time without the last one left. -/
theorem components_ancestors (path : String) : (ancestors path).map components =
    ((components path).inits.drop (lowest (anchor path.toList))).reverse := by
  have ha : anchor (anchor path.toList ++ ['/'].intercalate (pieces path.toList)) =
      anchor path.toList := by rw [text_eq]
  have hps : pieces path.toList = (pieces path.toList).reverse.reverse ++ [] := by simp
  have habove := components_above ha (fun p => notMem_of_mem_split) hps
  rw [List.reverse_reverse] at habove
  rw [ancestors, List.map_cons]
  exact habove

theorem front_prefix (a : List Char) (rest back : List (List Char)) :
    a ++ ['/'].intercalate (front rest) <+: a ++ ['/'].intercalate (rest.reverse ++ back) := by
  obtain ⟨idle, hidle, _⟩ := front_append rest
  rw [List.prefix_append_right_inj, hidle, List.append_assoc]
  by_cases hne : front rest = []
  · simp [hne]
  · by_cases hmore : idle ++ back = []
    · rw [hmore, List.append_nil]
    · rw [intercalate_append hne hmore]
      exact List.prefix_append _ _

theorem prefix_of_mem_above {a : List Char} {ps rev back : List (List Char)} {q : String}
    (hps : ps = rev.reverse ++ back) (hq : q ∈ above a rev) :
    q.toList <+: a ++ ['/'].intercalate ps := by
  induction rev generalizing back with
  | nil =>
      rw [above] at hq
      split at hq
      · obtain rfl := List.mem_singleton.mp hq
        exact List.nil_prefix
      · cases hq
  | cons p rest ih =>
      have hps' : ps = rest.reverse ++ p :: back := by rw [hps, List.reverse_cons]; simp
      by_cases hp : isIdle p
      · rw [above_idle hp] at hq
        exact ih hps' hq
      · rw [above_named hp] at hq
        rcases List.mem_cons.mp hq with rfl | hq
        · rw [String.toList_ofList, hps']
          exact front_prefix a rest (p :: back)
        · exact ih hps' hq

/-- Every path going up is a piece of the text of the path, from its start. -/
theorem prefix_of_mem_ancestors {path q : String} (h : q ∈ ancestors path) :
    q.toList <+: path.toList := by
  rcases List.mem_cons.mp h with rfl | h
  · exact List.prefix_rfl
  · have hps : pieces path.toList = (pieces path.toList).reverse.reverse ++ [] := by simp
    have hprefix := prefix_of_mem_above hps h
    rwa [text_eq] at hprefix

end AssetSlots.PathText
