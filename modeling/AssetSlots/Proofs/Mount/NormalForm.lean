import AssetSlots.Proofs.Mount.Identity
import Mathlib.Data.List.Infix

namespace AssetSlots

variable {path : String} {p s t front back : List Char}

def IsSource (path : String) : Prop := path.toList.getLast? = some '/'

def IsServe (path : String) : Prop :=
  path.toList.head? = some '/' ∧ path.toList.getLast? = some '/'

/-- Of the texts of the form that hold the path in one piece, `q` is the shortest, and the only one
of its length. -/
structure LeastExtension (Form : String → Prop) (path q : String) : Prop where
  part : path.toList <:+: q.toList
  form : Form q
  least : ∀ r : String, path.toList <:+: r.toList → Form r → r ≠ q → q.length < r.length

def missingFront (p : List Char) : List Char := if p.head? = some '/' then [] else ['/']

def missingBack (p : List Char) : List Char := if p.getLast? = some '/' then [] else ['/']

theorem toList_sourceForm (path : String) :
    (sourceForm path).toList = path.toList ++ missingBack path.toList := by
  rw [sourceForm, missingBack]
  split
  · rw [List.append_nil]
  · rw [String.toList_append]
    rfl

theorem missingBack_append (hp : p ≠ []) (s : List Char) :
    missingBack (s ++ p) = missingBack p := by
  rw [missingBack, missingBack, List.getLast?_append_of_ne_nil _ hp]

theorem toList_serveForm (h : path ≠ "") : (serveForm path).toList =
    missingFront path.toList ++ path.toList ++ missingBack path.toList := by
  have hne : path.toList ≠ [] := by simpa using h
  have hstart : (if path.toList.head? = some '/' then path else "/" ++ path).toList =
      missingFront path.toList ++ path.toList := by
    rw [missingFront]
    split
    · rfl
    · rw [String.toList_append]
      rfl
  rw [serveForm, toList_sourceForm, hstart, missingBack_append hne]

section Least

theorem missingFront_prefix_of (h : (s ++ p).head? = some '/') : missingFront p <+: s := by
  cases s with
  | nil =>
      rw [List.nil_append] at h
      rw [missingFront, if_pos h]
  | cons c s =>
      obtain rfl : c = '/' := Option.some.inj h
      rw [missingFront]
      split
      · exact List.nil_prefix
      · exact List.prefix_append ['/'] s

theorem missingBack_suffix_of (h : (p ++ t).getLast? = some '/') : missingBack p <:+ t := by
  rcases List.eq_nil_or_concat t with rfl | ⟨t, c, rfl⟩
  · rw [List.append_nil] at h
    rw [missingBack, if_pos h]
  · rw [List.concat_eq_append, ← List.append_assoc, List.getLast?_concat] at h
    obtain rfl : c = '/' := Option.some.inj h
    rw [missingBack, List.concat_eq_append]
    split
    · exact List.nil_suffix
    · exact List.suffix_append t ['/']

theorem exists_missingBack_suffix {r : List Char} (hp : p <:+: r) (h : r.getLast? = some '/') :
    ∃ s t, s ++ p ++ t = r ∧ missingBack p <:+ t := by
  by_cases hne : p = []
  · -- A path of nothing can be found anywhere, also at the start.
    subst hne
    exact ⟨[], r, rfl, missingBack_suffix_of h⟩
  · obtain ⟨s, t, rfl⟩ := hp
    rw [List.append_assoc, List.getLast?_append_of_ne_nil _ (by simp [hne])] at h
    exact ⟨s, t, rfl, missingBack_suffix_of h⟩

/-- To put more around a text makes it longer. -/
theorem length_lt_of_around (hfront : front <+: s) (hback : back <:+ t)
    (hne : s ++ p ++ t ≠ front ++ p ++ back) :
    (front ++ p ++ back).length < (s ++ p ++ t).length := by
  have hs := hfront.length_le
  have ht := hback.length_le
  by_contra hle
  simp only [List.length_append] at hle
  have hfs : front = s := hfront.eq_of_length (by omega)
  have hbt : back = t := hback.eq_of_length (by omega)
  exact hne (by rw [hfs, hbt])

end Least

theorem leastExtension_sourceForm (path : String) :
    LeastExtension IsSource path (sourceForm path) where
  part := by
    rw [toList_sourceForm]
    exact (List.prefix_append _ _).isInfix
  form := getLast?_sourceForm path
  least := by
    intro r hr hend hne
    obtain ⟨s, t, hr, hback⟩ := exists_missingBack_suffix hr hend
    rw [Ne, ← String.toList_inj, ← hr, toList_sourceForm] at hne
    rw [← String.length_toList, ← String.length_toList, ← hr, toList_sourceForm]
    exact length_lt_of_around List.nil_prefix hback hne

theorem leastExtension_serveForm (path : String) :
    LeastExtension IsServe path (serveForm path) := by
  by_cases hp : path = ""
  · -- Here one `/` is both ends, as in the source form.
    subst hp
    have hsource := leastExtension_sourceForm ""
    exact ⟨hsource.part, ⟨rfl, rfl⟩, fun r hr hform => hsource.least r hr hform.2⟩
  refine ⟨?_, ⟨head?_serveForm path, getLast?_sourceForm _⟩, ?_⟩
  · rw [toList_serveForm hp]
    exact ⟨_, _, rfl⟩
  · rintro r ⟨s, t, hr⟩ ⟨hstart, hend⟩ hne
    rw [Ne, ← String.toList_inj, ← hr, toList_serveForm hp] at hne
    rw [← hr, List.head?_append_of_ne_nil _ (by simp [hp])] at hstart
    rw [← hr, List.append_assoc, List.getLast?_append_of_ne_nil _ (by simp [hp])] at hend
    rw [← String.length_toList, ← String.length_toList, ← hr, toList_serveForm hp]
    exact length_lt_of_around (missingFront_prefix_of hstart) (missingBack_suffix_of hend) hne

namespace Mount

variable {a b : String}

theorem ofPaths_source_serve (m : Mount) : ofPaths m.source m.serve = m := by
  obtain ⟨source, serve, hsource, hserve⟩ := m
  unfold ofPaths
  congr

theorem isIdentical_ofPaths_iff :
    (ofPaths a b).isIdentical = true ↔ serveForm a = serveForm b := by
  rw [isIdentical, beq_iff_eq, ofPaths, serveForm_sourceForm]

theorem equivalence_isIdentical : Equivalence fun a b => (ofPaths a b).isIdentical = true where
  refl _ := isIdentical_ofPaths_iff.mpr rfl
  symm h := isIdentical_ofPaths_iff.mpr (isIdentical_ofPaths_iff.mp h).symm
  trans h h' := isIdentical_ofPaths_iff.mpr
    ((isIdentical_ofPaths_iff.mp h).trans (isIdentical_ofPaths_iff.mp h'))

/-- The forms of a path are its least extensions, and agree with each other. A mount is made of its
own paths, and whether two paths make one that is served from its own path is told by their serve
forms. -/
theorem normalForm_exact :
    (∀ path, sourceForm (sourceForm path) = sourceForm path ∧
      serveForm (serveForm path) = serveForm path ∧
      serveForm (sourceForm path) = serveForm path ∧
      sourceForm (serveForm path) = serveForm path) ∧
    (∀ path, LeastExtension IsSource path (sourceForm path) ∧
      (sourceForm path).toList = path.toList ++ missingBack path.toList) ∧
    (∀ path, LeastExtension IsServe path (serveForm path) ∧
      (path ≠ "" → (serveForm path).toList =
        missingFront path.toList ++ path.toList ++ missingBack path.toList)) ∧
    (∀ path, path = "" ∨ path = "/" → sourceForm path = "/" ∧ serveForm path = "/") ∧
    (∀ m : Mount, ofPaths m.source m.serve = m) ∧
    (∀ path, (shared path).isIdentical = true) ∧
    (∀ a b, (ofPaths a b).isIdentical = true ↔ serveForm a = serveForm b) ∧
    Equivalence fun a b => (ofPaths a b).isIdentical = true := by
  refine ⟨fun path => ⟨sourceForm_sourceForm path, serveForm_serveForm path,
      serveForm_sourceForm path, sourceForm_serveForm path⟩,
    fun path => ⟨leastExtension_sourceForm path, toList_sourceForm path⟩,
    fun path => ⟨leastExtension_serveForm path, toList_serveForm⟩, ?_, ofPaths_source_serve,
    isIdentical_shared, fun _ _ => isIdentical_ofPaths_iff, equivalence_isIdentical⟩
  rintro path (rfl | rfl)
  · exact ⟨rfl, rfl⟩
  · exact ⟨rfl, rfl⟩

theorem normalForm_exact_relative :
    LeastExtension IsSource "" "/" ∧ LeastExtension IsServe "a" "/a/" ∧
      ofPaths "a/" "/a/" = ofPaths "a" "a" ∧ (ofPaths "a" "/a/").isIdentical = true ∧
      (ofPaths "/a" "//a").isIdentical = false := by
  obtain ⟨-, hsource, hserve, -, hagain, -, hsame, -⟩ := normalForm_exact
  refine ⟨(hsource "").1, (hserve "a").1, hagain (ofPaths "a" "a"),
    (hsame "a" "/a/").mpr (by decide), ?_⟩
  rw [Bool.eq_false_iff, Ne, hsame]
  decide

end Mount

end AssetSlots
