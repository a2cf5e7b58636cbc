import AssetSlots.Proofs.Text.Stripped
import AssetSlots.Response
import Mathlib

namespace AssetSlots

namespace Text

variable {t : List Char}

theorem isWhite_of_isAlpha {c : Char} (h : c.isAlpha = true) : isWhite c = false := by
  have hletter : (65 ≤ c.toNat ∧ c.toNat ≤ 90) ∨ 97 ≤ c.toNat ∧ c.toNat ≤ 122 := by
    simpa [Char.isAlpha, Char.isUpper, Char.isLower, UInt32.le_iff_toNat_le] using h
  simp only [isWhite, whiteRanges, List.any_cons, List.any_nil, Bool.or_false, Bool.or_eq_false_iff,
    Bool.and_eq_false_iff, decide_eq_false_iff_not]
  omega

/-- What is the same of all letters does not see their case. -/
theorem comp_toLower {p : Char → Bool} {b : Bool} (hp : ∀ c, c.isAlpha = true → p c = b) :
    p ∘ Char.toLower = p := by
  funext c
  rw [Function.comp_apply]
  by_cases hc : c.isAlpha = true
  · rw [hp c hc, hp c.toLower (by rwa [Char.isAlpha_toLower_eq_isAlpha])]
  · have hupper : ¬c.isUpper = true := fun h => hc (by simp [Char.isAlpha, h])
    rw [Char.toLower_eq_of_not_isUpper hupper]

theorem dropWhile_white_map_toLower (t : List Char) :
    (t.map Char.toLower).dropWhile isWhite = (t.dropWhile isWhite).map Char.toLower := by
  rw [List.dropWhile_map, comp_toLower fun _ => isWhite_of_isAlpha]

theorem trim_map_toLower (t : List Char) :
    trim (t.map Char.toLower) = (trim t).map Char.toLower := by
  rw [trim, trimStart, dropWhile_white_map_toLower, trimEnd, ← List.map_reverse,
    dropWhile_white_map_toLower, ← List.map_reverse, trim, trimEnd, trimStart]

end Text

namespace Response

def isContentType (h : String × String) : Bool := Text.sameLetters h.1 "content-type"

/-- White space, the media type of HTML in any case, white space, and parameters if there are any,
which start with a `;`. -/
def NamesHtml (value : String) : Prop := ∃ front media back parameters : List Char,
  value.toList = front ++ media ++ back ++ parameters ∧ Text.White front ∧ Text.White back ∧
    media.map Char.toLower = "text/html".toList ∧
    (parameters = [] ∨ parameters.head? = some ';')

def DeclaresHtml (headers : List (String × String)) : Prop := ∃ before name value after,
  headers = before ++ (name, value) :: after ∧ (∀ h ∈ before, isContentType h = false) ∧
    isContentType (name, value) = true ∧ NamesHtml value

/-- A change to headers that leaves what the first content type says, apart from the case of letters
and from parameters. -/
inductive Retouched : List (String × String) → List (String × String) → Prop
  | added {before after : List (String × String)} {h : String × String}
      (hother : isContentType h = false) : Retouched (before ++ after) (before ++ h :: after)
  | removed {before after : List (String × String)} {h : String × String}
      (hother : isContentType h = false) : Retouched (before ++ h :: after) (before ++ after)
  | reordered {headers headers' : List (String × String)} (hperm : headers.Perm headers')
      (hsame : headers.filter isContentType = headers'.filter isContentType) :
      Retouched headers headers'
  | renamed {before after : List (String × String)} {name name' value : String}
      (hcase : Text.sameLetters name name' = true) :
      Retouched (before ++ (name, value) :: after) (before ++ (name', value) :: after)
  | recased {before after : List (String × String)} {name value value' : String}
      (hcase : Text.sameLetters value value' = true) :
      Retouched (before ++ (name, value) :: after) (before ++ (name, value') :: after)
  | reparametrised {before after : List (String × String)}
      {name type parameters parameters' : String} :
      Retouched (before ++ (name, type ++ ";" ++ parameters) :: after)
        (before ++ (name, type ++ ";" ++ parameters') :: after)

variable {r r' : Response} {headers headers' : List (String × String)} {value : String}

def folded (value : String) : List Char := (mediaType value).toList.map Char.toLower

def folded? (headers : List (String × String)) : Option (List Char) :=
  (headers.find? isContentType).map fun h => folded h.2

section Values

theorem folded_eq (value : String) : folded value =
    Text.trim ((value.toList.map Char.toLower).takeWhile (· ≠ ';')) := by
  have hsemicolon : ∀ c : Char, c.isAlpha = true → decide (c ≠ ';') = true := by
    intro c hc
    rw [decide_eq_true_iff]
    rintro rfl
    exact absurd hc (by decide)
  rw [folded, mediaType, String.toList_ofList, List.takeWhile_map, Text.comp_toLower hsemicolon,
    Text.trim_map_toLower]

theorem takeWhile_append_parameters (t : List Char) {parameters : List Char}
    (hparameters : parameters = [] ∨ parameters.head? = some ';') :
    (t ++ parameters).takeWhile (· ≠ ';') = t.takeWhile (· ≠ ';') := by
  have hstop : parameters.takeWhile (· ≠ ';') = [] := by
    rcases hparameters with rfl | hhead
    · rfl
    · obtain ⟨rest, rfl⟩ := List.head?_eq_some_iff.mp hhead
      exact List.takeWhile_cons_of_neg (by simp)
  rw [List.takeWhile_append, hstop, List.append_nil]
  split
  · next hall => exact ((List.takeWhile_prefix _).eq_of_length hall).symm
  · rfl

theorem folded_of_namesHtml (h : NamesHtml value) : folded value = "text/html".toList := by
  obtain ⟨front, media, back, parameters, hvalue, hfront, hback, hmedia, hparameters⟩ := h
  have hwhite {w : List Char} (hw : Text.White w) : ';' ∉ w := fun h =>
    absurd (hw ';' h) (by decide)
  have hnone : ';' ∉ media := by
    intro h
    have hlower : Char.toLower ';' ∈ media.map Char.toLower := List.mem_map_of_mem h
    rw [hmedia] at hlower
    exact absurd hlower (by decide)
  have hpart : ∀ c ∈ front ++ media ++ back, decide (c ≠ ';') = true := by
    intro c hc
    rw [decide_eq_true_iff]
    rintro rfl
    simp [hwhite hfront, hnone, hwhite hback] at hc
  rw [folded, mediaType, String.toList_ofList, hvalue,
    takeWhile_append_parameters _ hparameters, List.takeWhile_eq_self_iff.mpr hpart,
    Text.trim_append_white hback, Text.trim_white_append hfront, ← Text.trim_map_toLower, hmedia]
  decide

/-- The media type is what is left of the value when the parameters and then the white space around
it are taken off. -/
theorem exists_mediaType (value : String) : ∃ front back parameters : List Char,
    value.toList = front ++ (mediaType value).toList ++ back ++ parameters ∧ Text.White front ∧
      Text.White back ∧ (parameters = [] ∨ parameters.head? = some ';') := by
  obtain ⟨front, back, hfront, hback, htake⟩ :=
    Text.exists_trim (value.toList.takeWhile (· ≠ ';'))
  refine ⟨front, back, value.toList.dropWhile (· ≠ ';'), ?_, hfront, hback, ?_⟩
  · rw [mediaType, String.toList_ofList, ← htake, List.takeWhile_append_dropWhile]
  · have hdrop := List.head?_dropWhile_not (fun c : Char => decide (c ≠ ';')) value.toList
    cases hrest : value.toList.dropWhile (· ≠ ';') with
    | nil => exact .inl rfl
    | cons c rest =>
        rw [hrest] at hdrop
        exact .inr (congrArg some (by simpa using hdrop))

theorem namesHtml_iff : NamesHtml value ↔ folded value = "text/html".toList := by
  refine ⟨folded_of_namesHtml, fun h => ?_⟩
  obtain ⟨front, back, parameters, hvalue, hfront, hback, hparameters⟩ := exists_mediaType value
  exact ⟨front, _, back, parameters, hvalue, hfront, hback, h, hparameters⟩

end Values

theorem isHtml_iff_folded? : r.isHtml = true ↔ folded? r.headers = some "text/html".toList := by
  have hheader : r.header? "content-type" = (r.headers.find? isContentType).map Prod.snd := rfl
  rw [isHtml, hheader, folded?]
  cases r.headers.find? isContentType with
  | none => simp
  | some h => simp [Text.sameLetters, folded]

theorem isHtml_iff : r.isHtml = true ↔ DeclaresHtml r.headers := by
  rw [isHtml_iff_folded?, folded?, Option.map_eq_some_iff]
  constructor
  · rintro ⟨⟨name, value⟩, hfind, hvalue⟩
    obtain ⟨hname, before, after, hheaders, hbefore⟩ := List.find?_eq_some_iff_append.mp hfind
    refine ⟨before, name, value, after, hheaders, fun h hh => ?_, hname, namesHtml_iff.mpr hvalue⟩
    simpa using hbefore h hh
  · rintro ⟨before, name, value, after, hheaders, hbefore, hname, hvalue⟩
    refine ⟨(name, value), List.find?_eq_some_iff_append.mpr
      ⟨hname, before, after, hheaders, fun h hh => ?_⟩, namesHtml_iff.mp hvalue⟩
    simpa using hbefore h hh

section Changes

theorem folded?_append (before after : List (String × String)) :
    folded? (before ++ after) = (folded? before).or (folded? after) := by
  rw [folded?, List.find?_append, Option.map_or, ← folded?, ← folded?]

theorem folded?_cons (h : String × String) (after : List (String × String)) :
    folded? (h :: after) =
      if isContentType h = true then some (folded h.2) else folded? after := by
  rw [folded?, List.find?_cons]
  cases hh : isContentType h <;> simp [folded?]

/-- What a change to the headers keeps. -/
theorem Retouched.folded?_eq (h : Retouched headers headers') :
    folded? headers' = folded? headers := by
  cases h with
  | added hother => simp only [folded?_append, folded?_cons, hother, Bool.false_eq_true, if_false]
  | removed hother => simp only [folded?_append, folded?_cons, hother, Bool.false_eq_true, if_false]
  | reordered _ hsame => rw [folded?, folded?, ← List.head?_filter, ← List.head?_filter, hsame]
  | @renamed before after name name' value hcase =>
      have hname : isContentType (name', value) = isContentType (name, value) := by
        rw [Text.sameLetters, beq_iff_eq] at hcase
        rw [isContentType, isContentType, Text.sameLetters, Text.sameLetters, hcase]
      simp only [folded?_append, folded?_cons, hname]
  | @recased before after name value value' hcase =>
      have hvalue : folded value' = folded value := by
        rw [Text.sameLetters, beq_iff_eq] at hcase
        rw [folded_eq, folded_eq, hcase]
      have hname : isContentType (name, value') = isContentType (name, value) := rfl
      simp only [folded?_append, folded?_cons, hname, hvalue]
  | @reparametrised before after name type parameters parameters' =>
      have hvalue (parameters : String) : folded (type ++ ";" ++ parameters) = folded type := by
        rw [folded, mediaType, String.toList_append, String.toList_append, List.append_assoc,
          takeWhile_append_parameters _ (.inr rfl), ← mediaType, ← folded]
      simp only [folded?_append, folded?_cons, isContentType, hvalue]

theorem folded?_of_retouched (h : Relation.ReflTransGen Retouched headers headers') :
    folded? headers' = folded? headers := by
  induction h with
  | refl => rfl
  | tail _ hstep ih => exact hstep.folded?_eq.trans ih

/-- Any number of changes leaves a response one of HTML, or one that is not. -/
theorem isHtml_eq_of_retouched (h : Relation.ReflTransGen Retouched r.headers r'.headers) :
    r'.isHtml = r.isHtml := by
  rw [Bool.eq_iff_iff, isHtml_iff_folded?, isHtml_iff_folded?, folded?_of_retouched h]

end Changes

end Response

end AssetSlots
